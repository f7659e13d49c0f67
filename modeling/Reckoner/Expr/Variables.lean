import Reckoner.Constant
import Reckoner.Error
import Reckoner.Expr.Basic

/-!
# Variables of an expression
-/

namespace Reckoner.Expr

mutual

/-- The names of all variable nodes from left to right, with repetitions. -/
def names : Expr → List String
  | var name => [name]
  | negate e => names e
  | binary _ l r => names l ++ names r
  | call _ args => namesAll args
  | _ => []

/-- The names in arguments. -/
def namesAll : List Expr → List String
  | [] => []
  | e :: rest => names e ++ namesAll rest

end

/-- Each element once, where it occurs first. -/
def firstOccurrences (found : List String) : List String → List String
  | [] => found
  | name :: rest =>
    if found.contains name then firstOccurrences found rest
    else firstOccurrences (found ++ [name]) rest

/-- The free variables in order of their first occurrence; names of constants are not free. -/
def freeVariables (e : Expr) : List String :=
  firstOccurrences [] ((names e).filter (!Constant.isName ·))

mutual

/-- No variable is free: none but the names of constants occur. -/
def isClosed : Expr → Bool
  | var name => Constant.isName name
  | negate e => isClosed e
  | binary _ l r => isClosed l && isClosed r
  | call _ args => areClosed args
  | _ => true

/-- No variable is free in arguments. -/
def areClosed : List Expr → Bool
  | [] => true
  | e :: rest => isClosed e && areClosed rest

end

mutual

/-- A variable node of that name occurs; a search from left to right that ends at the first one,
and fails at what is not an expression. -/
def mentions (name : String) : Expr → Except Cause Bool
  | var other => .ok (other == name)
  | negate e => mentions name e
  | binary _ l r => do if ← mentions name l then return true else mentions name r
  | call _ args => mentionsAny name args
  | foreign type _ => .error (.notANode type "children")
  | _ => .ok false

/-- A variable node of that name occurs among arguments. -/
def mentionsAny (name : String) : List Expr → Except Cause Bool
  | [] => .ok false
  | e :: rest => do if ← mentions name e then return true else mentionsAny name rest

end

mutual

/-- The type of the first thing in a tree that is not an expression. -/
def firstForeign? : Expr → Option String
  | negate e => firstForeign? e
  | binary _ l r => (firstForeign? l).orElse fun _ => firstForeign? r
  | call _ args => firstForeignIn? args
  | foreign type _ => some type
  | _ => none

/-- The type of the first thing among arguments that is not an expression. -/
def firstForeignIn? : List Expr → Option String
  | [] => none
  | e :: rest => (firstForeign? e).orElse fun _ => firstForeignIn? rest

end

/-- The free variables, if all of the tree is an expression. -/
def freeVariables? (e : Expr) : Except Error (List String) :=
  match firstForeign? e with
  | some type => .error (.of (.notANode type "children"))
  | none => .ok (freeVariables e)

end Reckoner.Expr
