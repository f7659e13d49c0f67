import Reckoner.Expr.Inspect
import Reckoner.Expr.Parser

/-!
# Printing expressions

A tree is printed with parentheses only where reading would otherwise build another tree. Sums are
the loosest, then products, signs, powers and atoms; a literal with a negative value counts as a
sign, and a sign on the right of an operator needs no parentheses.
-/

namespace Reckoner.Expr

/-- How tightly an operator is printed. -/
def operatorPrecedence? : String → Option Nat
  | "+" | "-" => some 1
  | "*" | "/" => some 2
  | "^" => some 4
  | _ => none

/-- The precedence of an operator; one that is not known binds like a sum. -/
def operatorPrecedence (op : String) : Nat := (operatorPrecedence? op).getD 1

/-- The precedence of a sign. -/
def signPrecedence : Nat := 3

/-- The precedence of a literal, a name or a call. -/
def atomPrecedence : Nat := 5

/-- A literal whose value has a minus sign, if only that of a zero. -/
def isNegativeLiteral : Expr → Bool
  | number x | imaginary x => Double.isNegative x
  | _ => false

/-- A sign in front. -/
def isNegation : Expr → Bool
  | negate _ => true
  | _ => false

/-- How tightly a tree is printed. -/
def precedence : Expr → Nat
  | binary op _ _ => operatorPrecedence op
  | negate _ => signPrecedence
  | e => if isNegativeLiteral e then signPrecedence else atomPrecedence

/-- A number with no point behind a whole value below ten to the sixteenth. -/
def numberText (x : Float) : String :=
  if x.isNaN then "nan"
  else if Double.isPlainWhole x && !(Double.isZero x && Double.isNegative x) then
    toString (Double.truncate x)
  else if Double.isZero x then "-0"
  else Double.text x

/-- A number times the imaginary unit. An infinite one is written as a literal that is read as
infinite, since the unit behind a name would make another name. -/
def imaginaryText (x : Float) : String :=
  (if x.isInf then (if Double.isNegative x then "-1e999" else "1e999") else numberText x) ++ "i"

/-- The text between parentheses. -/
def wrap (s : String) : String := "(" ++ s ++ ")"

/-- The text, between parentheses on a condition. -/
def wrapIf (condition : Bool) (s : String) : String := if condition then wrap s else s

/-- The operand of a sign needs parentheses unless it is a power or an atom. -/
def wrapsUnderSign : Expr → Bool
  | binary op _ _ => op != "^"
  | _ => false

/-- Powers group from the right. -/
def groupsRight (op : String) : Bool := op == "^"

/-- The left operand needs parentheses. -/
def wrapsLeft (op : String) (left : Expr) : Bool :=
  precedence left < operatorPrecedence op
    || (groupsRight op && precedence left ≤ operatorPrecedence op)

/-- The right operand needs parentheses. -/
def wrapsRight (op : String) (right : Expr) : Bool :=
  if precedence right < operatorPrecedence op && !isNegation right && !isNegativeLiteral right
  then true
  else precedence right == operatorPrecedence op && !groupsRight op

/-- An operator between its operands; powers are written without blanks. -/
def joinOperands (op left right : String) : String :=
  if op = "^" then left ++ "^" ++ right else left ++ " " ++ op ++ " " ++ right

mutual

/-- The text of a tree. What is not an expression is written as a term. -/
def text : Expr → String
  | number x => numberText x
  | imaginary x => imaginaryText x
  | constant name | var name => name
  | call name args => name ++ wrap (Text.commaSeparated (textAll args))
  | negate e => "-" ++ wrapIf (wrapsUnderSign e) (text e)
  | binary op l r =>
    joinOperands op (wrapIf (wrapsLeft op l) (text l)) (wrapIf (wrapsRight op r) (text r))
  | e => inspect e

/-- The texts of arguments. -/
def textAll : List Expr → List String
  | [] => []
  | e :: rest => text e :: textAll rest

end

mutual

/-- The first thing in a tree that has no notation: a node that is not an expression, or an
operator that is not known. -/
def unprintable? : Expr → Option Cause
  | negate e => unprintable? e
  | binary op l r =>
    if (operatorPrecedence? op).isNone then some (.missingName op)
    else (unprintable? l).orElse fun _ => unprintable? r
  | call _ args => unprintableAll? args
  | blank => some (.invalidTree (.notPrintable (inspect blank)))
  | e@(foreign ..) => some (.invalidTree (.notPrintable (inspect e)))
  | _ => none

/-- The first thing among arguments that has no notation. -/
def unprintableAll? : List Expr → Option Cause
  | [] => none
  | e :: rest => (unprintable? e).orElse fun _ => unprintableAll? rest

end

/-- The text of a tree, if all of it has a notation. -/
def print (e : Expr) : Except Error String :=
  match unprintable? e with
  | some cause => .error (.of cause)
  | none => .ok (text e)

end Reckoner.Expr
