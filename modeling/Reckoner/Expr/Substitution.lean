import Reckoner.Expr.Literal

/-!
# Substitution

Every variable with a replacement gives way to it, all at once: replacements are not looked into
again.
-/

namespace Reckoner.Expr

mutual

/-- The expression with its variables replaced. -/
def replace (replacements : Table Expr) : Expr → Expr
  | var name => (replacements.find? name).getD (var name)
  | negate e => negate (replace replacements e)
  | binary op l r => binary op (replace replacements l) (replace replacements r)
  | call name args => call name (replaceAll replacements args)
  | e => e

/-- The arguments with their variables replaced. -/
def replaceAll (replacements : Table Expr) : List Expr → List Expr
  | [] => []
  | e :: rest => replace replacements e :: replaceAll replacements rest

end

/-- The expression that a value puts in the place of a variable. -/
def replacement (name : String) (d : Datum) : Except Error Expr :=
  match d with
  | .tree e => .ok e
  | .text source => ofText source
  | _ =>
    match d.toScalar? with
    | some _ => (literal d).mapError .of
    | none => .error (.of (.invalidBinding name d.shown))

/-- The replacements that values stand for, in their order. -/
def replacements : Table Datum → Except Error (Table Expr)
  | [] => .ok []
  | (name, d) :: rest => do
    let e ← replacement name d
    let others ← replacements rest
    return (name, e) :: others

/-- The expression with values put in the place of variables. -/
def substitute (e : Expr) (values : Table Datum) : Except Error Expr := do
  return e.replace (← replacements values)

end Reckoner.Expr
