import Reckoner.Expr.Evaluation
import Reckoner.Expr.Validation
import Reckoner.Expr.Variables

/-!
# Code

An expression that will be evaluated many times is turned into code once. Every part without free
variables is evaluated at that time and becomes a value; if its evaluation fails it stays as it is,
so that the same error comes up each time the code runs. Functions and operators are looked up
beforehand.
-/

namespace Reckoner

/-- Code for an expression. -/
inductive Code (α : Type) where
  /-- A value that is known beforehand. -/
  | value (v : α)
  /-- A variable. -/
  | var (name : String)
  /-- The value with the opposite sign. -/
  | negate (operand : Code α)
  /-- An operator. -/
  | binary (op : Operator) (left right : Code α)
  /-- A function that takes as many arguments as there are. -/
  | apply (f : Function) (args : List (Code α))
  /-- A call that fails behind its arguments. -/
  | call (name : String) (args : List (Code α))

namespace Code

variable {α : Type} [Arithmetic α]

/-- The code of an expression: its value, if it is closed and has one, and else the code of its
parts. Only errors of evaluation are put off. -/
def folding (e : Expr) (parts : Unit → Except Error (Code α)) : Except Error (Code α) :=
  if e.isClosed then
    match Expr.evaluate [] e with
    | .ok v => .ok (.value v)
    | .error error => if error.cause.kind.isEvaluation then parts () else .error error
  else parts ()

/-- A call whose function is looked up beforehand. -/
def ofCall (name : String) (args : List (Code α)) : Code α :=
  match Function.ofName? name with
  | some f => if f.arity.admits args.length then .apply f args else .call name args
  | none => .call name args

mutual

/-- The code of an expression. -/
def ofExpr : Expr → Except Error (Code α)
  | .number x => .ok (.value (Arithmetic.number x))
  | .imaginary x => .ok (.value (Arithmetic.imaginary x))
  | .constant name =>
    match Constant.ofName? name with
    | some c => .ok (.value (Arithmetic.constant c))
    | none => .error (.of (.missingName name))
  | .var name =>
    match Constant.ofName? name with
    | some c => .ok (.value (Arithmetic.constant c))
    | none => .ok (.var name)
  | .negate e => folding (.negate e) fun _ => do return .negate (← ofExpr e)
  | .binary op l r => folding (.binary op l r) fun _ =>
    match Operator.ofSymbol? op with
    | none => .error (.of (.missingName op))
    | some known => do
      let left ← ofExpr l
      let right ← ofExpr r
      return .binary known left right
  | .call name args => folding (.call name args) fun _ => do return ofCall name (← ofAll args)
  | .blank => .error (.of .blankOperation)
  | .foreign type _ => .error (.of (.notANode type "evaluate"))

/-- The code of arguments. -/
def ofAll : List Expr → Except Error (List (Code α))
  | [] => .ok []
  | e :: rest => do
    let code ← ofExpr e
    let codes ← ofAll rest
    return code :: codes

end

mutual

/-- Runs code whose variables are looked up in the given way. -/
def runWith (lookup : String → Run α α) : Code α → Run α α
  | value v => pure v
  | var name => lookup name
  | negate operand => do return Arithmetic.negate (← runWith lookup operand)
  | binary op l r => do
    let a ← runWith lookup l
    let b ← runWith lookup r
    Action.ofCause (Arithmetic.operate op a b)
  | apply f args => do
    let values ← runAllWith lookup args
    Action.ofCause (Arithmetic.apply f values)
  | call name args => do
    let values ← runAllWith lookup args
    Action.ofCause (Function.evaluateNamed name values)

/-- Runs the code of arguments. -/
def runAllWith (lookup : String → Run α α) : List (Code α) → Run α (List α)
  | [] => pure []
  | code :: rest => do
    let value ← runWith lookup code
    let values ← runAllWith lookup rest
    return value :: values

end

end Code

end Reckoner
