import Reckoner.Constant
import Reckoner.Expr.Inspect

/-!
# Valid expressions

A tree is valid if its operators and constants are known, its names are not empty, and all of its
nodes are expressions.
-/

namespace Reckoner.Expr

/-- What is wrong with a node itself. -/
def nodeDefect? : Expr → Option Defect
  | binary op _ _ => if (Operator.ofSymbol? op).isNone then some (.unknownOperator op) else none
  | constant name => if Constant.isName name then none else some (.unknownConstant name)
  | var name | call name _ => if name = "" then some (.invalidName name) else none
  | blank => some .blankNode
  | foreign _ shown => some (.notAnExpression shown)
  | _ => none

mutual

/-- The first defect, a node before its operands and those from left to right. -/
def defect? : Expr → Option Defect
  | e@(negate operand) => (nodeDefect? e).orElse fun _ => defect? operand
  | e@(binary _ l r) =>
    (nodeDefect? e).orElse fun _ => (defect? l).orElse fun _ => defect? r
  | e@(call _ args) => (nodeDefect? e).orElse fun _ => defectAll? args
  | e => nodeDefect? e

/-- The first defect among arguments. -/
def defectAll? : List Expr → Option Defect
  | [] => none
  | e :: rest => (defect? e).orElse fun _ => defectAll? rest

end

/-- A tree without defects. -/
def isValid (e : Expr) : Bool := (defect? e).isNone

/-- Refuses a tree with a defect. -/
def validate (e : Expr) : Except Error Unit :=
  match defect? e with
  | some d => .error (.of (.invalidTree d))
  | none => .ok ()

end Reckoner.Expr
