import Reckoner.Solve.Basic
import Reckoner.Trace.Display

/-!
# Steps

A step says in words what has been done, and holds the values it was done with.
-/

namespace Reckoner

/-- What a calculation comes to. -/
inductive Answer where
  | datum (d : Datum)
  | solution (s : Solution Datum)
  deriving Inhabited

/-- The answer that is a number. -/
def Answer.ofScalar (x : Scalar) : Answer := .datum (.number x)

/-- Something that has been done. -/
structure Step where
  operation : String
  description : String
  operands : List Datum
  result : Answer
  /-- The part of the problem that the step is about. -/
  subexpression : String
  deriving Inhabited

namespace Step

/-- A step with nothing but a description. -/
def plain (operation description : String) (subexpression : String := "") : Step :=
  ⟨operation, description, [], .datum .null, subexpression⟩

/-- The name of an operation and the sign that it is shown with. -/
def wording : Operator → String × String
  | .add => ("addition", "+")
  | .subtract => ("subtraction", "-")
  | .multiply => ("multiplication", "×")
  | .divide => ("division", "÷")
  | .power => ("power", "^")

/-- An operator with its operands and its result. -/
def ofOperation (digits : Datum) (op : String) (left right result : Datum) : Except Cause Step := do
  let a ← Display.value digits left
  let b ← Display.value digits right
  match Operator.ofSymbol? op with
  | none => throw (.missingName op)
  | some known =>
    let (name, sign) := wording known
    let shown ← Display.value digits result
    return {
      operation := name
      description := a ++ " " ++ sign ++ " " ++ b ++ " = " ++ shown
      operands := [left, right]
      result := .datum result
      subexpression := a ++ " " ++ op ++ " " ++ b }

/-- A call with its arguments and its result. -/
def ofCall (digits : Datum) (name : String) (args : List Datum) (result : Datum) :
    Except Cause Step := do
  let shown ← args.mapM (Display.value digits)
  let call := name ++ "(" ++ Text.commaSeparated shown ++ ")"
  let value ← Display.value digits result
  return {
    operation := "function"
    description := call ++ " = " ++ value
    operands := args
    result := .datum result
    subexpression := call }

/-- A reduction of an expression. -/
def ofReduction (digits : Datum) : Reduction Scalar → Except Cause Step
  | .binary op a b result => ofOperation digits op (.number a) (.number b) (.number result)
  | .call name args result => ofCall digits name (args.map .number) (.number result)

/-- The solution of a linear form. -/
def ofRoot (digits : Datum) (name : String) (f : LinearForm Scalar) (x : Scalar) :
    Except Cause Step := do
  let factor ← Display.scalar digits f.factor
  let constant ← Display.scalar digits f.constant
  let root ← Display.scalar digits x
  return {
    operation := "linear"
    description := factor ++ "·" ++ name ++ " + " ++ constant ++ " = 0 → " ++ name ++ " = " ++ root
    operands := [.number f.factor, .number f.constant]
    result := .ofScalar x
    subexpression := name ++ " = -b / a" }

/-- A step of the iteration for one unknown. -/
def ofNewton (digits : Datum) (name : String) (start : Estimate) (s : NewtonStep Scalar) :
    Except Cause Step := do
  let x ← Display.scalar digits s.estimate
  let residual ← Display.scalar digits s.residual
  let slope ← Display.scalar digits s.slope
  let next ← Display.scalar digits s.next
  return {
    operation := "newton"
    description := "Iteration " ++ toString s.iteration ++ ": " ++ name ++ " = " ++ x ++ " - "
      ++ residual ++ " ÷ " ++ slope ++ " = " ++ next
    operands := [.ofEstimate start, .number s.residual, .number s.slope]
    result := .ofScalar s.next
    subexpression := name ++ " - f(" ++ name ++ ") / f'(" ++ name ++ ")" }

/-- An assignment in words. -/
def assignment (digits : Datum) (name : String) (d : Datum) : Except Cause String := do
  return name ++ " = " ++ (← Display.value digits d)

/-- Doubles as values. -/
private def data (xs : List Float) : List Datum := xs.map fun x => .number (.real x)

/-- A step of the iteration for several unknowns. -/
def ofSystem (digits : Datum) (names : List String) (s : SystemStep Float) :
    Except Cause Step := do
  let shown ← (names.zip (data s.next)).mapM fun (name, d) => assignment digits name d
  return {
    operation := "newton-system"
    description := "Iteration " ++ toString s.iteration ++ ": " ++ Text.commaSeparated shown
    operands := data s.residuals
    result := .datum (.list (data s.next))
    subexpression := "|F| = " ++ Double.general s.norm 6 }

/-- The step that an event of solving amounts to, if it does. -/
def ofEvent? (digits : Datum) : SolveEvent → Option (Except Cause Step)
  | .form .. | .rejected _ => none
  | .root name f x => some (ofRoot digits name f x)
  | .step name start s => some (ofNewton digits name start s)
  | .systemStep names s => some (ofSystem digits names s)

/-- The problem that is about to be worked on. -/
def ofProblem (text : String) : Step := plain "initial" ("Evaluate " ++ text) text

/-- The answer in words. -/
def answerText (digits : Datum) : Answer → Except Cause String
  | .solution s =>
    if s.values.isEmpty then return if s.satisfied = some true then "satisfied" else "not satisfied"
    else do
      let shown ← s.values.mapM fun (name, d) => assignment digits name d
      return Text.commaSeparated shown
  | .datum (.map []) => .ok "not satisfied"
  | .datum (.map entries) => do
    let shown ← entries.mapM fun (name, d) => assignment digits name d
    return Text.commaSeparated shown
  | .datum d => Display.value digits d

/-- The answer of a problem. -/
def ofAnswer (digits : Datum) (answer : Answer) : Except Cause Step := do
  return ⟨"result", "Result: " ++ (← answerText digits answer), [], answer, ""⟩

end Step

end Reckoner
