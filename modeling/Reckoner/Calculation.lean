import Reckoner.Trace.Basic

/-!
# Calculations

A problem is an expression, an equation or a list of equations. An expression comes to its value,
everything else to a solution; on demand the steps on the way are answered instead.
-/

namespace Reckoner

/-- The expression that a value stands for. -/
def Expr.ofDatum : Datum → Except Error Expr
  | .text s => ofText s
  | .tree e => .ok e
  | d => .error (.of (.notIterable d.kind))

namespace Calculation

/-- Errors belong to a problem that is a text. -/
def located {β : Type} (problem : Datum) (outcome : Except Error β) : Except Error β :=
  match problem with
  | .text s => outcome.mapError (·.within s)
  | _ => outcome

/-- The value of an expression. -/
def value (problem : Datum) (bindings : Table Datum) : Except Error Scalar :=
  located problem do (← Expr.ofDatum problem).evaluate (Binding.ofData bindings)

/-- The value of an expression, which must be real. -/
def realValue (problem : Datum) (bindings : Table Datum) : Except Error Scalar := do
  let x ← value problem bindings
  if x.isComplex then located problem (.error (.of (.complexResult x.text))) else return x

/-- The value of an expression, with its steps. -/
def evaluateTraced (problem : Datum) (bindings : Table Datum) : Action Trace Scalar := do
  let e ← Action.ofExcept (located problem (Expr.ofDatum problem))
  .ofFun fun t =>
    let (outcome, t) := (Trace.evaluate (Binding.ofData bindings) e).runFrom t
    (located problem outcome, t)

/-- The problem in words. -/
def problemText : Datum → Except Error String
  | .list items => do
    let shown ← items.mapM Datum.plain
    return "; ".intercalate shown
  | d => d.plain

/-- What there is to do. -/
inductive Task where
  | evaluate (expression : Datum)
  | solve (equation : Datum)
  | solveSystem (equations : List Datum)

/-- A text with an equals sign between two sides is an equation. -/
def taskOf : Datum → Except Error Task
  | .list items => .ok (.solveSystem items)
  | .equation e => .ok (.solve (.equation e))
  | .text s => do
    let text ← Latex.plainOf s
    return if (Equation.equalsSign? text).isSome then .solve (.text s) else .evaluate (.text s)
  | d => .ok (.evaluate d)

/-- How a task is solved, if it is not an expression. -/
def solving? (settings : Settings) (known options : Table Datum) :
    Task → Datum ⊕ Solving (Solution Datum)
  | .evaluate e => .inl e
  | .solve e => .inr (Solve.equation settings e known options [])
  | .solveSystem es => .inr (Solve.system settings es known options [])

/-- What a problem comes to. -/
def answer (settings : Settings) (problem : Datum) (known options : Table Datum) :
    Except Error Answer := do
  match solving? settings known options (← taskOf problem) with
  | .inl e => return .ofScalar (← value e known)
  | .inr a => return .solution (← a.run.1)

/-- The answer, on the way to which steps are recorded: the problem, what is done, the answer. -/
def traced (settings : Settings) (problem : Datum) (known options : Table Datum) :
    Action Trace Answer := do
  Trace.add (.ofProblem (← Action.ofExcept (problemText problem)))
  let answer ←
    match solving? settings known options (← Action.ofExcept (taskOf problem)) with
    | .inl e => Answer.ofScalar <$> evaluateTraced e known
    | .inr a => Answer.solution <$> Trace.solve a
  Trace.addShown fun digits => Step.ofAnswer digits answer
  return answer

/-- The steps on the way to the answer. -/
def steps (settings : Settings) (problem : Datum) (known options : Table Datum)
    (digits : Datum) : Except Error (List Step) := do
  let (outcome, trace) := (traced settings problem known options).runFrom (.start digits)
  let _ ← outcome
  return trace.steps

end Calculation

end Reckoner
