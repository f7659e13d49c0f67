import Reckoner.Trace.Step

/-!
# Traces

A trace collects the steps of what is evaluated and solved. It only looks at values that have been
computed: with a trace everything comes out as without one, unless a step cannot be shown.
-/

namespace Reckoner

/-- The steps so far, and how many significant digits are shown in them. -/
structure Trace where
  digits : Datum
  steps : List Step

namespace Trace

/-- A trace without steps. -/
def start (digits : Datum) : Trace := ⟨digits, []⟩

/-- Records a step. -/
def add (step : Step) : Action Trace Unit := .update fun t => { t with steps := t.steps ++ [step] }

/-- Records a step that is shown with the digits of the trace. -/
def addShown (step : Datum → Except Cause Step) : Action Trace Unit := do
  add (← Action.ofCause (step (← get).digits))

/-- Records the reductions of an expression. -/
def addReductions : List (Reduction Scalar) → Action Trace Unit
  | [] => pure ()
  | r :: rest => do
    addShown fun digits => Step.ofReduction digits r
    addReductions rest

/-- Records the events of solving. -/
def addEvents : List SolveEvent → Action Trace Unit
  | [] => pure ()
  | event :: rest => do
    match Step.ofEvent? (← get).digits event with
    | some step => addShown fun _ => step
    | none => pure ()
    addEvents rest

/-- The value of an expression, whose reductions are recorded. -/
def evaluate (bindings : Table (Binding Scalar)) (e : Expr) : Action Trace Scalar := do
  let (outcome, reductions) := e.evaluateTraced bindings
  addReductions reductions
  Action.ofExcept outcome

/-- The solution that is sought, whose events are recorded. -/
def solve (a : Solving (Solution Datum)) : Action Trace (Solution Datum) := do
  let (outcome, events) := a.run
  addEvents events
  Action.ofExcept outcome

end Trace

/-- What is known after solving: the outcome, the steps and the log. -/
structure SolveReport where
  outcome : Except Error (Solution Datum)
  steps : List Step
  log : List String

namespace SolveReport

/-- The events up to the first whose step cannot be shown. -/
def visible (digits : Datum) : List SolveEvent → List SolveEvent
  | [] => []
  | event :: rest =>
    match Step.ofEvent? digits event with
    | some (.error _) => [event]
    | _ => event :: visible digits rest

/-- The report without a trace. -/
def untraced (a : Solving (Solution Datum)) : SolveReport :=
  let (outcome, events) := a.run
  ⟨outcome, [], events.filterMap SolveEvent.logged?⟩

/-- The report with a trace that shows so many significant digits. -/
def traced (digits : Datum) (a : Solving (Solution Datum)) : SolveReport :=
  let (outcome, trace) := (Trace.solve a).runFrom (.start digits)
  ⟨outcome, trace.steps, (visible digits a.run.2).filterMap SolveEvent.logged?⟩

end SolveReport

end Reckoner
