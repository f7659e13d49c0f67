import Reckoner.Solve.Check
import Reckoner.Solve.Equation
import Reckoner.Solve.Equations
import Reckoner.Solve.Event
import Reckoner.Solve.Opening
import Reckoner.Solve.Options

/-!
# Solving

The unknown of an equation is the one that is asked for, or else the only variable that is not
known. A system is solved for all its unknowns together; a system of one equation is that
equation. An equation or a system without unknowns is checked.
-/

namespace Reckoner

/-- A computation that reports events, the last one first. -/
abbrev Solving (β : Type) := Action (List SolveEvent) β

namespace Solving

/-- Reports an event. -/
def report (event : SolveEvent) : Solving Unit := .update (event :: ·)

/-- The outcome, and the events in their order. -/
def run {β : Type} (a : Solving β) : Except Error β × List SolveEvent :=
  let (outcome, events) := a.runFrom []
  (outcome, events.reverse)

/-- An error of a computation belongs to a text. -/
def within {β : Type} (text : String) (a : Solving β) : Solving β :=
  .ofFun fun events =>
    let (outcome, events) := a.runFrom events
    (outcome.mapError (·.within text), events)

end Solving

/-- The equation that a value stands for. -/
def Equation.ofDatum : Datum → Except Error Equation
  | .equation e => .ok e
  | .text s => ofText s
  | d => .error (.of (.notIterable d.kind))

namespace Solve

/-- A variable that is asked for is among those that are found. -/
def checked (found : List String) (d : Datum) : Except Error String :=
  match d with
  | .text name =>
    if found.contains name then .ok name else .error (.of (.notInEquation name))
  | _ => do throw (.of (.notInEquation (← d.plain)))

/-- The unknown of an equation, if there is one. -/
def unknownOf (residual : Expr) (known : Table Datum) (solveFor : Datum) :
    Except Error (Option String) :=
  let found := residual.freeVariables
  match solveFor with
  | .null =>
    match found.filter (!known.holds ·) with
    | [] => .ok none
    | [name] => .ok (some name)
    | names => .error (.of (.ambiguous names))
  | d => some <$> checked found d

/-- Each variable of some expressions once, in the order in which they first occur. -/
def variablesOf (residuals : List Expr) : List String :=
  Expr.firstOccurrences [] (residuals.flatMap Expr.freeVariables)

/-- The variables that a value asks for. -/
def requested : Datum → Except Cause (List Datum)
  | .text name => .ok [.text name]
  | .list items => .ok items
  | .map entries => .ok (entries.map fun (name, _) => .text name)
  | .tokens ts => .ok (ts.map fun t => .text t.text)
  | d => .error (.notEnumerable d.kind)

/-- The unknowns of a system. -/
def unknownsOf (residuals : List Expr) (known : Table Datum) (solveFor : Datum) :
    Except Error (List String) :=
  let found := variablesOf residuals
  match solveFor with
  | .null => .ok (found.filter (!known.holds ·))
  | d => do (← (requested d).mapError .of).mapM (checked found)

/-- The solution, or the reason for there being none, at the end of an iteration. An estimate is
shown by how many steps have led to it. -/
def concluded (name : String) (estimate : Nat → Scalar → Estimate) :
    Ending Scalar → Except Cause (Solution Datum)
  | .converged x steps residual =>
    .ok ⟨[(name, .ofEstimate (estimate steps x))], .newton, steps, .number residual, none⟩
  | .exhausted x steps => .error (.maxIterations (estimate steps x) steps)
  | .flat x steps => .error (.zeroDerivative (estimate steps x))
  | .residualNotFinite x steps => .error (.noConvergence (.residualAt name (estimate steps x)))
  | .slopeNotFinite x steps => .error (.noConvergence (.derivativeAt name (estimate steps x)))
  | .diverged steps => .error (.noConvergence (.iterate steps))

/-- The reports on the solution of an equation. -/
def observer (name : String) (estimate : Nat → Scalar → Estimate) :
    Observer (List SolveEvent) Scalar where
  form f := Solving.report (.form name f)
  rejected why := Solving.report (.rejected why)
  root f x := Solving.report (.root name f x)
  step s := Solving.report (.step name (estimate (s.iteration - 1) s.estimate) s)

/-- The derivative that the options give. -/
def derivative? : Datum → Option (Except Error Expr)
  | .null => none
  | d => some (Program.source d)

/-- A solution as callers see it. -/
def inData (s : Solution Scalar) : Solution Datum := s.map .number

/-- Solves an equation that has been read. -/
def parsed (settings : Settings) (options : Options) (known : Table Datum) (e : Equation) :
    Solving (Solution Datum) := do
  let bindings := Binding.ofData known
  match ← Action.ofExcept (unknownOf e.residual known options.solveFor) with
  | none => inData <$> Action.ofExcept (Check.run bindings [e.residual] options.tolerance)
  | some name =>
    let codegen ← Action.ofCause settings.codegen
    let u : Unknown Scalar := {
      residual := e.residual
      name := name
      bindings := bindings
      codegen := codegen
      limits := {
        tolerance := .real options.tolerance
        stepTolerance := .real options.stepTolerance
        iterations := options.maxIterations
        evaluations := options.maxEvaluations }
      derivative? := derivative? options.derivative
      start := options.startValue settings name }
    let observer := observer name options.estimateAt
    match options.opening? with
    | some start => (·.elim inData id) <$> u.solveOr observer (u.solveOpened start)
    | none =>
      match ← u.solve observer with
      | .inl solution => return inData solution
      | .inr ending => Action.ofCause (concluded name options.estimateAt ending)

/-- The text of an equation that a caller gives. -/
def textOf? : Datum → Option String
  | .text s => some s
  | .equation e => some e.text
  | _ => none

/-- Solves an equation with options that are complete. Errors belong to its text. -/
def equationWith (settings : Settings) (options : Options) (known : Table Datum) (d : Datum) :
    Solving (Solution Datum) :=
  let action := do parsed settings options known (← Action.ofExcept (Equation.ofDatum d))
  match textOf? d with
  | some text => action.within text
  | none => action

/-- Solves an equation. -/
def equation (settings : Settings) (d : Datum) (known given overrides : Table Datum) :
    Solving (Solution Datum) := do
  let options ← Action.ofCause (Options.build settings given overrides)
  equationWith settings options known d

/-- The solution, or the reason for there being none, at the end of an iteration for several
unknowns. -/
def concludedSystem (names : List String) (steps : Int) :
    SystemEnding Float → Except Cause (Solution Datum)
  | .converged x iterations norm =>
    .ok (inData ⟨SolveEvent.estimates names x, .newtonSystem, iterations, .real norm, none⟩)
  | .notFinite iteration => .error (.noConvergence (.systemResidual iteration))
  | .exhausted norm =>
    .error (.noConvergence (.systemExhausted steps (norm.getD Double.infinity)))

/-- Solves equations for several unknowns. -/
def together (settings : Settings) (options : Options) (known : Table Datum)
    (residuals : List Expr) (names : List String) : Solving (Solution Datum) := do
  let codegen ← Action.ofCause settings.codegen
  let u : Unknowns Scalar := {
    residuals := residuals
    names := names
    bindings := Binding.ofData known
    codegen := codegen }
  let start : Except Cause (List Float) := do
    (← options.startValues settings names).mapM Datum.toFloat
  let note (s : SystemStep Float) : Solving Unit := Solving.report (.systemStep names s)
  let ending ← u.solve Scalar.realPart? note options.tolerance options.maxIterations start
  Action.ofCause (concludedSystem names options.maxIterations ending)

/-- The names among values that ought all to be names. -/
def namesOf (index : Nat) : List Datum → Except Cause (List String)
  | [] => .ok []
  | .text name :: rest => do return name :: (← namesOf (index + 1) rest)
  | d :: _ => .error (.notAText index d.kind)

/-- Options for the only equation of a system: of several unknowns none can be meant. -/
def soleOptions (options : Options) : Except Cause Options :=
  match options.solveFor with
  | .null | .text _ => .ok options
  | d => do
    match ← requested d with
    | [] => return { options with solveFor := .null }
    | [name] => return { options with solveFor := name }
    | names => throw (.ambiguous (← namesOf 0 names))

/-- Solves a system of equations. -/
def system (settings : Settings) (equations : List Datum) (known given overrides : Table Datum) :
    Solving (Solution Datum) := do
  let options ← Action.ofCause (Options.build settings given overrides)
  match ← Action.ofExcept (equations.mapM Equation.ofDatum) with
  | [] => Action.fail .emptySystem
  | [e] => do
    let options ← Action.ofCause (soleOptions options)
    equationWith settings options known (.equation e)
  | es => do
    let residuals := es.map Equation.residual
    match ← Action.ofExcept (unknownsOf residuals known options.solveFor) with
    | [] =>
      inData <$> Action.ofExcept (Check.run (Binding.ofData known) residuals options.tolerance)
    | names =>
      if residuals.length < names.length then Action.fail (.ambiguous names)
      else together settings options known residuals names

end Solve

end Reckoner
