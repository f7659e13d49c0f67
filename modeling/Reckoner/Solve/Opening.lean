import Reckoner.Solve.Equation

/-!
# Opening an iteration with an expression

In place of a first estimate a caller may bind the unknown to an expression. If the residual is
small enough there, the expression itself is the solution. It cannot be moved by a step, though, so
that a step that would have to be made is an error of its kind.
-/

namespace Reckoner

namespace Unknown

variable {σ : Type}

/-- The value of a program in which the unknown is bound to a value of a caller. -/
def valueWith (u : Unknown Scalar) (p : Program Scalar) (start : Datum) : Action σ Scalar :=
  Action.ofExcept (p.run ((u.bindings.without [u.name]).insert u.name start.toBinding))

/-- The step from an expression to the next estimate, which there is none of. -/
def leave (u : Unknown Scalar) (derivative? : Option (Program Scalar)) (start : Datum)
    (estimate : Estimate) (residual : Scalar) : Action σ Cause :=
  match derivative? with
  | none => return .withoutMagnitude start.kind
  | some p => do
    let slope ← u.valueWith p start
    if slope.isZero then return .zeroDerivative estimate
    else if !(← Action.ofFault slope.isFinite) then
      return .noConvergence (.derivativeAt u.name estimate)
    else
      let step ← Action.ofFault (residual.div slope)
      return .unsupported Operator.subtract.symbol start.kind (Datum.number step).kind

/-- The solution if the residual is small enough at an expression. -/
def solveOpened (u : Unknown Scalar) (start : Datum) (p : Program Scalar) :
    Action σ (Solution Datum) := do
  let derivative? ← Action.ofExcept u.derivativeProgram
  let residual ← u.valueWith p start
  let estimate ← Action.ofExcept (Estimate.ofDatum start)
  if !(← Action.ofFault residual.isFinite) then
    Action.fail (.noConvergence (.residualAt u.name estimate))
  else
    let size ← Action.ofFault residual.abs
    if Scalar.less size u.limits.tolerance then
      return ⟨[(u.name, start)], .newton, 0, .number size, none⟩
    else if u.limits.iterations ≤ 0 then Action.fail (.maxIterations estimate 0)
    else
      let evaluations := 1 + if derivative?.isSome then 1 else 2
      if ← Action.ofCause (u.limits.exceededBy evaluations) then
        Action.fail (.maxIterations estimate 0)
      else Action.fail (← u.leave derivative? start estimate residual)

end Unknown

end Reckoner
