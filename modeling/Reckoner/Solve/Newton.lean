import Reckoner.Action
import Reckoner.Datum
import Reckoner.Solve.Numeric

/-!
# Newton's iteration for one unknown

From an estimate the iteration goes to the point where the tangent is zero, until the residual or
the last step is small enough. The slope is a derivative that is given, or else the quotient of
the difference over a small interval around the estimate. The residual, the derivative and what is
noted of each step are actions of the caller, so that nothing is known of them but their answers.
-/

namespace Reckoner

/-- Where an iteration stops. -/
structure Limits (α : Type) where
  /-- A residual of smaller size is good enough. -/
  tolerance : α
  /-- A step of smaller size is the last one. -/
  stepTolerance : α
  /-- How many steps may be taken. -/
  iterations : Int
  /-- How often residual and derivative may be evaluated, if that is limited. -/
  evaluations : Datum

namespace Limits

variable {α : Type}

/-- The evaluations are more than allowed. -/
def exceededBy (limits : Limits α) (count : Nat) : Except Cause Bool :=
  match limits.evaluations with
  | .null => .ok false
  | limit =>
    match limit.toScalar? with
    | some (.complex _) | none => .error (.notOrdered ">" "int" limit.kind)
    | some bound => .ok (Scalar.less bound (.whole count))

end Limits

/-- One step of the iteration. -/
structure NewtonStep (α : Type) where
  iteration : Nat
  estimate : α
  residual : α
  slope : α
  next : α

/-- How the iteration ends. -/
inductive Ending (α : Type) where
  /-- The residual at the estimate, or the last step, is small enough. -/
  | converged (x : α) (iterations : Nat) (residual : α)
  /-- No further step is allowed. -/
  | exhausted (x : α) (iterations : Nat)
  /-- The slope at the estimate is zero. -/
  | flat (x : α) (iterations : Nat)
  /-- The residual at the estimate is infinite or not a number. -/
  | residualNotFinite (x : α) (iterations : Nat)
  /-- The slope at the estimate is infinite or not a number. -/
  | slopeNotFinite (x : α) (iterations : Nat)
  /-- A step has led to an estimate that is infinite or not a number. -/
  | diverged (iterations : Nat)

/-- A function to find a zero of. -/
structure Newton (σ α : Type) where
  /-- The residual at an estimate. -/
  value : α → Action σ α
  /-- The derivative, if it is given. -/
  derivative? : Option (α → Action σ α)
  /-- Takes notice of a step. -/
  note : NewtonStep α → Action σ Unit
  limits : Limits α

namespace Newton

variable {σ α : Type} [Numeric α]

/-- The interval of the difference quotient, relative to the size of the estimate. -/
def relativeStep : Float := 1e-6

/-- The quotient of the difference over a small interval around a point. -/
def differenceQuotient (f : α → Action σ α) (x : α) : Action σ α := do
  let size ← Action.ofFault (Numeric.abs x)
  let h ← Action.ofFault <|
    Numeric.mul (Arithmetic.number relativeStep) (Numeric.greater (Arithmetic.number 1.0) size)
  let above ← f (← Action.ofFault (Numeric.add x h))
  let below ← f (← Action.ofFault (Numeric.sub x h))
  Action.ofFault do
    Numeric.div (← Numeric.sub above below) (← Numeric.mul (Arithmetic.number 2.0) h)

/-- The slope at a point. -/
def slopeAt (n : Newton σ α) (x : α) : Action σ α :=
  match n.derivative? with
  | some derivative => derivative x
  | none => differenceQuotient n.value x

/-- How many evaluations a slope takes. -/
def slopeCost (n : Newton σ α) : Nat := if n.derivative?.isSome then 1 else 2

/-- The size of a number is below a bound. -/
def isSmall (x bound : α) : Except Fault Bool := do return Numeric.less (← Numeric.abs x) bound

/-- The iteration from an estimate on, with so many steps left after so many steps and
evaluations. -/
def iterate (n : Newton σ α) : (left : Nat) → (done evaluations : Nat) → (x : α) →
    Action σ (Ending α)
  | left, done, evaluations, x => do
    let residual ← n.value x
    let evaluations := evaluations + 1
    if !(← Action.ofFault (Numeric.isFinite residual)) then return .residualNotFinite x done
    let size ← Action.ofFault (Numeric.abs residual)
    if Numeric.less size n.limits.tolerance then return .converged x done size
    match left with
    | 0 => return .exhausted x done
    | left + 1 => do
      if ← Action.ofCause (n.limits.exceededBy (evaluations + n.slopeCost)) then
        return .exhausted x done
      let slope ← n.slopeAt x
      let evaluations := evaluations + n.slopeCost
      if Numeric.isZero slope then return .flat x done
      if !(← Action.ofFault (Numeric.isFinite slope)) then return .slopeNotFinite x done
      let step ← Action.ofFault (Numeric.div residual slope)
      let next ← Action.ofFault (Numeric.sub x step)
      n.note ⟨done + 1, x, residual, slope, next⟩
      if !(← Action.ofFault (Numeric.isFinite next)) then return .diverged (done + 1)
      if ← Action.ofFault (isSmall step n.limits.stepTolerance) then do
        let last ← n.value next
        if ← Action.ofFault (Numeric.isFinite last) then
          return .converged next (done + 1) (← Action.ofFault (Numeric.abs last))
        else iterate n left (done + 1) (evaluations + 1) next
      else iterate n left (done + 1) evaluations next

/-- The iteration from a first estimate. -/
def run (n : Newton σ α) (start : α) : Action σ (Ending α) :=
  n.iterate n.limits.iterations.toNat 0 0 start

end Newton

end Reckoner
