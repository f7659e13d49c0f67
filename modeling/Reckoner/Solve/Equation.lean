import Reckoner.Program.Basic
import Reckoner.Solve.Linear
import Reckoner.Solve.Newton

/-!
# Solving one equation

The difference of the sides is first taken as a linear form. If it has one, and the form agrees with
the difference at two points, the solution is exact but for rounding. Otherwise Newton's iteration
is tried.
-/

namespace Reckoner

/-- An equation in one unknown that is to be solved. -/
structure Unknown (α : Type) where
  /-- The difference of the sides. -/
  residual : Expr
  name : String
  /-- What the other variables are bound to. -/
  bindings : Table (Binding α)
  codegen : Bool
  limits : Limits α
  /-- The derivative of the residual, if it is given. -/
  derivative? : Option (Except Error Expr)
  /-- The first estimate. -/
  start : Except Cause α

/-- How an observer takes notice of the steps of a solution. -/
structure Observer (σ α : Type) where
  form : LinearForm α → Action σ Unit
  rejected : String → Action σ Unit
  root : LinearForm α → α → Action σ Unit
  step : NewtonStep α → Action σ Unit

namespace Unknown

variable {σ α : Type} [Numeric α]

/-- The bindings together with a value of the unknown. -/
def bind (u : Unknown α) (x : α) : Table (Binding α) :=
  (u.bindings.without [u.name]).insert u.name (.number x)

/-- A program as a function of the unknown. -/
def function (u : Unknown α) (p : Program α) (x : α) : Except Error α := p.run (u.bind x)

/-- The points where a linear form is compared with the equation. -/
def samplePoints : Float × Float := (1.0, 2.0)

/-- The solution by way of a linear form. -/
def solveLinear (u : Unknown α) (observer : Observer σ α) (f : α → Except Error α) :
    Action σ (Solution α) := do
  let form ← Action.ofExcept (u.residual.collect (u.bindings.without [u.name]) u.name)
  let x1 : α := Arithmetic.number samplePoints.1
  let x2 : α := Arithmetic.number samplePoints.2
  let y1 ← Action.ofExcept (f x1)
  let y2 ← Action.ofExcept (f x2)
  if !(← Action.ofFault (form.agrees x1 y1 x2 y2)) then
    Action.fail (.nonlinear .sampleMismatch)
  else do
    observer.form form
    if Numeric.isZero form.factor then
      if ← Action.ofFault (Newton.isSmall form.constant u.limits.tolerance) then
        Action.fail .infiniteSolutions
      else Action.fail .noSolution
    else do
      let x ← Action.ofCause form.root
      observer.root form x
      let residual ← Action.ofExcept (f x)
      return ⟨[(u.name, x)], .linear, 0, ← Action.ofFault (Numeric.abs residual), none⟩

/-- The program of the derivative, if it is given. -/
def derivativeProgram (u : Unknown α) : Except Error (Option (Program α)) :=
  match u.derivative? with
  | none => .ok none
  | some expression => some <$> (expression >>= Program.ofExpr u.codegen)

/-- The end of Newton's iteration. -/
def solveNewton (u : Unknown α) (observer : Observer σ α) (p : Program α) :
    Action σ (Ending α) := do
  let derivative? ← Action.ofExcept u.derivativeProgram
  let start ← Action.ofCause u.start
  let asAction (p : Program α) (x : α) : Action σ α := Action.ofExcept (u.function p x)
  Newton.run ⟨asAction p, derivative?.map asAction, observer.step, u.limits⟩ start

/-- A computation, and another one if it fails because there is no linear form. -/
def orElseNonlinear {β : Type} (a : Action σ β) (other : String → Action σ β) : Action σ β :=
  tryCatch a fun error =>
    match error.cause with
    | .nonlinear why => other why.message
    | _ => throw error

/-- The solution by a linear form, or else what another way comes to. -/
def solveOr {β : Type} (u : Unknown α) (observer : Observer σ α)
    (other : Program α → Action σ β) : Action σ (Solution α ⊕ β) := do
  let p ← Action.ofExcept (Program.ofExpr u.codegen u.residual)
  orElseNonlinear (Sum.inl <$> u.solveLinear observer (u.function p)) fun why => do
    observer.rejected why
    Sum.inr <$> other p

/-- The solution by a linear form, or else the end of Newton's iteration. -/
def solve (u : Unknown α) (observer : Observer σ α) : Action σ (Solution α ⊕ Ending α) :=
  u.solveOr observer (u.solveNewton observer)

end Unknown

end Reckoner
