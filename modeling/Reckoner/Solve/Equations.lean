import Reckoner.Program.Basic
import Reckoner.Solve.Solution
import Reckoner.Solve.System

/-!
# Systems of equations

Several equations are solved together by Newton's iteration. The residuals are evaluated as
expressions and must be real; `RealPart` says which values are.
-/

namespace Reckoner

/-- Real numbers among the values of expressions. -/
structure RealPart (α ρ : Type) where
  embed : ρ → α
  real? : α → Option ρ

/-- The doubles among the scalars. -/
def Scalar.realPart? : RealPart Scalar Float where
  embed := .real
  real?
    | .real x => some x
    | .whole n => some (Double.ofInt n)
    | .complex _ => none

/-- Equations in several unknowns that are to be solved together. -/
structure Unknowns (α : Type) where
  /-- The differences of the sides. -/
  residuals : List Expr
  names : List String
  /-- What the other variables are bound to. -/
  bindings : Table (Binding α)
  codegen : Bool

namespace Unknowns

variable {σ α ρ : Type} [Arithmetic α] [Line ρ]

/-- The bindings together with values of the unknowns. -/
def bind (u : Unknowns α) (part : RealPart α ρ) (x : List ρ) : Table (Binding α) :=
  (u.bindings.without u.names).insertAll
    (u.names.zip (x.map fun entry => .number (part.embed entry)))

/-- The residuals at values of the unknowns. -/
def residualsAt (u : Unknowns α) (part : RealPart α ρ) (programs : List (Program α))
    (x : List ρ) : Except Error (List ρ) := do
  let values ← programs.mapM fun p => p.run (u.bind part x)
  match values.mapM part.real? with
  | some residuals => return residuals
  | none => throw (.of (.noConvergence .complexSystem))

/-- The end of Newton's iteration. -/
def solve (u : Unknowns α) (part : RealPart α ρ) (note : SystemStep ρ → Action σ Unit)
    (tolerance : ρ) (steps : Int) (start : Except Cause (List ρ)) :
    Action σ (SystemEnding ρ) := do
  let programs ← Action.ofExcept (u.residuals.mapM (Program.ofExpr u.codegen))
  let start ← Action.ofCause start
  let residuals (x : List ρ) : Action σ (List ρ) :=
    Action.ofExcept (u.residualsAt part programs x)
  NewtonSystem.run ⟨residuals, note, u.names.length < u.residuals.length, tolerance⟩ steps start

end Unknowns

end Reckoner
