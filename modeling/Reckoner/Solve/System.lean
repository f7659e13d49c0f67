import Reckoner.Action
import Reckoner.Solve.Elimination

/-!
# Newton's iteration for several unknowns

Every step solves a system of linear equations for the correction of the estimates. Its matrix
holds the slopes of the residuals, each the quotient of a difference over a small interval. With
more equations than unknowns the correction is the one of least squares, through the normal
equations.
-/

namespace Reckoner

/-- One step of the iteration: the estimates it leads to, and the residuals it starts from. -/
structure SystemStep (ρ : Type) where
  iteration : Nat
  next : List ρ
  residuals : List ρ
  norm : ρ

/-- How the iteration ends. -/
inductive SystemEnding (ρ : Type) where
  /-- The residuals at the estimates are small enough. -/
  | converged (x : List ρ) (iterations : Nat) (norm : ρ)
  /-- A residual is infinite or not a number. -/
  | notFinite (iteration : Nat)
  /-- No further step is allowed; no norm is known if none was ever taken. -/
  | exhausted (norm : Option ρ)

/-- Functions to find a common zero of. -/
structure NewtonSystem (σ ρ : Type) where
  /-- The residuals at estimates. -/
  residuals : List ρ → Action σ (List ρ)
  /-- Takes notice of a step. -/
  note : SystemStep ρ → Action σ Unit
  /-- There are more residuals than unknowns. -/
  overdetermined : Bool
  /-- Residuals of a smaller norm are good enough. -/
  tolerance : ρ

namespace NewtonSystem

variable {σ ρ : Type} [Line ρ]

/-- The interval of the difference quotients, relative to the size of the estimate. -/
def relativeStep : Float := 1e-6

/-- The slopes of all residuals in the direction of the unknown at an index. -/
def slopes (f : List ρ → Action σ (List ρ)) (x : List ρ) (index : Nat) (entry : ρ) :
    Action σ (List ρ) := do
  let h := Line.ofFloat relativeStep * Line.greater (Line.ofFloat 1.0) (Line.abs entry)
  let above ← f (x.set index (entry + h))
  let below ← f (x.set index (entry - h))
  return List.zipWith (fun a b => (a - b) / (Line.ofFloat 2.0 * h)) above below

/-- The slopes in the directions of all unknowns from an index on. -/
def slopesFrom (f : List ρ → Action σ (List ρ)) (x : List ρ) :
    (index : Nat) → List ρ → Action σ (List (List ρ))
  | _, [] => return []
  | index, entry :: rest => do
    let column ← slopes f x index entry
    let columns ← slopesFrom f x (index + 1) rest
    return column :: columns

/-- The rows of a matrix that is given by its columns. -/
def rows (columns : List (List ρ)) (count : Nat) : List (List ρ) :=
  (List.range count).map fun i => columns.map fun column => column.getD i Line.zero

/-- The correction of the estimates, unless the matrix is singular. -/
def correction (n : NewtonSystem σ ρ) (columns : List (List ρ)) (residuals : List ρ) :
    Option (List ρ) :=
  if n.overdetermined then
    Elimination.solve (columns.map fun a => columns.map fun b => Line.dot a b)
      (columns.map fun a => -Line.dot a residuals)
  else Elimination.solve (rows columns residuals.length) (residuals.map fun r => -r)

/-- The iteration from estimates on, with so many steps left after so many steps. -/
def iterate (n : NewtonSystem σ ρ) : (left done : Nat) → List ρ → Action σ (SystemEnding ρ)
  | left, done, x => do
    let residuals ← n.residuals x
    if !residuals.all Line.isFinite then return .notFinite done
    let norm := Line.norm residuals
    if Line.less norm n.tolerance then return .converged x done norm
    match left with
    | 0 => return .exhausted (some norm)
    | left + 1 => do
      let columns ← slopesFrom n.residuals x 0 x
      match n.correction columns residuals with
      | none => Action.fail .singularJacobian
      | some step => do
        let next := List.zipWith (· + ·) x step
        n.note ⟨done + 1, next, residuals, norm⟩
        iterate n left (done + 1) next

/-- The iteration from first estimates; without a single step allowed, not even the residuals are
looked at if the number of steps is negative. -/
def run (n : NewtonSystem σ ρ) (steps : Int) (start : List ρ) : Action σ (SystemEnding ρ) :=
  if steps < 0 then return .exhausted none else n.iterate steps.toNat 0 start

end NewtonSystem

end Reckoner
