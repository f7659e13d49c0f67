import Reckoner.Proofs.Outcome
import Reckoner.Solve.Newton
import Reckoner.Solve.System

/-!
# Where an iteration converges

An iteration reports the residual of the estimate that it ends at: the estimate and the residual
are never out of step, at either of the two exits of the iteration for one unknown and at the one
for several unknowns.
-/

namespace Reckoner

open Reckoner.Action

theorem ok_of_returns_ofCause {σ β : Type} {outcome : Except Cause β} {v : β}
    (h : Returns (ofCause outcome : Action σ β) v) : outcome = .ok v :=
  mapError_eq_ok (ok_of_returns h)

theorem ok_of_returns_ofFault {σ β : Type} {outcome : Except Fault β} {v : β}
    (h : Returns (ofFault outcome : Action σ β) v) : outcome = .ok v :=
  mapError_eq_ok (ok_of_returns h)

namespace Newton

variable {σ α : Type} [Numeric α] {n : Newton σ α} {f : α → Except Error α}

/-- The residual is that of the estimate, and an estimate without a further step is the one that the
iteration starts from. From a finite one on, all that is reported is finite. -/
structure Converges (f : α → Except Error α) (done : Nat) (x y : α) (steps : Nat) (residual : α) :
    Prop where
  measured : ∃ v, f y = .ok v ∧ Numeric.isFinite v = .ok true ∧ Numeric.abs v = .ok residual
  finite : Numeric.isFinite x = .ok true → Numeric.isFinite y = .ok true
  further : done ≤ steps
  start : steps = done → y = x

theorem Converges.later {done steps : Nat} {x next y residual : α}
    (hnext : Numeric.isFinite next = .ok true)
    (h : Converges f (done + 1) next y steps residual) : Converges f done x y steps residual where
  measured := h.measured
  finite _ := h.finite hnext
  further := Nat.le_of_succ_le h.further
  start hsteps := absurd h.further (by omega)

theorem isFinite_of_checked {x : α} {answer : Bool}
    (h : Returns (ofFault (Numeric.isFinite x) : Action σ Bool) answer)
    (hpassed : ¬(!answer) = true) : Numeric.isFinite x = .ok true := by
  rw [ok_of_returns_ofFault h]
  simpa using hpassed

theorem converges_iterate (hvalue : ∀ x, n.value x = Action.ofExcept (f x))
    {left done evaluations : Nat} {x y residual : α} {steps : Nat}
    (h : Returns (n.iterate left done evaluations x) (.converged y steps residual)) :
    Converges f done x y steps residual := by
  induction left using Nat.strongRecOn generalizing done evaluations x with
  | ind left ih =>
      rw [iterate] at h
      obtain ⟨v, hv, h⟩ := exists_of_returns_bind h
      rw [hvalue] at hv
      obtain ⟨_, hchecked, h⟩ := exists_of_returns_bind h
      split at h
      case isTrue => cases eq_of_returns h
      case isFalse hpassed =>
      obtain ⟨size, hsize, h⟩ := exists_of_returns_bind h
      split at h
      case isTrue =>
          -- the residual is small enough here
          cases eq_of_returns h
          exact ⟨⟨v, ok_of_returns hv, isFinite_of_checked hchecked hpassed,
            ok_of_returns_ofFault hsize⟩, id, Nat.le_refl _, fun _ => rfl⟩
      case isFalse =>
      cases left with
      | zero => cases eq_of_returns h
      | succ left =>
      obtain ⟨_, -, h⟩ := exists_of_returns_bind h
      split at h
      case isTrue => cases eq_of_returns h
      case isFalse =>
      obtain ⟨slope, -, h⟩ := exists_of_returns_bind h
      split at h
      case isTrue => cases eq_of_returns h
      case isFalse =>
      obtain ⟨_, -, h⟩ := exists_of_returns_bind h
      split at h
      case isTrue => cases eq_of_returns h
      case isFalse =>
      obtain ⟨step, -, h⟩ := exists_of_returns_bind h
      obtain ⟨next, -, h⟩ := exists_of_returns_bind h
      obtain ⟨_, -, h⟩ := exists_of_returns_bind h
      obtain ⟨_, hchecked, h⟩ := exists_of_returns_bind h
      split at h
      case isTrue => cases eq_of_returns h
      case isFalse hpassed =>
      have hnext := isFinite_of_checked hchecked hpassed
      obtain ⟨_, -, h⟩ := exists_of_returns_bind h
      split at h
      case isFalse => exact (ih left (Nat.lt_succ_self left) h).later hnext
      case isTrue =>
      obtain ⟨last, hlast, h⟩ := exists_of_returns_bind h
      rw [hvalue] at hlast
      obtain ⟨_, hfinite, h⟩ := exists_of_returns_bind h
      split at h
      case isFalse => exact (ih left (Nat.lt_succ_self left) h).later hnext
      case isTrue hpassed =>
      subst hpassed
      -- the step was small enough, and the residual is taken once more behind it
      obtain ⟨size, hsize, h⟩ := exists_of_returns_bind h
      cases eq_of_returns h
      exact ⟨⟨last, ok_of_returns hlast, ok_of_returns_ofFault hfinite,
        ok_of_returns_ofFault hsize⟩, fun _ => hnext, Nat.le_succ done,
        fun hsteps => absurd hsteps (Nat.succ_ne_self done)⟩

/-- The iteration for one unknown reports the size of the residual at the estimate that it ends
at, which is the first one if no step has been made. -/
theorem converges_run (hvalue : ∀ x, n.value x = Action.ofExcept (f x)) {x y residual : α}
    {steps : Nat} (h : Returns (n.run x) (.converged y steps residual)) :
    Converges f 0 x y steps residual :=
  converges_iterate hvalue h

end Newton

namespace Elimination

variable {ρ : Type} [Line ρ]

theorem length_solveRows {scale : ρ} {columns : Nat} {rows : List (EquationRow ρ)}
    {values : List ρ} (h : solveRows scale columns rows = some values) :
    values.length = columns := by
  induction columns generalizing rows values with
  | zero => cases h; rfl
  | succ columns ih =>
      rw [solveRows] at h
      split at h
      case h_1 => cases h
      case h_2 =>
          split at h
          case isTrue => cases h
          case isFalse =>
              obtain ⟨behind, hbehind, rfl⟩ := Option.map_eq_some_iff.mp h
              rw [List.length_cons, ih hbehind]

theorem length_solve {matrix : List (List ρ)} {rhs values : List ρ}
    (h : solve matrix rhs = some values) : values.length = rhs.length := length_solveRows h

end Elimination

namespace NewtonSystem

variable {σ ρ : Type} [Line ρ] {n : NewtonSystem σ ρ} {f : List ρ → Except Error (List ρ)}

theorem length_slopesFrom {g : List ρ → Action σ (List ρ)} {x : List ρ} {index : Nat}
    {entries : List ρ} {columns : List (List ρ)}
    (h : Returns (slopesFrom g x index entries) columns) : columns.length = entries.length := by
  induction entries generalizing index columns with
  | nil => cases eq_of_returns h; rfl
  | cons entry entries ih =>
      rw [slopesFrom] at h
      obtain ⟨column, -, h⟩ := exists_of_returns_bind h
      obtain ⟨others, hothers, h⟩ := exists_of_returns_bind h
      cases eq_of_returns h
      rw [List.length_cons, List.length_cons, ih hothers]

/-- A correction has one entry for each unknown. -/
theorem length_correction {columns : List (List ρ)} {residuals step : List ρ}
    (h : n.correction columns residuals = some step)
    (hsquare : n.overdetermined = false → residuals.length = columns.length) :
    step.length = columns.length := by
  unfold correction at h
  split at h
  case isTrue => rw [Elimination.length_solve h, List.length_map]
  case isFalse hnot =>
      rw [Elimination.length_solve h, List.length_map, hsquare (by simpa using hnot)]

/-- The norm is that of the residuals at the estimates, of which there is one for each unknown; it
is below the tolerance, and no more steps have been made than allowed. -/
structure Converges (n : NewtonSystem σ ρ) (f : List ρ → Except Error (List ρ)) (most : Nat)
    (x y : List ρ) (steps : Nat) (norm : ρ) : Prop where
  measured : ∃ residuals, f y = .ok residuals ∧ Line.norm residuals = norm
  small : Line.less norm n.tolerance = true
  bounded : steps ≤ most
  length : y.length = x.length

theorem converges_iterate (hresiduals : ∀ x, n.residuals x = Action.ofExcept (f x)) {count : Nat}
    (hcount : ∀ {x residuals}, f x = .ok residuals → residuals.length = count)
    {left done : Nat} {x y : List ρ} {steps : Nat} {norm : ρ}
    (hsquare : n.overdetermined = false → count = x.length)
    (h : Returns (n.iterate left done x) (.converged y steps norm)) :
    Converges n f (done + left) x y steps norm := by
  induction left using Nat.strongRecOn generalizing done x with
  | ind left ih =>
      rw [iterate] at h
      obtain ⟨residuals, hfound, h⟩ := exists_of_returns_bind h
      rw [hresiduals] at hfound
      have hfx := ok_of_returns hfound
      split at h
      case isTrue => cases eq_of_returns h
      case isFalse =>
      dsimp only at h
      split at h
      case isTrue hsmall =>
          cases eq_of_returns h
          exact ⟨⟨residuals, hfx, rfl⟩, hsmall, Nat.le_add_right _ _, rfl⟩
      case isFalse =>
      cases left with
      | zero => cases eq_of_returns h
      | succ left =>
      obtain ⟨columns, hcolumns, h⟩ := exists_of_returns_bind h
      split at h
      case h_1 => exact absurd h not_returns_fail
      case h_2 step hstep =>
      obtain ⟨_, -, h⟩ := exists_of_returns_bind h
      have hwidth := length_slopesFrom hcolumns
      have hlength : (List.zipWith (· + ·) x step).length = x.length := by
        rw [List.length_zipWith, length_correction hstep fun hnot => ?_, hwidth, Nat.min_self]
        rw [hcount hfx, hsquare hnot, hwidth]
      have hnext := ih left (Nat.lt_succ_self left) (by rwa [hlength]) h
      exact ⟨hnext.measured, hnext.small, by have := hnext.bounded; omega,
        hnext.length.trans hlength⟩

/-- The iteration for several unknowns reports the norm of the residuals at the estimates that it
ends at. -/
theorem converges_run (hresiduals : ∀ x, n.residuals x = Action.ofExcept (f x)) {count : Nat}
    (hcount : ∀ {x residuals}, f x = .ok residuals → residuals.length = count) {most : Int}
    {x y : List ρ} {steps : Nat} {norm : ρ} (hsquare : n.overdetermined = false → count = x.length)
    (h : Returns (n.run most x) (.converged y steps norm)) :
    0 ≤ most ∧ Converges n f most.toNat x y steps norm := by
  unfold run at h
  split at h
  case isTrue => cases eq_of_returns h
  case isFalse hmost =>
      refine ⟨Int.not_lt.mp hmost, ?_⟩
      rw [← Nat.zero_add most.toNat]
      exact converges_iterate hresiduals hcount hsquare h

end NewtonSystem

end Reckoner
