import Reckoner.Proofs.Program.Agreement
import Reckoner.Proofs.Scalar.Settled
import Reckoner.Proofs.Solve.Iteration
import Reckoner.Solve.Equations
import Reckoner.Solve.Opening

/-!
# What solving answers

The ways to a solution, each with what it says of the unknowns: the linear form and the two exits of
the iteration for one unknown, an expression that already solves the equation, and the iteration for
several unknowns. In each of them the residual that is reported belongs to the values that are
reported.
-/

namespace Reckoner

open Reckoner.Action

namespace Unknown

section Numeric

variable {σ α β : Type} [Numeric α] {u : Unknown α} {observer : Observer σ α}

theorem function_eq {p : Program α} (h : Program.ofExpr u.codegen u.residual = .ok p) (x : α) :
    u.function p x = u.residual.evaluate (u.bind x) := Program.run_of_ofExpr h _

/-- The solution of a linear form is its root, and reports the size of the value there. -/
theorem exists_of_returns_solveLinear {f : α → Except Error α} {s : Solution α}
    (h : Returns (u.solveLinear observer f) s) :
    ∃ form x v size, u.residual.collect (u.bindings.without [u.name]) u.name = .ok form ∧
      Numeric.isZero form.factor = false ∧ form.root = .ok x ∧ f x = .ok v ∧
      Numeric.abs v = .ok size ∧ s = ⟨[(u.name, x)], .linear, 0, size, none⟩ := by
  unfold solveLinear at h
  obtain ⟨form, hform, h⟩ := exists_of_returns_bind h
  obtain ⟨_, -, h⟩ := exists_of_returns_bind h
  obtain ⟨_, -, h⟩ := exists_of_returns_bind h
  obtain ⟨_, -, h⟩ := exists_of_returns_bind h
  split at h
  case isTrue => exact absurd h not_returns_fail
  case isFalse =>
  obtain ⟨_, -, h⟩ := exists_of_returns_bind h
  split at h
  case isTrue =>
      obtain ⟨_, -, h⟩ := exists_of_returns_bind h
      split at h <;> exact absurd h not_returns_fail
  case isFalse hfactor =>
  obtain ⟨x, hx, h⟩ := exists_of_returns_bind h
  obtain ⟨_, -, h⟩ := exists_of_returns_bind h
  obtain ⟨v, hv, h⟩ := exists_of_returns_bind h
  obtain ⟨size, hsize, h⟩ := exists_of_returns_bind h
  exact ⟨form, x, v, size, ok_of_returns hform, Bool.eq_false_iff.mpr hfactor,
    ok_of_returns_ofCause hx, ok_of_returns hv, ok_of_returns_ofFault hsize,
    (eq_of_returns h).symm⟩

/-- The residual has a program, and the answer is that of the linear form or of the other way. -/
theorem exists_of_returns_solveOr {other : Program α → Action σ β} {answer : Solution α ⊕ β}
    (h : Returns (u.solveOr observer other) answer) :
    ∃ p, Program.ofExpr u.codegen u.residual = .ok p ∧
      ((∃ s, answer = .inl s ∧ Returns (u.solveLinear observer (u.function p)) s) ∨
        ∃ b, answer = .inr b ∧ Returns (other p) b) := by
  unfold solveOr at h
  obtain ⟨p, hp, h⟩ := exists_of_returns_bind h
  refine ⟨p, ok_of_returns hp, ?_⟩
  rcases returns_of_tryCatch h with h | ⟨err, h⟩
  · obtain ⟨s, hs, rfl⟩ := exists_of_returns_map h
    exact .inl ⟨s, rfl, hs⟩
  · split at h
    case h_1 =>
        obtain ⟨_, -, h⟩ := exists_of_returns_bind h
        obtain ⟨b, hb, rfl⟩ := exists_of_returns_map h
        exact .inr ⟨b, rfl, hb⟩
    case h_2 =>
        obtain ⟨_, h⟩ := h
        cases h

theorem exists_of_returns_solveNewton {p : Program α} {y residual : α} {steps : Nat}
    (h : Returns (u.solveNewton observer p) (.converged y steps residual)) :
    ∃ start, u.start = .ok start ∧ Newton.Converges (u.function p) 0 start y steps residual := by
  unfold solveNewton at h
  obtain ⟨_, -, h⟩ := exists_of_returns_bind h
  obtain ⟨start, hstart, h⟩ := exists_of_returns_bind h
  exact ⟨start, ok_of_returns_ofCause hstart, Newton.converges_run (fun _ => rfl) h⟩

end Numeric

/-- An expression is a solution with the size of the residual that the unknown has there. -/
theorem exists_of_returns_solveOpened {σ : Type} {u : Unknown Scalar} {start : Datum}
    {p : Program Scalar} {s : Solution Datum}
    (h : Returns (u.solveOpened start p : Action σ (Solution Datum)) s) :
    ∃ v size, p.run ((u.bindings.without [u.name]).insert u.name start.toBinding) = .ok v ∧
      v.abs = .ok size ∧ s = ⟨[(u.name, start)], .newton, 0, .number size, none⟩ := by
  unfold solveOpened at h
  obtain ⟨_, -, h⟩ := exists_of_returns_bind h
  obtain ⟨v, hv, h⟩ := exists_of_returns_bind h
  obtain ⟨_, -, h⟩ := exists_of_returns_bind h
  obtain ⟨_, -, h⟩ := exists_of_returns_bind h
  split at h
  case isTrue => exact absurd h not_returns_fail
  case isFalse =>
  obtain ⟨size, hsize, h⟩ := exists_of_returns_bind h
  split at h
  case isTrue =>
      exact ⟨v, size, ok_of_returns hv, ok_of_returns_ofFault hsize, (eq_of_returns h).symm⟩
  case isFalse =>
  split at h
  case isTrue => exact absurd h not_returns_fail
  case isFalse =>
  obtain ⟨_, -, h⟩ := exists_of_returns_bind h
  split at h
  case isTrue => exact absurd h not_returns_fail
  case isFalse =>
  obtain ⟨_, -, h⟩ := exists_of_returns_bind h
  exact absurd h not_returns_fail

end Unknown

namespace Unknowns

variable {u : Unknowns Scalar} {programs : List (Program Scalar)}

theorem eq_map_real {values : List Scalar} {xs : List Float}
    (hsettled : ∀ value ∈ values, value.IsSettled)
    (h : values.mapM Scalar.realPart?.real? = some xs) : values = xs.map .real := by
  induction values generalizing xs with
  | nil => cases h; rfl
  | cons value values ih =>
      obtain ⟨hvalue, hvalues⟩ := List.forall_mem_cons.mp hsettled
      rw [List.mapM_cons] at h
      cases value with
      | whole => exact hvalue.elim
      | complex => cases h
      | real x =>
          cases hrest : values.mapM Scalar.realPart?.real? with
          | none => rw [hrest] at h; cases h
          | some others =>
              rw [hrest] at h
              cases h
              rw [List.map_cons, ih hvalues hrest]

theorem forall₂_of_run {codegen : Bool} {residuals : List Expr}
    {bindings : Table (Binding Scalar)} {values : List Scalar}
    (hprograms : residuals.mapM (Program.ofExpr codegen) = .ok programs)
    (hvalues : programs.mapM (fun p => p.run bindings) = .ok values) :
    List.Forall₂ (fun r v => r.evaluate bindings = .ok v) residuals values := by
  induction residuals generalizing programs values with
  | nil => cases hprograms; cases hvalues; exact .nil
  | cons r residuals ih =>
      rw [List.mapM_cons] at hprograms
      obtain ⟨p, hp, hprograms⟩ := exists_of_bind_eq_ok hprograms
      obtain ⟨others, hothers, hprograms⟩ := exists_of_bind_eq_ok hprograms
      cases hprograms
      rw [List.mapM_cons] at hvalues
      obtain ⟨v, hv, hvalues⟩ := exists_of_bind_eq_ok hvalues
      obtain ⟨rest, hrest, hvalues⟩ := exists_of_bind_eq_ok hvalues
      cases hvalues
      exact .cons ((Program.run_of_ofExpr hp bindings).symm.trans hv) (ih hothers hrest)

/-- The residuals of the iteration are the values of the residuals as expressions. -/
theorem forall₂_of_residualsAt
    (hprograms : u.residuals.mapM (Program.ofExpr u.codegen) = .ok programs)
    {x residuals : List Float}
    (h : u.residualsAt Scalar.realPart? programs x = .ok residuals) :
    List.Forall₂ (fun r v => r.evaluate (u.bind Scalar.realPart? x) = .ok v) u.residuals
      (residuals.map .real) := by
  unfold residualsAt at h
  obtain ⟨values, hvalues, h⟩ := exists_of_bind_eq_ok h
  split at h
  case h_2 => cases h
  case h_1 found hfound =>
  cases h
  have hevaluated := forall₂_of_run hprograms hvalues
  rwa [eq_map_real (Expr.isSettled_of_forall₂ hevaluated) hfound] at hevaluated

/-- The iteration for several unknowns reports the norm of the residuals at its estimates. -/
theorem exists_of_returns_solve {σ : Type} {note : SystemStep Float → Action σ Unit}
    {tolerance norm : Float} {most : Int} {start : Except Cause (List Float)} {y : List Float}
    {steps : Nat} (hstart : ∀ {x}, start = .ok x → x.length = u.names.length)
    (henough : u.names.length ≤ u.residuals.length)
    (h : Returns (u.solve Scalar.realPart? note tolerance most start) (.converged y steps norm)) :
    ∃ residuals : List Float, List.Forall₂
        (fun r v => r.evaluate (u.bind Scalar.realPart? y) = .ok v) u.residuals
        (residuals.map .real) ∧
      norm = Line.norm residuals ∧ norm < tolerance ∧ (steps : Int) ≤ most ∧
      y.length = u.names.length := by
  unfold solve at h
  obtain ⟨programs, hprograms, h⟩ := exists_of_returns_bind h
  obtain ⟨x, hx, h⟩ := exists_of_returns_bind h
  have hcompiled := ok_of_returns hprograms
  have hlength := hstart (ok_of_returns_ofCause hx)
  have hcount : ∀ {x residuals}, u.residualsAt Scalar.realPart? programs x = .ok residuals →
      residuals.length = u.residuals.length := by
    intro x residuals hresiduals
    have hpairs := (forall₂_of_residualsAt hcompiled hresiduals).length_eq
    rw [List.length_map] at hpairs
    exact hpairs.symm
  obtain ⟨hmost, hconverges⟩ := NewtonSystem.converges_run (fun _ => rfl) hcount (fun hsquare => by
    have hnot : ¬u.names.length < u.residuals.length := by simpa using hsquare
    omega) h
  obtain ⟨residuals, hresiduals, rfl⟩ := hconverges.measured
  refine ⟨residuals, forall₂_of_residualsAt hcompiled hresiduals, rfl,
    of_decide_eq_true hconverges.small, ?_, hconverges.length.trans hlength⟩
  have hbounded := hconverges.bounded
  omega

end Unknowns

end Reckoner
