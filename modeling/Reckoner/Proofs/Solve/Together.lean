import Reckoner.Proofs.Solve.Iteration

/-!
# The course of Newton's iteration for several unknowns

For residuals that are functions, the iteration is a row of steps, each taken notice of, and then one
outcome. Each step corrects the estimates that the one before has led to, from the residuals there,
and what the iteration answers with are the estimates that the last step has led to.
-/

namespace Reckoner

open Reckoner.Action

namespace NewtonSystem

variable {σ ρ : Type} [Line ρ] {n : NewtonSystem σ ρ} {f : List ρ → Except Error (List ρ)}
  {first x : List ρ} {past : List (SystemStep ρ)}

/-! ## Slopes -/

theorem exists_slopes (f : List ρ → Except Error (List ρ)) (x : List ρ) (index : Nat) (entry : ρ) :
    ∃ outcome, slopes (fun y => (Action.ofExcept (f y) : Action σ (List ρ))) x index entry =
      Action.ofExcept outcome := by
  unfold slopes
  dsimp only
  cases f (x.set index (entry + _)) with
  | error err => exact ⟨.error err, rfl⟩
  | ok above =>
      cases f (x.set index (entry - _)) with
      | error err => exact ⟨.error err, rfl⟩
      | ok below => exact ⟨.ok _, rfl⟩

/-- The slopes of functions are an outcome; nothing is taken notice of on the way. -/
theorem exists_slopesFrom (f : List ρ → Except Error (List ρ)) (x : List ρ) (index : Nat)
    (entries : List ρ) :
    ∃ outcome, slopesFrom (fun y => (Action.ofExcept (f y) : Action σ (List ρ))) x index entries =
        Action.ofExcept outcome ∧
      ∀ columns, outcome = .ok columns → columns.length = entries.length := by
  induction entries generalizing index with
  | nil => exact ⟨.ok [], rfl, fun _ h => by cases h; rfl⟩
  | cons entry entries ih =>
      obtain ⟨column, hcolumn⟩ := exists_slopes (σ := σ) f x index entry
      obtain ⟨columns, hcolumns, hlength⟩ := ih (index + 1)
      rw [slopesFrom, hcolumn]
      cases column with
      | error err => exact ⟨.error err, rfl, fun _ h => by cases h⟩
      | ok column =>
          rw [ofExcept_ok_bind, hcolumns]
          cases columns with
          | error err => exact ⟨.error err, rfl, fun _ h => by cases h⟩
          | ok columns =>
              refine ⟨.ok (column :: columns), rfl, fun _ h => ?_⟩
              cases h
              rw [List.length_cons, List.length_cons, hlength columns rfl]

/-! ## Steps -/

/-- After some steps, which have led to estimates, a further one is made. -/
structure Advances (n : NewtonSystem σ ρ) (f : List ρ → Except Error (List ρ))
    (steps : List (SystemStep ρ)) (x : List ρ) (s : SystemStep ρ) : Prop where
  iteration : s.iteration = steps.length + 1
  residuals : f x = .ok s.residuals
  norm : s.norm = Line.norm s.residuals
  large : Line.less s.norm n.tolerance = false
  next : ∃ columns step, columns.length = x.length ∧ n.correction columns s.residuals = some step ∧
    s.next = List.zipWith (· + ·) x step

/-- The steps lead from the first estimates to others. -/
inductive Path (n : NewtonSystem σ ρ) (f : List ρ → Except Error (List ρ)) (first : List ρ) :
    List (SystemStep ρ) → List ρ → Prop
  | start : Path n f first [] first
  | step {steps : List (SystemStep ρ)} {x : List ρ} {s : SystemStep ρ}
      (path : Path n f first steps x) (advances : Advances n f steps x s) :
      Path n f first (steps ++ [s]) s.next

/-- The steps keep one estimate for each unknown. -/
theorem Path.length_eq {steps : List (SystemStep ρ)}
    (hsquare : n.overdetermined = false → ∀ {x residuals}, f x = .ok residuals →
      residuals.length = first.length)
    (h : Path n f first steps x) : x.length = first.length := by
  induction h with
  | start => rfl
  | @step steps x s _ hadvances ih =>
      obtain ⟨columns, step, hwidth, hcorrection, hnext⟩ := hadvances.next
      have hlength := length_correction hcorrection fun hnot => by
        rw [hsquare hnot hadvances.residuals, hwidth, ih]
      rw [hnext, List.length_zipWith, hlength, hwidth, Nat.min_self, ih]

/-- If the iteration converges after so many steps, then to these estimates. -/
def Arrives (x : List ρ) (steps : Nat) (outcome : Except Error (SystemEnding ρ)) : Prop :=
  ∀ y count norm, outcome = .ok (.converged y count norm) → y = x ∧ count = steps

/-- After some steps the computation makes further ones, each of which it takes notice of, and comes
to an end where they have led to. -/
def Ends (n : NewtonSystem σ ρ) (f : List ρ → Except Error (List ρ)) (first : List ρ)
    (past : List (SystemStep ρ)) (a : Action σ (SystemEnding ρ)) : Prop :=
  ∃ steps x outcome, a = (do forM steps n.note; Action.ofExcept outcome) ∧
    Path n f first (past ++ steps) x ∧ Arrives x (past ++ steps).length outcome

theorem ends_ofExcept {outcome : Except Error (SystemEnding ρ)} (hpath : Path n f first past x)
    (h : Arrives x past.length outcome) : Ends n f first past (Action.ofExcept outcome) :=
  ⟨[], x, outcome, rfl, by rwa [List.append_nil], by rwa [List.append_nil]⟩

theorem ends_error {err : Error} (hpath : Path n f first past x) :
    Ends n f first past (Action.ofExcept (.error err)) :=
  ends_ofExcept hpath fun _ _ _ h => by cases h

theorem Ends.noted {s : SystemStep ρ} {a : Action σ (SystemEnding ρ)}
    (h : Ends n f first (past ++ [s]) a) : Ends n f first past (do n.note s; a) := by
  obtain ⟨steps, x, outcome, rfl, hpath, harrives⟩ := h
  rw [List.append_assoc, List.singleton_append] at hpath harrives
  exact ⟨s :: steps, x, outcome, by rw [List.forM_cons, bind_assoc], hpath, harrives⟩

/-- What goes on behind an outcome comes to an end if it does so behind every answer. -/
theorem ends_bind {β : Type} {outcome : Except Error β} {g : β → Action σ (SystemEnding ρ)}
    (hpath : Path n f first past x) (hok : ∀ v, outcome = .ok v → Ends n f first past (g v)) :
    Ends n f first past (Action.ofExcept outcome >>= g) := by
  cases outcome with
  | error err => exact ends_error hpath
  | ok v => exact hok v rfl

/-! ## Rounds -/

/-- Every round keeps the row of the steps. -/
theorem ends_iterate (hresiduals : n.residuals = fun x => Action.ofExcept (f x)) {left : Nat}
    (hpath : Path n f first past x) : Ends n f first past (n.iterate left past.length x) := by
  induction left using Nat.strongRecOn generalizing past x with
  | ind left ih =>
  rw [iterate, hresiduals]
  refine ends_bind hpath fun residuals hfx => ?_
  split
  case isTrue => exact ends_ofExcept hpath fun _ _ _ h => by cases h
  case isFalse =>
  dsimp only
  split
  case isTrue => exact ends_ofExcept hpath fun _ _ _ h => by cases h; exact ⟨rfl, rfl⟩
  case isFalse hlarge =>
  cases left with
  | zero => exact ends_ofExcept hpath fun _ _ _ h => by cases h
  | succ left =>
  obtain ⟨outcome, hslopes, hlength⟩ := exists_slopesFrom (σ := σ) f x 0 x
  dsimp only
  rw [hslopes]
  refine ends_bind hpath fun columns hcolumns => ?_
  cases hstep : n.correction columns residuals with
  | none => exact ends_error hpath
  | some step =>
      have hadvances : Advances n f past x
          ⟨past.length + 1, List.zipWith (· + ·) x step, residuals, Line.norm residuals⟩ :=
        ⟨rfl, hfx, rfl, Bool.eq_false_iff.mpr hlarge, columns, step, hlength columns hcolumns,
          hstep, rfl⟩
      have hrest := ih left (Nat.lt_succ_self left) (hpath.step hadvances)
      rw [List.length_append, List.length_singleton] at hrest
      exact hrest.noted

/-- The iteration takes notice of one step after the other, and comes to an end where they have led
to. -/
theorem exists_course (hresiduals : n.residuals = fun x => Action.ofExcept (f x)) (most : Int)
    (first : List ρ) :
    ∃ steps x outcome, n.run most first = (do forM steps n.note; Action.ofExcept outcome) ∧
      Path n f first steps x ∧ Arrives x steps.length outcome := by
  unfold run
  split
  case isTrue => exact ends_ofExcept .start fun _ _ _ h => by cases h
  case isFalse => exact ends_iterate hresiduals (.start : Path n f first [] first)

end NewtonSystem

end Reckoner
