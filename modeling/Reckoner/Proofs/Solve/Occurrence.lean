import Reckoner.Proofs.Solve.Errors
import Reckoner.Proofs.Solve.Forms

/-!
# Where the unknown occurs

An expression that has a value somewhere has a linear form or is refused because of a place where
the unknown occurs, and for no other reason: what is collected of it is evaluated there too. The
form has the value of the expression. The induction is on the tree; what the unknown is bound to
does not matter, as long as it has one value there.
-/

namespace Reckoner

open ExactField

namespace Expr

section Search

variable {α : Type} [Arithmetic α] {values : String → Except Error α}

mutual

/-- What has a value is an expression in all its parts, so the search for a variable ends. -/
theorem exists_mentions (name : String) : ∀ (e : Expr) {v : α}, e.outcomeWith values = .ok v →
    ∃ found, e.mentions name = .ok found
  | .number _, _, _ | .imaginary _, _, _ | .constant _, _, _ => ⟨false, rfl⟩
  | .var other, _, _ => ⟨other == name, rfl⟩
  | .negate e, _, h => by
      rw [outcomeWith] at h
      obtain ⟨_, he, -⟩ := exists_of_bind_eq_ok h
      exact exists_mentions name e he
  | .binary _ l r, _, h => by
      rw [outcomeWith] at h
      obtain ⟨_, hl, h⟩ := exists_of_bind_eq_ok h
      obtain ⟨_, hr, -⟩ := exists_of_bind_eq_ok h
      obtain ⟨found, hfound⟩ := exists_mentions name l hl
      rw [mentions, hfound]
      cases found with
      | true => exact ⟨true, rfl⟩
      | false => exact exists_mentions name r hr
  | .call _ args, _, h => by
      rw [outcomeWith] at h
      obtain ⟨_, hargs, -⟩ := exists_of_bind_eq_ok h
      exact exists_mentionsAny name args hargs
  | .blank, _, h | .foreign .., _, h => by cases h

theorem exists_mentionsAny (name : String) : ∀ (es : List Expr) {vs : List α},
    outcomesWith values es = .ok vs → ∃ found, mentionsAny name es = .ok found
  | [], _, _ => ⟨false, rfl⟩
  | e :: rest, _, h => by
      rw [outcomesWith] at h
      obtain ⟨_, he, h⟩ := exists_of_bind_eq_ok h
      obtain ⟨_, hrest, -⟩ := exists_of_bind_eq_ok h
      obtain ⟨found, hfound⟩ := exists_mentions name e he
      rw [mentionsAny, hfound]
      cases found with
      | true => exact ⟨true, rfl⟩
      | false => exact exists_mentionsAny name rest hrest

end

end Search

/-! ## Forms of what has a value -/

section Forms

variable {K : Type} [Field K] [Numeric K] [ExactField K] {values there : String → Except Error K}
  {name : String} {e : Expr} {w y : K}

theorem meets_constantFormWith_of_value (hothers : ∀ other ≠ name, there other = values other)
    (hname : name ∉ e.names) (h : e.outcomeWith there = .ok y) :
    Meets (fun form => form.valueAt w = y) Error.IsNonlinear (e.constantFormWith values) := by
  have hvalue : e.outcomeWith values = .ok y := by
    rw [← h]
    exact outcomeWith_congr e fun other hmem _ =>
      (hothers other fun heq => hname (heq ▸ hmem)).symm
  rw [constantFormWith, hvalue]
  exact LinearForm.valueAt_ofConstant y

theorem meets_soleFormWith_of_value (hothers : ∀ other ≠ name, there other = values other)
    (why : Nonlinearity) (h : e.outcomeWith there = .ok y) :
    Meets (fun form => form.valueAt w = y) Error.IsNonlinear (e.soleFormWith values name why) := by
  obtain ⟨found, hfound⟩ := exists_mentions name e h
  have hmentions := meets_mentions name e
  rw [hfound] at hmentions
  rw [soleFormWith, hfound]
  cases found with
  | true => exact ⟨why, rfl⟩
  | false => exact meets_constantFormWith_of_value hothers (hmentions rfl) h

/-- By induction on the tree, with the value of the unknown there. -/
theorem meets_formWith_of_value
    (hzero : ∀ x : K, ∃ cause, Arithmetic.operate .divide x 0 = .error cause)
    (hothers : ∀ other ≠ name, there other = values other)
    (hunknown : ∀ v, (var name).outcomeWith there = .ok v → v = w) :
    ∀ (e : Expr) {y : K}, e.outcomeWith there = .ok y →
      Meets (fun form => form.valueAt w = y) Error.IsNonlinear (e.formWith values name)
  | .number _, _, h | .imaginary _, _, h | .constant _, _, h =>
      meets_constantFormWith_of_value hothers List.not_mem_nil h
  | .blank, _, h | .foreign .., _, h => by cases h
  | .var other, y, h => by
      rw [formWith]
      split
      case isTrue heq =>
          rw [heq] at h
          rw [hunknown y h]
          exact LinearForm.valueAt_unknown
      case isFalse hne =>
          refine meets_constantFormWith_of_value hothers ?_ h
          rw [names, List.mem_singleton]
          exact fun heq => hne heq.symm
  | .negate e, _, h => by
      rw [outcomeWith] at h
      obtain ⟨v, he, h⟩ := exists_of_bind_eq_ok h
      cases h
      rw [formWith]
      refine (meets_formWith_of_value hzero hothers hunknown e he).map fun form hform => ?_
      rw [LinearForm.valueAt_negate, hform]
  | .binary op l r, _, h => by
      rw [formWith]
      split
      case isTrue => exact meets_soleFormWith_of_value hothers _ h
      case isFalse hpower =>
      rw [outcomeWith] at h
      obtain ⟨a, hl, h⟩ := exists_of_bind_eq_ok h
      obtain ⟨b, hr, h⟩ := exists_of_bind_eq_ok h
      have hop := mapError_eq_ok h
      refine (meets_formWith_of_value hzero hothers hunknown l hl).bind fun f hf => ?_
      refine (meets_formWith_of_value hzero hothers hunknown r hr).bind fun g hg => ?_
      rw [← hf, ← hg] at hop
      have hfails := LinearForm.failsOnly_combine_of_evaluate hzero hpower hop
      refine Meets.mapError (hfails.meets fun form hform => ?_)
      have hdivisor : op = "/" → g.valueAt w ≠ 0 := by
        rintro rfl heq
        obtain ⟨cause, hcause⟩ := hzero (f.valueAt w)
        rw [heq] at hop
        cases hop.symm.trans hcause
      cases hop.symm.trans (LinearForm.evaluate_valueAt_of_combine hdivisor hform)
      rfl
  | .call _ args, _, h => meets_soleFormWith_of_value hothers _ h

end Forms

end Expr

end Reckoner
