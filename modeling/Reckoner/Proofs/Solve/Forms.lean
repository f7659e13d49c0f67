import Reckoner.Proofs.Failure
import Reckoner.Proofs.Solve.Exact

/-!
# Operators on linear forms

In the exact arithmetic of a field an operator on linear forms gives the form of the values that the
operator gives, wherever the unknown is. An operator that has a value there but no form is a product
of two forms with the unknown, or a quotient by one.
-/

namespace Reckoner

open ExactField

variable {K : Type} [Field K] [Numeric K] [ExactField K]

namespace LinearForm

variable {f g form : LinearForm K} {v : K}

theorem valueAt_ofConstant (value : K) : (ofConstant value).valueAt v = value := by
  rw [ofConstant, valueAt, number_zero, zero_mul, zero_add]

theorem valueAt_unknown : (unknown : LinearForm K).valueAt v = v := by
  rw [unknown, valueAt, number_one, number_zero, one_mul, add_zero]

theorem valueAt_negate : f.negate.valueAt v = Arithmetic.negate (f.valueAt v) := by
  simp only [negate, valueAt, negate_eq]
  ring

theorem value_eq (f : LinearForm K) (x : K) : f.value x = .ok (f.valueAt x) := by
  rw [value, mul_eq, bind_ok, add_eq, valueAt]

/-- A form without the unknown has its constant everywhere. -/
theorem valueAt_of_isZero (h : Numeric.isZero f.factor = true) : f.valueAt v = f.constant := by
  rw [valueAt, (isZero_iff _).mp h, zero_mul, zero_add]

theorem operate_valueAt_of_multiply (h : multiply f g = .ok form) :
    Arithmetic.operate .multiply (f.valueAt v) (g.valueAt v) = .ok (form.valueAt v) := by
  unfold multiply at h
  split at h
  case isTrue => cases h
  case isFalse hone =>
  simp only [operate_multiply, bind_ok] at h ⊢
  split at h
  case isTrue hzero =>
      cases h
      rw [valueAt_of_isZero hzero]
      simp only [valueAt]
      congr 1
      ring
  case isFalse hnot =>
      -- the left factor is not zero, so the right one is
      cases h
      have hzero : Numeric.isZero g.factor = true := by simpa [hnot] using hone
      rw [valueAt_of_isZero hzero]
      simp only [valueAt]
      congr 1
      ring

theorem operate_valueAt_of_divide (hdivisor : g.valueAt v ≠ 0) (h : divide f g = .ok form) :
    Arithmetic.operate .divide (f.valueAt v) (g.valueAt v) = .ok (form.valueAt v) := by
  unfold divide at h
  split at h
  case isTrue => cases h
  case isFalse hnot =>
  have hzero : Numeric.isZero g.factor = true := by simpa using hnot
  rw [valueAt_of_isZero hzero] at hdivisor ⊢
  simp only [operate_divide _ hdivisor, bind_ok] at h ⊢
  cases h
  simp only [valueAt]
  congr 1
  ring

/-- The operator has the value of the combined form, unless it divides by zero. -/
theorem evaluate_valueAt_of_combine {op : String} (hdivisor : op = "/" → g.valueAt v ≠ 0)
    (h : combine op f g = .ok form) :
    Operator.evaluate op (f.valueAt v) (g.valueAt v) = .ok (form.valueAt v) := by
  unfold combine at h
  rw [Operator.evaluate]
  cases hop : Operator.ofSymbol? op with
  | none => rw [hop] at h; cases h
  | some known =>
      have hsymbol : known.symbol = op := by
        simpa using List.find?_some hop
      rw [hop] at h
      cases known with
      | add =>
          obtain ⟨factor, hfactor, h⟩ := exists_of_bind_eq_ok h
          simp only [operate_add, bind_ok] at h hfactor ⊢
          cases hfactor
          cases h
          simp only [valueAt]
          congr 1
          ring
      | subtract =>
          obtain ⟨factor, hfactor, h⟩ := exists_of_bind_eq_ok h
          simp only [operate_subtract, bind_ok] at h hfactor ⊢
          cases hfactor
          cases h
          simp only [valueAt]
          congr 1
          ring
      | multiply => exact operate_valueAt_of_multiply h
      | divide => exact operate_valueAt_of_divide (hdivisor hsymbol.symm) h
      | power => cases h

/-- The form of a difference. -/
theorem combine_subtract (f g : LinearForm K) :
    combine "-" f g = .ok ⟨f.factor - g.factor, f.constant - g.constant⟩ := by
  have hcombine : combine "-" f g = (do
      let factor ← Arithmetic.operate .subtract f.factor g.factor
      return ⟨factor, ← Arithmetic.operate .subtract f.constant g.constant⟩) := rfl
  rw [hcombine, operate_subtract, operate_subtract]
  rfl

/-- Where an operator other than the power has a value, its form is refused for nothing but the
places where the unknown occurs. -/
theorem failsOnly_combine_of_evaluate {op : String} {y : K}
    (hzero : ∀ x : K, ∃ cause, Arithmetic.operate .divide x 0 = .error cause) (hpower : op ≠ "^")
    (h : Operator.evaluate op (f.valueAt v) (g.valueAt v) = .ok y) :
    FailsOnly (fun cause => ∃ why, cause = .nonlinear why) (combine op f g) := by
  unfold combine
  rw [Operator.evaluate] at h
  cases hop : Operator.ofSymbol? op with
  | none => rw [hop] at h; cases h
  | some known =>
      have hsymbol : known.symbol = op := by
        simpa using List.find?_some hop
      rw [hop] at h
      cases known with
      | power => exact absurd hsymbol.symm hpower
      | add =>
          change FailsOnly _ (do
            let factor ← Arithmetic.operate .add f.factor g.factor
            return (⟨factor, ← Arithmetic.operate .add f.constant g.constant⟩ : LinearForm K))
          rw [operate_add, operate_add]
          exact failsOnly_ok _
      | subtract =>
          change FailsOnly _ (combine "-" f g)
          rw [combine_subtract]
          exact failsOnly_ok _
      | multiply =>
          change FailsOnly _ (multiply f g)
          unfold multiply
          split
          case isTrue => exact failsOnly_error ⟨_, rfl⟩
          case isFalse =>
              simp only [operate_multiply]
              split <;> exact failsOnly_ok _
      | divide =>
          change FailsOnly _ (divide f g)
          unfold divide
          split
          case isTrue => exact failsOnly_error ⟨_, rfl⟩
          case isFalse hnot =>
              have hdivisor : g.valueAt v = g.constant :=
                valueAt_of_isZero (by simpa using hnot)
              have hne : g.constant ≠ 0 := by
                intro heq
                obtain ⟨cause, hcause⟩ := hzero (f.valueAt v)
                rw [hdivisor, heq] at h
                cases h.symm.trans hcause
              rw [operate_divide _ hne, operate_divide _ hne]
              exact failsOnly_ok _

end LinearForm

end Reckoner
