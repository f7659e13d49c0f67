import Reckoner.Proofs.Double.Magnitude
import Reckoner.Proofs.Expr.Substitution
import Reckoner.Proofs.Scalar.Settled

/-!
# Values of literals

A number that has been made a literal is evaluated again to the number in normal form: signs of
zeros, infinities and parts that are not numbers come back through the sign in front of a literal
and through the sum or the difference of the parts. There is one exception. A sum puts the real part
of the imaginary literal, a positive zero, on the real part of the number, and that turns a negative
zero into the positive one; the difference leaves it alone.
-/

namespace Reckoner

open Reckoner.Double

namespace Scalar

/-- A complex number whose real part is the negative zero and whose imaginary part has no sign. -/
def LosesSign : Scalar → Prop
  | .complex z => z.re = -0.0 ∧ isNegative z.im = false
  | _ => False

theorem isZero_of_isSettled {z : Complex} (h : (Scalar.complex z).IsSettled) :
    Double.isZero z.im = false := by
  rw [← Bool.not_eq_true]
  intro hzero
  have hsmall : (0.0 : Float) < negligible := by decide
  rw [← abs_of_isZero hzero] at hsmall
  exact h hsmall

theorem settle_of_isSettled {z : Complex} (h : (Scalar.complex z).IsSettled) :
    (Scalar.complex z).settle = .ok (.complex z) := by
  rw [settle, if_neg h]

/-- The value of an imaginary literal that is not negligible. -/
theorem imaginary_abs {z : Complex} (h : (Scalar.complex z).IsSettled) :
    (Arithmetic.imaginary z.im.abs : Scalar) = .complex ⟨0.0, z.im.abs⟩ := by
  have hsettled : ¬z.im.abs.abs < negligible := by
    rw [Double.abs_abs]
    exact h
  exact if_neg hsettled

/-- The difference of a real number and an imaginary one. -/
theorem evaluate_subtract {z : Complex} (h : (Scalar.complex z).IsSettled)
    (hneg : isNegative z.im = true) :
    Operator.evaluate "-" (.real z.re) (.complex ⟨0.0, z.im.abs⟩ : Scalar) = .ok (.complex z) := by
  have hparts : (⟨z.re - 0.0, 0.0 - z.im.abs⟩ : Complex) = z := by
    have him : Double.isZero (-z.im) = false := by rw [isZero_neg, isZero_of_isSettled h]
    rw [Double.sub_zero, abs_of_isNegative hneg, Double.zero_sub him, neg_neg]
  change faulty (settle (.complex ⟨z.re - 0.0, 0.0 - z.im.abs⟩)) = _
  rw [hparts, settle_of_isSettled h]
  rfl

/-- The sum of a real number and an imaginary one. -/
theorem evaluate_add {z : Complex} (h : (Scalar.complex z).IsSettled)
    (hneg : isNegative z.im = false) :
    Operator.evaluate "+" (.real z.re) (.complex ⟨0.0, z.im.abs⟩ : Scalar) =
      .ok (.complex ⟨z.re + 0.0, z.im⟩) := by
  have him : 0.0 + z.im.abs = z.im := by
    rw [abs_of_isNegative_eq_false hneg, Double.zero_add hneg]
  change faulty (settle (.complex ⟨z.re + 0.0, 0.0 + z.im.abs⟩)) = _
  rw [him, settle_of_isSettled (z := ⟨z.re + 0.0, z.im⟩) h]
  rfl

end Scalar

namespace Expr

variable {values : String → Except Error Scalar}

/-- The literal of a complex number is the sum or the difference of its parts. -/
theorem outcomeWith_ofComplex {z : Complex} (h : (Scalar.complex z).IsSettled) :
    outcomeWith values (ofComplex z) =
      (Operator.evaluate (if isNegative z.im then "-" else "+") (.real z.re)
        (.complex ⟨0.0, z.im.abs⟩ : Scalar)).mapError .of := by
  rw [ofComplex, outcomeWith, outcomeWith_ofFloat, bind_ok, outcomeWith, bind_ok,
    Scalar.imaginary_abs h]

/-- The literal of a number in normal form has the number as its value, unless it loses a sign. -/
theorem outcomeWith_ofScalar {v : Scalar} (h : v.IsSettled) (hkeeps : ¬v.LosesSign) :
    outcomeWith values (ofScalar v) = .ok v := by
  cases v with
  | whole n => exact h.elim
  | real x => exact outcomeWith_ofFloat x
  | complex z =>
      rw [ofScalar, outcomeWith_ofComplex h]
      cases hneg : isNegative z.im with
      | true =>
          rw [if_pos rfl, Scalar.evaluate_subtract h hneg]
          rfl
      | false =>
          have hre : z.re + 0.0 = z.re := add_zero_iff.mpr fun hre => hkeeps ⟨hre, hneg⟩
          rw [if_neg Bool.false_ne_true, Scalar.evaluate_add h hneg, hre]
          rfl

theorem outcomeWith_ofScalar_of_losesSign {y : Float} (h : (Scalar.complex ⟨-0.0, y⟩).IsSettled)
    (hneg : isNegative y = false) :
    outcomeWith values (ofScalar (.complex ⟨-0.0, y⟩)) = .ok (.complex ⟨0.0, y⟩) := by
  have hre : (-0.0 : Float) + 0.0 = 0.0 := by decide
  rw [ofScalar, outcomeWith_ofComplex h]
  dsimp only
  rw [hneg, if_neg Bool.false_ne_true, Scalar.evaluate_add (z := ⟨-0.0, y⟩) h hneg, hre]
  rfl

/-- A zero does not come back with its sign. -/
theorem complex_zero_ne {x y : Float} : Scalar.complex ⟨0.0, x⟩ ≠ .complex ⟨-0.0, y⟩ := by
  intro h
  injection h with h
  have hzero : (0.0 : Float) ≠ -0.0 := by decide
  exact hzero (congrArg Complex.re h)

theorem outcomeWith_ofScalar_eq_ok_iff {v : Scalar} (h : v.IsSettled) :
    outcomeWith values (ofScalar v) = .ok v ↔ ¬v.LosesSign := by
  refine ⟨fun hvalue hloses => ?_, outcomeWith_ofScalar h⟩
  cases v with
  | whole | real => exact hloses
  | complex z =>
      obtain ⟨x, y⟩ := z
      obtain ⟨hre, hneg⟩ := hloses
      change x = -0.0 at hre
      subst hre
      rw [outcomeWith_ofScalar_of_losesSign h hneg] at hvalue
      exact complex_zero_ne (Except.ok.inj hvalue)

/-- Every double and every complex number has a literal. Among all bindings its value is the number
in normal form, with the same parts, infinite ones, those that are not numbers and the signs of zeros
included; but for a complex number that loses a sign, whose real part comes back as the positive
zero. -/
theorem literal_evaluate {a : Scalar} (ha : a.IsFloating) :
    ∃ v e, a.settle = .ok v ∧ literal (.number a) = .ok e ∧
      (∀ bindings : Table (Binding Scalar), e.evaluate bindings = .ok v ↔ ¬v.LosesSign) ∧
      ∀ y, v = .complex ⟨-0.0, y⟩ → isNegative y = false →
        ∀ bindings : Table (Binding Scalar), e.evaluate bindings = .ok (.complex ⟨0.0, y⟩) := by
  obtain ⟨v, hv⟩ : ∃ v, a.settle = .ok v := by
    cases a with
    | whole n => exact ha.elim
    | real x => exact ⟨_, rfl⟩
    | complex z => exact ⟨_, rfl⟩
  have hsettled := Scalar.isSettled_settle hv
  have hliteral : literal (.number a) = .ok (ofScalar v) := by
    change ofScalar <$> Scalar.faulty a.settle = _
    rw [hv]
    rfl
  refine ⟨v, ofScalar v, hv, hliteral, fun bindings => ?_, fun y hy hneg bindings => ?_⟩
  · rw [evaluate_eq_outcomeWith]
    exact outcomeWith_ofScalar_eq_ok_iff hsettled
  · subst hy
    rw [evaluate_eq_outcomeWith]
    exact outcomeWith_ofScalar_of_losesSign hsettled hneg

/-- A number of which no part is finite, and one that loses a sign. -/
theorem literal_evaluate_infinite :
    (Scalar.complex ⟨-infinity, nan⟩).IsFloating ∧ (Scalar.complex ⟨-0.0, 2.0⟩).IsFloating ∧
      (∃ e, literal (.number (Scalar.complex ⟨-infinity, nan⟩)) = .ok e ∧
        e.evaluate [] = .ok (Scalar.complex ⟨-infinity, nan⟩)) ∧
      ∃ e, literal (.number (Scalar.complex ⟨-0.0, 2.0⟩)) = .ok e ∧
        e.evaluate [] = .ok (Scalar.complex ⟨0.0, 2.0⟩) := by
  refine ⟨trivial, trivial, ?_, ?_⟩
  · obtain ⟨v, e, hv, he, hvalue, -⟩ :=
      literal_evaluate (show (Scalar.complex ⟨-infinity, nan⟩).IsFloating from trivial)
    have hnormal : (Scalar.complex ⟨-infinity, nan⟩).settle = .ok (.complex ⟨-infinity, nan⟩) := by
      decide
    cases hv.symm.trans hnormal
    have hkeeps : ¬(Scalar.complex ⟨-infinity, nan⟩).LosesSign := by
      rintro ⟨hre, -⟩
      revert hre
      decide
    exact ⟨e, he, (hvalue []).mpr hkeeps⟩
  · obtain ⟨v, e, hv, he, -, hloses⟩ :=
      literal_evaluate (show (Scalar.complex ⟨-0.0, 2.0⟩).IsFloating from trivial)
    have hnormal : (Scalar.complex ⟨-0.0, 2.0⟩).settle = .ok (.complex ⟨-0.0, 2.0⟩) := by decide
    cases hv.symm.trans hnormal
    exact ⟨e, he, hloses 2.0 rfl (by decide) []⟩

end Expr

end Reckoner
