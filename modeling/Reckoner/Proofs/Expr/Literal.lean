import Reckoner.Expr.Printer
import Reckoner.Proofs.Double.Notation

/-!
# Literals as text

A number without a sign is written as a numeral that is read as the number; a sign is written in
front of what the number without it is. The values without digits have texts of their own.
-/

namespace Reckoner.Expr

open Reckoner.Double

/-- The numeral of a whole number. -/
def wholeNumeral (w : Nat) : Numeral where
  whole := Nat.toDigits 10 w
  fraction := []
  power := none
  whole_ne := Nat.toDigits_ne_nil
  digits := by
    rw [List.append_nil]
    exact isDigits_toDigits w

theorem text_wholeNumeral (w : Nat) : (wholeNumeral w).text = Nat.toDigits 10 w :=
  List.append_nil _

theorem decimal_wholeNumeral (w : Nat) : (wholeNumeral w).decimal = ⟨w, 0⟩ := by
  change (⟨Nat.ofDigitChars 10 (Nat.toDigits 10 w ++ []) 0, _⟩ : Decimal) = _
  rw [List.append_nil, Nat.ofDigitChars_ten_toDigits]
  rfl

variable {x : Float}

theorem wholePart_value (h : isIntegral x = true) : (wholePart x : ℚ) = (magnitude x).value := by
  have hmod : (ratio x).1 % (ratio x).2 = 0 := by
    unfold isIntegral at h
    simpa using (Bool.and_eq_true_iff.mp h).2
  obtain ⟨hup, hdown⟩ := powerRatio_pos (by decide : 0 < 2) (magnitude x).exponent
  have hdvd : (ratio x).2 ∣ (ratio x).1 := Nat.dvd_of_mod_eq_zero hmod
  have hne : ((ratio x).2 : ℚ) ≠ 0 := by exact_mod_cast Nat.ne_of_gt hdown
  rw [← ratio_value, eq_div_iff hne]
  exact_mod_cast Nat.div_mul_cancel hdvd

theorem numberText_zero : numberText 0.0 = "0" := by decide +kernel

/-- A finite number without a sign is written as a numeral that is read as it. -/
theorem exists_numeral_numberText (hfinite : x.isFinite = true) (hneg : isNegative x = false) :
    ∃ n : Numeral, (numberText x).toList = n.text ∧ ofDecimal false n.decimal = x := by
  by_cases hzero : isZero x = true
  · have htext := numberText_zero
    rw [eq_zero hzero hneg, htext]
    exact ⟨wholeNumeral 0, rfl, by decide⟩
  · have hnonzero : isZero x = false := by simpa using hzero
    unfold numberText
    rw [isNaN_eq_false hfinite, hnonzero]
    by_cases hwhole : isPlainWhole x = true
    · have hintegral : isIntegral x = true := (Bool.and_eq_true_iff.mp hwhole).1
      refine ⟨wholeNumeral (wholePart x), ?_, ?_⟩
      · rw [hwhole, text_wholeNumeral]
        unfold truncate
        rw [hneg]
        exact Nat.toList_repr
      · apply ofDecimal_eq_self hfinite hnonzero hneg
        have hvalue : (wholeNumeral (wholePart x)).decimal.value = (magnitude x).value := by
          rw [decimal_wholeNumeral, ← wholePart_value hintegral, Decimal.value, zpow_zero, mul_one]
        rw [hvalue]
        exact contains_value (isLegal_magnitude hfinite) (significand_pos hnonzero)
    · simpa [hwhole] using exists_numeral_text hfinite hnonzero hneg

/-! ## Signs -/

theorem magnitude_neg (h : x.isNaN = false) : magnitude (-x) = magnitude x := by
  unfold magnitude
  rw [exponentBits_neg h, fractionBits_neg h]

theorem ratio_neg (h : x.isNaN = false) : ratio (-x) = ratio x := by
  unfold ratio
  rw [magnitude_neg h]

theorem isIntegral_neg (h : x.isNaN = false) : isIntegral (-x) = isIntegral x := by
  unfold isIntegral
  rw [isFinite_neg, ratio_neg h]

theorem isPlainWhole_neg (h : x.isNaN = false) : isPlainWhole (-x) = isPlainWhole x := by
  unfold isPlainWhole
  rw [isIntegral_neg h, abs_neg]

theorem shortestDigits_neg (h : x.isNaN = false) : shortestDigits (-x) = shortestDigits x := by
  unfold shortestDigits shortest
  rw [isZero_neg, ratio_neg h, magnitude_neg h]

theorem text_neg (h : x.isNaN = false) (hneg : isNegative x = true) :
    (Double.text x).toList = '-' :: (Double.text (-x)).toList := by
  have hnan : (-x).isNaN = false := by rw [isNaN_neg, h]
  have hpos : isNegative (-x) = false := by rw [isNegative_neg h, hneg]; rfl
  rw [Double.text, Double.text, textWith_eq, textWith_eq, shortestDigits_neg h]
  unfold signed
  rw [h, hnan, isInf_neg, hneg, hpos]
  simp

theorem wholePart_pos (hzero : isZero x = false) (h : isIntegral x = true) : 0 < wholePart x := by
  obtain ⟨hn, hd⟩ := ratio_pos hzero
  have hmod : (ratio x).1 % (ratio x).2 = 0 := by
    unfold isIntegral at h
    simpa using (Bool.and_eq_true_iff.mp h).2
  exact Nat.div_pos (Nat.le_of_dvd hn (Nat.dvd_of_mod_eq_zero hmod)) hd

/-- A number with a sign is written as the sign and the number without it. -/
theorem numberText_neg (h : x.isNaN = false) (hneg : isNegative x = true) :
    (numberText x).toList = '-' :: (numberText (-x)).toList := by
  have hnan : (-x).isNaN = false := by rw [isNaN_neg, h]
  have hpos : isNegative (-x) = false := by rw [isNegative_neg h, hneg]; rfl
  by_cases hzero : isZero x = true
  · have hx : -x = 0.0 := eq_zero (by rw [isZero_neg, hzero]) hpos
    have htext := numberText_zero
    rw [hx, htext]
    unfold numberText
    rw [h, hzero, hneg]
    simp
  · have hnonzero : isZero x = false := by simpa using hzero
    unfold numberText
    rw [h, hnan, isPlainWhole_neg h, isZero_neg, hnonzero]
    by_cases hwhole : isPlainWhole x = true
    · have hintegral : isIntegral x = true := (Bool.and_eq_true_iff.mp hwhole).1
      have hwpos := wholePart_pos hnonzero hintegral
      rw [hwhole]
      unfold truncate
      rw [hneg, hpos, wholePart, wholePart, ratio_neg h]
      change 0 < (ratio x).1 / (ratio x).2 at hwpos
      generalize (ratio x).1 / (ratio x).2 = w at *
      have hne : w ≠ 0 := Nat.ne_of_gt hwpos
      simp [Int.repr_eq_if, hne]
    · simpa [hwhole] using text_neg h hneg

theorem imaginaryText_of_isFinite (hfinite : x.isFinite = true) :
    (imaginaryText x).toList = (numberText x).toList ++ ['i'] := by
  unfold imaginaryText
  rw [isInf_eq_false hfinite, String.toList_append]
  rfl

/-- An imaginary number with a sign is written as the sign and the number without it. -/
theorem imaginaryText_neg (h : x.isNaN = false) (hneg : isNegative x = true) :
    (imaginaryText x).toList = '-' :: (imaginaryText (-x)).toList := by
  have hpos : isNegative (-x) = false := by rw [isNegative_neg h, hneg]; rfl
  unfold imaginaryText
  rw [isInf_neg, hneg, hpos, String.toList_append, String.toList_append]
  cases x.isInf with
  | true => simp
  | false => simp [numberText_neg h hneg]

theorem imaginaryText_infinity : imaginaryText infinity = "1e999i" := by rfl

theorem imaginaryText_nan : imaginaryText nan = "nani" := by rfl

theorem numberText_infinity : numberText infinity = "inf" := by rfl

theorem numberText_nan : numberText nan = "nan" := by rfl

end Reckoner.Expr
