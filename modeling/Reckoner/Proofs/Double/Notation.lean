import Reckoner.Proofs.Double.Decimal
import Reckoner.Proofs.Double.Numeral

/-!
# Doubles as numerals

The shortest text of a positive finite double is a numeral that is read as the double:
`exists_numeral_text`. Where the point stands and whether there is an exponent makes no difference
to the value.
-/

namespace Reckoner.Double

/-! ## Digits with a point -/

theorem pointed_of_nonpos {before : Int} (h : before ≤ 0) (digits : List Char) :
    pointed digits before = (['0'], List.replicate (-before).toNat '0' ++ digits) := if_pos h

theorem pointed_of_pos {before : Int} (h : 0 < before) (digits : List Char) :
    pointed digits before = (digits.take before.toNat ++
      List.replicate (before.toNat - digits.length) '0', digits.drop before.toNat) :=
  if_neg (Int.not_le.mpr h)

theorem pointed_whole_ne (digits : List Char) (before : Int) : (pointed digits before).1 ≠ [] := by
  by_cases h : before ≤ 0
  · rw [pointed_of_nonpos h]
    exact List.cons_ne_nil _ _
  · rw [pointed_of_pos (Int.not_le.mp h), ← List.length_pos_iff, List.length_append,
      List.length_take, List.length_replicate]
    omega

theorem isDigits_pointed {digits : List Char} (h : IsDigits digits) (before : Int) :
    IsDigits ((pointed digits before).1 ++ (pointed digits before).2) := by
  by_cases hbefore : before ≤ 0
  · rw [pointed_of_nonpos hbefore]
    exact (isDigits_replicate 1).append ((isDigits_replicate _).append h)
  · rw [pointed_of_pos (Int.not_le.mp hbefore)]
    refine IsDigits.append (IsDigits.append ?_ (isDigits_replicate _)) ?_
    · exact fun c hc => h c (List.mem_of_mem_take hc)
    · exact fun c hc => h c (List.mem_of_mem_drop hc)

/-- The point moves the digits by the places behind it. -/
theorem pointed_value (digits : List Char) (before : Int) :
    (Nat.ofDigitChars 10 ((pointed digits before).1 ++ (pointed digits before).2) 0 : ℚ) *
        10 ^ (-((pointed digits before).2.length : Int)) =
      Nat.ofDigitChars 10 digits 0 * 10 ^ (before - digits.length) := by
  by_cases h : before ≤ 0
  · rw [pointed_of_nonpos h]
    have hdigits : Nat.ofDigitChars 10 (['0'] ++ (List.replicate (-before).toNat '0' ++ digits)) 0 =
        Nat.ofDigitChars 10 digits 0 := by
      have hzeros : Nat.ofDigitChars 10 (List.replicate (-before).toNat '0') 0 = 0 := by
        rw [Nat.ofDigitChars_replicate_zero, Nat.mul_zero]
      rw [List.singleton_append, Nat.ofDigitChars_cons, Nat.ofDigitChars_append]
      exact congrArg (Nat.ofDigitChars 10 digits) hzeros
    simp only [hdigits, List.length_append, List.length_replicate]
    congr 2
    omega
  · rw [pointed_of_pos (Int.not_le.mp h)]
    by_cases hlong : before.toNat ≤ digits.length
    · rw [Nat.sub_eq_zero_of_le hlong, List.replicate_zero, List.append_nil,
        List.take_append_drop, List.length_drop]
      congr 2
      omega
    · have hall : digits.length ≤ before.toNat := by omega
      rw [List.take_of_length_le hall, List.drop_of_length_le hall, List.append_nil,
        Nat.ofDigitChars_append, Nat.ofDigitChars_replicate_zero, List.length_nil]
      rw [show before - digits.length = ((before.toNat - digits.length : Nat) : Int) by omega]
      push_cast
      rw [zpow_natCast]
      ring

/-! ## The shortest text -/

/-- The text of digits whose first one has the given decimal exponent. -/
def magnitudeText (pointed? : Bool) (digits : List Char) (exponent : Int) : List Char :=
  if isPositional exponent then
    let (whole, fraction) := pointed digits (exponent + 1)
    joinPoint (whole, if pointed? && fraction.isEmpty then ['0'] else fraction)
  else scientific digits exponent

theorem textWith_eq (pointed? : Bool) (x : Float) : textWith pointed? x =
    signed x (magnitudeText pointed? (shortestDigits x).1 (shortestDigits x).2) := rfl

theorem Numeral.value_decimal (n : Numeral) : n.decimal.value =
    Nat.ofDigitChars 10 (n.whole ++ n.fraction) 0 * 10 ^ (-(n.fraction.length : Int)) *
      10 ^ (n.power.getD 0) := by
  rw [mul_assoc, ← zpow_add₀ (by norm_num)]
  change (_ : ℚ) * 10 ^ (n.power.getD 0 - n.fraction.length) = _
  congr 2
  omega

/-- Digits with an exponent are written as a numeral of that value. -/
theorem exists_numeral_magnitudeText {digits : List Char} (h : IsDigits digits) (exponent : Int) :
    ∃ n : Numeral, n.text = magnitudeText true digits exponent ∧
      n.decimal.value = Nat.ofDigitChars 10 digits 0 * 10 ^ (exponent + 1 - digits.length) := by
  unfold magnitudeText
  split
  case isTrue =>
      have hvalue := pointed_value digits (exponent + 1)
      have hdigits := isDigits_pointed h (exponent + 1)
      have hne := pointed_whole_ne digits (exponent + 1)
      generalize pointed digits (exponent + 1) = parts at *
      obtain ⟨whole, fraction⟩ := parts
      cases fraction with
      | nil =>
          -- a point and a zero behind a whole value
          rw [List.append_nil] at hdigits hvalue
          refine ⟨⟨whole, ['0'], none, hne, hdigits.append (isDigits_replicate 1)⟩,
            List.append_nil _, ?_⟩
          have hten : Nat.ofDigitChars 10 (whole ++ ['0']) 0 =
            10 * Nat.ofDigitChars 10 whole 0 := by
            rw [Nat.ofDigitChars_append]
            exact Nat.ofDigitChars_replicate_zero (n := 1)
          rw [← hvalue, Numeral.value_decimal]
          simp only [hten]
          norm_num
          ring
      | cons d ds =>
          refine ⟨⟨whole, d :: ds, none, hne, hdigits⟩, List.append_nil _, ?_⟩
          rw [← hvalue, Numeral.value_decimal, Option.getD_none, zpow_zero, mul_one]
  case isFalse =>
      have hvalue := pointed_value digits 1
      refine ⟨⟨(pointed digits 1).1, (pointed digits 1).2, some exponent, pointed_whole_ne digits 1,
        isDigits_pointed h 1⟩, rfl, ?_⟩
      rw [Numeral.value_decimal, hvalue, mul_assoc, Option.getD_some, ← zpow_add₀ (by norm_num)]
      congr 2
      omega

theorem signed_eq {x : Float} (hnan : x.isNaN = false) (hinf : x.isInf = false)
    (hneg : isNegative x = false) (cs : List Char) : (signed x cs).toList = cs := by
  unfold signed
  rw [hnan, hinf, hneg]
  simp

/-- The shortest text of a positive finite double is a numeral that reads back. -/
theorem exists_numeral_text {x : Float} (hfinite : x.isFinite = true) (hzero : isZero x = false)
    (hneg : isNegative x = false) :
    ∃ n : Numeral, (text x).toList = n.text ∧ ofDecimal false n.decimal = x := by
  have hdigits : shortestDigits x =
      ((shortest x).text, (shortest x).text.length + (shortest x).exponent - 1) := by
    unfold shortestDigits
    rw [hzero]
    rfl
  obtain ⟨n, htext, hvalue⟩ := exists_numeral_magnitudeText
    (isDigits_toDigits (shortest x).digits)
    ((shortest x).text.length + (shortest x).exponent - 1)
  have hnan := isNaN_eq_false hfinite
  have hinf := isInf_eq_false hfinite
  refine ⟨n, ?_, ofDecimal_shortest hfinite hzero hneg ?_⟩
  · rw [text, textWith_eq, hdigits, signed_eq hnan hinf hneg, htext]
    rfl
  · rw [hvalue, Nat.ofDigitChars_ten_toDigits, Decimal.value]
    congr 2
    change ((Nat.toDigits 10 (shortest x).digits).length : Int) + _ - 1 + 1 - _ = _
    omega

end Reckoner.Double
