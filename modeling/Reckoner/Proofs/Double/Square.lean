import Reckoner.Proofs.Double.Nearest
import Reckoner.Proofs.Double.Root

/-!
# Roots of squares

The square of a double, off by a little and rounded, is in range exactly for a size below `2 ^ 512`.
It stays so near to the exact square that its root is rounded to the size again, unless the square
comes near to an underflow; there the root and the size are both tiny.
-/

namespace Reckoner.Double

open Float.Model Float.Model.UnpackedFloat

variable {p x : Float}

/-- The exact square, off by at most a part in `2 ^ 56`, is rounded to the double: with the rounding,
that is less than 0.57 units in the last place. -/
def IsSquareOf (p x : Float) : Prop :=
  ∃ n d : Nat, 0 < d ∧
    |(n / d : ℚ) - (magnitude x).value ^ 2| ≤ (magnitude x).value ^ 2 / 2 ^ 56 ∧
    p = ofRatio false n d

namespace IsSquareOf

/-- The square of what is no zero is rounded from a quotient that is none either. -/
theorem exists_quotient (h : IsSquareOf p x) (hzero : isZero x = false) :
    ∃ n d : Nat, 0 < n ∧ 0 < d ∧ p = ofRatio false n d ∧
      (1 - 1 / 2 ^ 56) * (magnitude x).value ^ 2 ≤ n / d ∧
      (n / d : ℚ) ≤ (1 + 1 / 2 ^ 56) * (magnitude x).value ^ 2 := by
  obtain ⟨n, d, hd, hnear, hp⟩ := h
  obtain ⟨hlow, hhigh⟩ := abs_le.mp hnear
  have hvalue : 0 < (magnitude x).value ^ 2 := pow_pos (value_pos hzero) 2
  refine ⟨n, d, ?_, hd, hp, by linarith, by linarith⟩
  rcases Nat.eq_zero_or_pos n with rfl | hn
  · rw [Nat.cast_zero, zero_div] at hlow
    linarith
  · exact hn

/-- The square of zero is zero. -/
theorem eq_zero (h : IsSquareOf p x) (hzero : isZero x = true) : p = 0.0 := by
  obtain ⟨n, d, hd, hnear, hp⟩ := h
  have hpos : (0 : ℚ) < d := by exact_mod_cast hd
  rw [value_eq_zero hzero, zero_pow two_ne_zero, zero_div, sub_zero, abs_nonpos_iff,
    div_eq_zero_iff, or_iff_left hpos.ne', Nat.cast_eq_zero] at hnear
  rw [hp, hnear]
  rfl

theorem isNegative_eq_false (h : IsSquareOf p x) : isNegative p = false := by
  obtain ⟨n, d, -, -, rfl⟩ := h
  obtain ⟨bits, hbits, hvalue⟩ := exists_bits_ofRatio n d
  rw [hvalue]
  exact isNegative_withSign hbits

end IsSquareOf

/-! ## Squares in range -/

theorem two_zpow_sq (e : Int) : ((2 : ℚ) ^ e) ^ 2 = 2 ^ (e + e) := by
  rw [sq, ← zpow_add₀ two_ne_zero]

theorem overflow_eq_square : overflow = (2 ^ 106 - 2 ^ 52) * (2 ^ (459 : Int)) ^ 2 := by
  have hpower : (2 : ℚ) ^ (971 : Int) = 2 ^ 53 * (2 ^ (459 : Int)) ^ 2 := by
    rw [two_zpow_sq, ← zpow_natCast 2 53, ← zpow_add₀ two_ne_zero]
    rfl
  rw [overflow_eq, hpower]
  ring

section Range

variable {q : ℚ}

theorem lt_overflow_of_square (hx : x.isFinite = true) (hsize : (magnitude x).value < 2 ^ 512)
    (hq : q ≤ (1 + 1 / 2 ^ 56) * (magnitude x).value ^ 2) : q < overflow := by
  have hunit : (0 : ℚ) < 2 ^ (459 : Int) := by positivity
  have hbound : (2 : ℚ) ^ 512 = 2 ^ 53 * 2 ^ (459 : Int) := pow_add 2 53 459
  rw [hbound] at hsize
  have hlarge := (isLegal_magnitude hx).value_le (by decide) hsize
  rw [overflow_eq_square]
  generalize (2 : ℚ) ^ (459 : Int) = unit at *
  have hsquare : 0 < unit ^ 2 := pow_pos hunit 2
  calc q ≤ (1 + 1 / 2 ^ 56) * (magnitude x).value ^ 2 := hq
    _ ≤ (1 + 1 / 2 ^ 56) * ((2 ^ 53 - 1) * unit) ^ 2 :=
        mul_le_mul_of_nonneg_left (pow_le_pow_left₀ (value_nonneg _) hlarge 2) (by norm_num)
    _ < (2 ^ 106 - 2 ^ 52) * unit ^ 2 := by linarith

theorem overflow_lt_of_square (hsize : 2 ^ 512 ≤ (magnitude x).value)
    (hq : (1 - 1 / 2 ^ 56) * (magnitude x).value ^ 2 ≤ q) : overflow < q := by
  have hunit : (0 : ℚ) < 2 ^ (459 : Int) := by positivity
  have hbound : (2 : ℚ) ^ 512 = 2 ^ 53 * 2 ^ (459 : Int) := pow_add 2 53 459
  rw [hbound] at hsize
  rw [overflow_eq_square]
  generalize (2 : ℚ) ^ (459 : Int) = unit at *
  have hsquare : 0 < unit ^ 2 := pow_pos hunit 2
  calc (2 ^ 106 - 2 ^ 52) * unit ^ 2 < (1 - 1 / 2 ^ 56) * (2 ^ 53 * unit) ^ 2 := by linarith
    _ ≤ (1 - 1 / 2 ^ 56) * (magnitude x).value ^ 2 :=
        mul_le_mul_of_nonneg_left (pow_le_pow_left₀ (by positivity) hsize 2) (by norm_num)
    _ ≤ q := hq

end Range

namespace IsSquareOf

/-- A square is in range exactly if the size of the number is below `2 ^ 512`. -/
theorem isInf_iff (h : IsSquareOf p x) (hx : x.isFinite = true) :
    p.isInf = true ↔ 2 ^ 512 ≤ (magnitude x).value := by
  cases hzero : isZero x with
  | true =>
      rw [h.eq_zero hzero, value_eq_zero hzero]
      exact iff_of_false (by decide) (not_le.mpr (by positivity))
  | false =>
      obtain ⟨n, d, hn, hd, rfl, hlow, hhigh⟩ := h.exists_quotient hzero
      by_cases hsize : 2 ^ 512 ≤ (magnitude x).value
      · exact iff_of_true (isInf_ofRatio hn hd (overflow_lt_of_square hsize hlow)) hsize
      · have hless := lt_overflow_of_square hx (not_le.mp hsize) hhigh
        have hfinite := (isFinite_ofRatio hn hd hless).1
        exact iff_of_false (Bool.eq_false_iff.mp (isInf_eq_false hfinite)) hsize

/-- A square in range is rounded to a finite double. -/
theorem exists_roundsTo (h : IsSquareOf p x) (hx : x.isFinite = true) (hzero : isZero x = false)
    (hsize : (magnitude x).value < 2 ^ 512) :
    p.isFinite = true ∧ ∃ q k t, RoundsTo q k t ∧ (magnitude p).value = k * 2 ^ t ∧
      (1 - 1 / 2 ^ 56) * (magnitude x).value ^ 2 ≤ q ∧
      q ≤ (1 + 1 / 2 ^ 56) * (magnitude x).value ^ 2 := by
  obtain ⟨n, d, hn, hd, rfl, hlow, hhigh⟩ := h.exists_quotient hzero
  obtain ⟨hfinite, k, t, hrounds, hvalue⟩ :=
    isFinite_ofRatio hn hd (lt_overflow_of_square hx hsize hhigh)
  exact ⟨hfinite, n / d, k, t, hrounds, hvalue, hlow, hhigh⟩

end IsSquareOf

/-! ## Squares of numbers that are not small -/

/-- In units of the last place of the number, a square that is rounded to a double stays within half
a unit of the root from the exact square, and has enough bits. -/
theorem near_square {m k : Nat} {y : ℚ} {s : Int} (hm : 2 ^ 52 ≤ m) (hm' : m < 2 ^ 53)
    (hlow : (1 - 1 / 2 ^ 56) * (m : ℚ) ^ 2 ≤ y) (hhigh : y ≤ (1 + 1 / 2 ^ 56) * (m : ℚ) ^ 2)
    (hk : 2 ^ 52 ≤ k) (hk' : k ≤ 2 ^ 53) (hy : 2 ^ (s + 52) ≤ y) (hy' : y < 2 ^ (s + 53))
    (hround : (2 * k - 1) * 2 ^ s ≤ 2 * y) (hround' : 2 * y ≤ (2 * k + 1) * 2 ^ s) :
    2 ^ 104 ≤ (k : ℚ) * 2 ^ s ∧ (m : ℚ) ^ 2 < k * 2 ^ s + m ∧ (k : ℚ) * 2 ^ s ≤ m ^ 2 + m := by
  have hleast : (2 ^ 52 : ℚ) ≤ m := by exact_mod_cast hm
  have hmost : (m : ℚ) ≤ 2 ^ 53 - 1 := by
    have : (m : ℚ) + 1 ≤ 2 ^ 53 := by exact_mod_cast hm'
    linarith
  have hfull : (2 ^ 52 : ℚ) ≤ k := by exact_mod_cast hk
  have hlarge : (2 ^ 52 : ℚ) ^ 2 ≤ (m : ℚ) ^ 2 := pow_le_pow_left₀ (by norm_num) hleast 2
  have hsmall : (m : ℚ) ^ 2 ≤ (2 ^ 53 - 1) ^ 2 := pow_le_pow_left₀ (by positivity) hmost 2
  have hbelow : 103 < s + 53 := by
    refine (zpow_lt_zpow_iff_right₀ (by norm_num : (1 : ℚ) < 2)).mp (lt_of_le_of_lt ?_ hy')
    norm_num
    linarith
  have habove : s + 52 < 106 := by
    refine (zpow_lt_zpow_iff_right₀ (by norm_num : (1 : ℚ) < 2)).mp (lt_of_le_of_lt hy ?_)
    norm_num
    linarith
  -- the square has 105 or 106 bits, and what rounding adds to the error is half a unit
  obtain rfl | rfl | rfl : s = 51 ∨ s = 52 ∨ s = 53 := by omega
  · -- only the least number of 53 bits has so small a square; that is a power of two, to which it
    -- is rounded from below
    norm_num at hy' hround'
    obtain rfl : m = 2 ^ 52 := by
      by_contra hne
      have hnext : (2 ^ 52 + 1 : ℚ) ≤ m := by exact_mod_cast Nat.lt_of_le_of_ne hm (Ne.symm hne)
      have hsquare : (2 ^ 52 + 1 : ℚ) ^ 2 ≤ (m : ℚ) ^ 2 := pow_le_pow_left₀ (by norm_num) hnext 2
      linarith
    obtain rfl : k = 2 ^ 53 := by
      have hmore : (2 ^ 53 : ℚ) < k + 1 := by
        push_cast at hlow
        linarith
      have hwhole : 2 ^ 53 < k + 1 := by exact_mod_cast hmore
      omega
    norm_num
  · norm_num at hround hround' hy' ⊢
    refine ⟨?_, ?_, ?_⟩ <;> linarith
  · have hmore : (5 * 2 ^ 50 : ℚ) < m := by
      by_contra hless
      have hsquare : (m : ℚ) ^ 2 ≤ (5 * 2 ^ 50) ^ 2 :=
        pow_le_pow_left₀ (by positivity) (not_lt.mp hless) 2
      norm_num at hy
      linarith
    norm_num at hround hround' ⊢
    refine ⟨?_, ?_, ?_⟩ <;> linarith

/-- The same for a square that is not in units of the number. -/
theorem RoundsTo.near_square {q : ℚ} {m k : Nat} {t e : Int} (h : RoundsTo q k t) (hm : 2 ^ 52 ≤ m)
    (hm' : m < 2 ^ 53) (he : -500 ≤ e) (hlow : (1 - 1 / 2 ^ 56) * (m * 2 ^ e) ^ 2 ≤ q)
    (hhigh : q ≤ (1 + 1 / 2 ^ 56) * (m * 2 ^ e) ^ 2) :
    ∃ w : ℚ, k * 2 ^ t = w * (2 ^ e) ^ 2 ∧
      2 ^ 104 ≤ w ∧ (m : ℚ) ^ 2 < w + m ∧ w ≤ (m : ℚ) ^ 2 + m := by
  have hunit : (0 : ℚ) < (2 ^ e) ^ 2 := by positivity
  have hscale (i : Int) : (2 : ℚ) ^ (t + i) = 2 ^ (t - 2 * e + i) * (2 ^ e) ^ 2 := by
    rw [two_zpow_sq, ← zpow_add₀ two_ne_zero]
    congr 1
    ring
  have hsame := hscale 0
  rw [add_zero, add_zero] at hsame
  have hwide : t ≠ -1074 := by
    rintro rfl
    have hlt := h.lt
    have hlarge : (2 : ℚ) ^ (-448 : Int) ≤ m * 2 ^ e := by
      have hfull : (2 ^ 52 : ℚ) ≤ m := by exact_mod_cast hm
      have hpower : (2 : ℚ) ^ (-500 : Int) ≤ 2 ^ e := zpow_le_zpow_right₀ one_le_two he
      have hproduct := mul_le_mul hfull hpower (by positivity) (by positivity)
      rwa [← zpow_natCast 2 52, ← zpow_add₀ two_ne_zero] at hproduct
    have hsquare := pow_le_pow_left₀ (by positivity) hlarge 2
    have hsmall : (2 : ℚ) ^ (-1074 + 53 : Int) ≤ 2 ^ (-897 : Int) :=
      zpow_le_zpow_right₀ one_le_two (by decide)
    have hhalf : (2 : ℚ) ^ (-897 : Int) * 2 = (2 ^ (-448 : Int)) ^ 2 := by
      rw [← zpow_add_one₀ two_ne_zero, two_zpow_sq]
      rfl
    have hpos : (0 : ℚ) < 2 ^ (-897 : Int) := by positivity
    generalize (2 : ℚ) ^ (-897 : Int) = half at *
    generalize (2 : ℚ) ^ (-1074 + 53 : Int) = most at *
    linarith
  have hle := h.le.resolve_right hwide
  have hlt := h.lt
  have hround := h.low
  have hround' := h.high
  rw [hscale] at hle hlt
  rw [hsame] at hround hround' ⊢
  rw [← le_div_iff₀ hunit] at hle
  rw [← div_lt_iff₀ hunit] at hlt
  refine ⟨k * 2 ^ (t - 2 * e), by ring, ?_⟩
  refine Double.near_square hm hm' (y := q / (2 ^ e) ^ 2) ?_ ?_
    (h.significand_full.resolve_right hwide) h.significand_le hle hlt ?_ ?_
  · rw [le_div_iff₀ hunit]
    linarith
  · rw [div_le_iff₀ hunit]
    linarith
  · rw [mul_div_assoc', le_div_iff₀ hunit]
    linarith
  · rw [mul_div_assoc', div_le_iff₀ hunit]
    linarith

namespace IsSquareOf

/-- Where the square does not come near to an underflow, its root is the number itself. -/
theorem sqrt_eq (h : IsSquareOf p x) (hx : x.isFinite = true) (hneg : isNegative x = false)
    (hexponent : -500 ≤ (magnitude x).exponent) (hsize : (magnitude x).value < 2 ^ 512) :
    p.sqrt = x := by
  have hlegal := isLegal_magnitude hx
  have hfull := hlegal.full.resolve_right (by omega)
  have hzero : isZero x = false := isZero_eq_false (by
    have hpos : (0 : ℚ) < (magnitude x).significand := by
      exact_mod_cast Nat.lt_of_lt_of_le (by decide) hfull
    unfold Magnitude.value
    positivity)
  obtain ⟨hfinite, q, k, t, hrounds, hvalue, hlow, hhigh⟩ := h.exists_roundsTo hx hzero hsize
  obtain ⟨w, hw, hwide, hbelow, habove⟩ :=
    hrounds.near_square hfull hlegal.lt hexponent hlow hhigh
  exact Double.sqrt_eq hfinite h.isNegative_eq_false hx hneg (hvalue.trans hw) hwide hbelow habove

end IsSquareOf

/-! ## Squares of small numbers -/

/-- Zero, or positive with an exponent below that of `1e-100`. -/
def IsTiny (x : Float) : Prop :=
  x.toModel.unpack = .zero .positive ∨
    ∃ m e hm, x.toModel.unpack = .finite .positive m e hm ∧ e < -385

theorem isTiny_of_exponent (hx : x.isFinite = true) (hneg : isNegative x = false)
    (he : (magnitude x).exponent < -385) : IsTiny x := by
  cases hzero : isZero x with
  | true =>
      rw [eq_zero hzero hneg]
      exact .inl rfl
  | false =>
      exact .inr ⟨_, _, _, unpack_of_positive hx hzero hneg, he⟩

theorem unpack_bound : (1e-100 : Float).toModel.unpack =
    .finite .positive 7880401239278896 (-385) (by decide) := rfl

theorem IsTiny.lt {y : Float} (h : IsTiny x) (hy : 1e-100 ≤ y) : x < y := by
  have hle := compare_of_le hy
  rw [unpack_bound] at hle
  apply lt_of_compare
  cases hunpack : y.toModel.unpack with
  | notANumber =>
      rw [hunpack] at hle
      cases hle
  | infinity s =>
      rw [hunpack] at hle
      cases s with
      | negative => cases hle
      | positive => rcases h with hx | ⟨m, e, hm, hx, -⟩ <;> rw [hx] <;> rfl
  | zero s =>
      rw [hunpack] at hle
      cases hle
  | finite s m e hm =>
      rw [hunpack] at hle
      cases s with
      | negative => cases hle
      | positive =>
      have hexponent : -385 ≤ e := by
        by_contra hless
        have hgt : compare (-385) e = .gt := Int.compare_eq_gt.mpr (by omega)
        simp [UnpackedFloat.compare, hgt] at hle
      rcases h with hx | ⟨m', e', hm', hx, he'⟩ <;> rw [hx]
      · rfl
      · have hlt : compare e' e = .lt := Int.compare_eq_lt.mpr (by omega)
        simp [UnpackedFloat.compare, hlt]

/-- The root of a small number has a small exponent. -/
theorem isTiny_sqrt (hfinite : p.isFinite = true) (hneg : isNegative p = false)
    (hsmall : (magnitude p).value ≤ 2 ^ (-894 : Int)) : IsTiny p.sqrt := by
  cases hzero : isZero p with
  | true =>
      rw [eq_zero hzero hneg]
      exact .inl rfl
  | false =>
      obtain ⟨n, t, hleast, -, ht, hradicand, k, t', hk, hsqrt, hroot⟩ :=
        exists_sqrt hfinite hzero hneg
      have hexponent : t < -498 := by
        by_contra hlarge
        have hpower : (2 : ℚ) ^ (-498 : Int) ≤ 2 ^ t := zpow_le_zpow_right₀ one_le_two (by omega)
        have hsquare := pow_le_pow_left₀ (by positivity) hpower 2
        have hn : (2 ^ 104 : ℚ) ≤ n := by exact_mod_cast hleast
        have hproduct := mul_le_mul hn hsquare (by positivity) (by positivity)
        have hvalue : (2 : ℚ) ^ (-894 : Int) < 2 ^ 104 * (2 ^ (-498 : Int)) ^ 2 := by
          rw [two_zpow_sq, ← zpow_natCast 2 104, ← zpow_add₀ two_ne_zero]
          exact zpow_lt_zpow_right₀ one_lt_two (by decide)
        rw [← hradicand] at hproduct
        exact absurd (hvalue.trans_le hproduct) (not_lt.mpr hsmall)
      have hexponent' : -1074 ≤ t' ∧ t' < -385 := by
        rcases hroot.eq with ⟨rfl, -⟩ | ⟨rfl, -⟩ <;> omega
      refine .inr ⟨k, t', hk, ?_, hexponent'.2⟩
      change (Float.ofModel (Float.Model.pack
        (UnpackedFloat.sqrt Format.binary64 p.toModel.unpack))).toModel.unpack = _
      rw [hsqrt]
      exact unpack_pack_of_full .positive hk hroot.low hroot.high hexponent'.1 (by omega)

namespace IsSquareOf

/-- The value of a square of a number with a small exponent. -/
theorem value_le (h : IsSquareOf p x) (hzero : isZero x = false)
    (hsmall : (magnitude x).value ≤ 2 ^ (-448 : Int)) (hfinite : x.isFinite = true) :
    p.isFinite = true ∧ (magnitude p).value ≤ 2 ^ (-894 : Int) := by
  have hsize : (magnitude x).value < 2 ^ 512 :=
    hsmall.trans_lt ((zpow_lt_zpow_right₀ one_lt_two (by decide)).trans_eq (zpow_natCast 2 512))
  obtain ⟨hpfinite, q, k, t, hrounds, hvalue, -, hhigh⟩ := h.exists_roundsTo hfinite hzero hsize
  refine ⟨hpfinite, ?_⟩
  rw [hvalue]
  rcases hrounds.significand_full with hfull | rfl
  · have hunit : (0 : ℚ) < 2 ^ t := by positivity
    have hquotient : q ≤ 2 * (2 ^ (-448 : Int)) ^ 2 := by
      have hsquare := pow_le_pow_left₀ (value_nonneg _) hsmall 2
      have hnonneg := sq_nonneg (magnitude x).value
      linarith
    have hpower : (2 : ℚ) ^ (-894 : Int) = 4 * (2 ^ (-448 : Int)) ^ 2 := by
      rw [two_zpow_sq, show (4 : ℚ) = 2 ^ (2 : Int) by norm_num, ← zpow_add₀ two_ne_zero]
      rfl
    have hone : (1 : ℚ) ≤ k := by exact_mod_cast Nat.le_trans (by decide) hfull
    have hproduct := mul_le_mul_of_nonneg_right hone hunit.le
    have hlow := hrounds.low
    rw [hpower]
    linarith
  · have hk : (k : ℚ) ≤ 2 ^ (53 : Int) := by exact_mod_cast hrounds.significand_le
    calc (k : ℚ) * 2 ^ (-1074 : Int) ≤ 2 ^ (53 : Int) * 2 ^ (-1074 : Int) :=
          mul_le_mul_of_nonneg_right hk (by positivity)
      _ = 2 ^ (53 + -1074 : Int) := (zpow_add₀ two_ne_zero _ _).symm
      _ ≤ 2 ^ (-894 : Int) := zpow_le_zpow_right₀ one_le_two (by decide)

/-- Where the square comes near to an underflow, its root stays tiny. -/
theorem isTiny_sqrt (h : IsSquareOf p x) (hx : x.isFinite = true)
    (hexponent : (magnitude x).exponent < -500) : IsTiny p.sqrt := by
  cases hzero : isZero x with
  | true =>
      rw [h.eq_zero hzero]
      exact .inl rfl
  | false =>
      have hsmall : (magnitude x).value ≤ 2 ^ (-448 : Int) := by
        have hsignificand : ((magnitude x).significand : ℚ) ≤ 2 ^ (53 : Int) := by
          exact_mod_cast (isLegal_magnitude hx).lt.le
        have hpower : (2 : ℚ) ^ (magnitude x).exponent ≤ 2 ^ (-501 : Int) :=
          zpow_le_zpow_right₀ one_le_two (by omega)
        exact (mul_le_mul hsignificand hpower (by positivity) (by positivity)).trans_eq
          (zpow_add₀ two_ne_zero 53 (-501)).symm
      obtain ⟨hfinite, hvalue⟩ := h.value_le hzero hsmall hx
      exact Double.isTiny_sqrt hfinite h.isNegative_eq_false hvalue

/-- The root of the square of a number lies below a bound exactly if the number does, for all bounds
that are not tiny themselves. -/
theorem sqrt_lt_iff {y : Float} (h : IsSquareOf p x) (hx : x.isFinite = true)
    (hneg : isNegative x = false) (hsize : (magnitude x).value < 2 ^ 512) (hy : 1e-100 ≤ y) :
    p.sqrt < y ↔ x < y := by
  rcases lt_or_ge (magnitude x).exponent (-500) with hsmall | hlarge
  · exact iff_of_true ((h.isTiny_sqrt hx hsmall).lt hy)
      ((isTiny_of_exponent hx hneg (by omega)).lt hy)
  · rw [h.sqrt_eq hx hneg hlarge hsize]

end IsSquareOf

end Reckoner.Double
