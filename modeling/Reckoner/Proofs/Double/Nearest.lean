import Reckoner.Proofs.Double.Magnitude
import Reckoner.Proofs.Double.Quotient

/-!
# Quotients that are rounded

Rounding takes a quotient to the nearest multiple of a unit, which leaves 53 bits or is the least
one there is. The result is finite below the bound that lies in the middle of the largest double and
the next power of two, and infinite beyond it.
-/

namespace Reckoner.Double

/-- A quotient is rounded to a significand at an exponent. -/
structure RoundsTo (v : ℚ) (k : Nat) (t : Int) : Prop where
  least : -1074 ≤ t
  lt : v < 2 ^ (t + 53)
  le : 2 ^ (t + 52) ≤ v ∨ t = -1074
  low : (2 * k - 1) * 2 ^ t ≤ 2 * v
  high : 2 * v ≤ (2 * k + 1) * 2 ^ t

theorem exists_roundsTo {n d : Nat} (hn : 0 < n) (hd : 0 < d) :
    ∃ k t, RoundsTo (n / d) k t ∧
      ofRatio false n d =
        withSign false (min ((t + 1074).toNat * 2 ^ 52 + k) (0x7FF * twoTo 52)) := by
  obtain ⟨t, htarget, hlow, hhigh⟩ := targetExponent_spec hn hd
  have hrounds := (roundRatio_two_eq_iff (n := n) hd (max t (-1074))).mp rfl
  refine ⟨_, max t (-1074), ⟨le_max_right _ _, ?_, ?_, hrounds.low, hrounds.high⟩,
    ofRatio_of_rounds hn false htarget rfl⟩
  · exact hhigh.trans_le (zpow_le_zpow_right₀ one_le_two (by omega))
  · rcases le_total t (-1074) with hsmall | hlarge
    · exact .inr (max_eq_right hsmall)
    · rw [max_eq_left hlarge]
      exact .inl hlow

namespace RoundsTo

variable {v : ℚ} {k : Nat} {t : Int}

theorem significand_le (h : RoundsTo v k t) : k ≤ 2 ^ 53 := by
  have hunit : (0 : ℚ) < 2 ^ t := by positivity
  have hlow := h.low
  have hlt := h.lt
  rw [two_zpow_add] at hlt
  have hless : (2 * k - 1 : ℚ) < 2 * 2 ^ 53 := by
    refine lt_of_mul_lt_mul_right ?_ hunit.le
    linarith
  have hwhole : 2 * k < 2 * 2 ^ 53 + 1 := by
    have : (2 * k : ℚ) < 2 * 2 ^ 53 + 1 := by linarith
    exact_mod_cast this
  omega

theorem significand_full (h : RoundsTo v k t) : 2 ^ 52 ≤ k ∨ t = -1074 := by
  refine h.le.imp_left fun hle => ?_
  have hunit : (0 : ℚ) < 2 ^ t := by positivity
  have hhigh := h.high
  rw [two_zpow_add] at hle
  have hmore : (2 * 2 ^ 52 : ℚ) ≤ 2 * k + 1 := by
    refine le_of_mul_le_mul_right ?_ hunit
    linarith
  have hwhole : 2 * 2 ^ 52 ≤ 2 * k + 1 := by exact_mod_cast hmore
  omega

theorem lt_overflow_iff_exponent (h : RoundsTo v k t) :
    v < overflow ↔ t ≤ 970 ∨ t = 971 ∧ v < (2 ^ 53 - 1 / 2) * 2 ^ t := by
  have hunit : (0 : ℚ) < 2 ^ t := by positivity
  have hlt := h.lt
  have hle := h.le
  rw [two_zpow_add, ← div_lt_iff₀ hunit] at hlt
  rw [two_zpow_add, ← le_div_iff₀ hunit] at hle
  have hiff := lt_overflow_iff hlt hle
  rwa [div_mul_cancel₀ v hunit.ne', div_lt_iff₀ hunit] at hiff

/-- The bits stay below those of infinity unless the quotient goes beyond the bound. -/
theorem bits_lt (h : RoundsTo v k t) (hv : v < overflow) :
    (t + 1074).toNat * 2 ^ 52 + k < 0x7FF * twoTo 52 := by
  change _ < 0x7FF * 2 ^ 52
  have hunit : (0 : ℚ) < 2 ^ t := by positivity
  have hleast := h.least
  have hsignificand := h.significand_le
  rcases h.lt_overflow_iff_exponent.mp hv with hless | ⟨rfl, hlt⟩
  · omega
  · have hlow := h.low
    have hbound : (2 * k - 1 : ℚ) < 2 * 2 ^ 53 - 1 := by
      refine lt_of_mul_lt_mul_right ?_ hunit.le
      linarith
    have hwhole : k < 2 ^ 53 := by
      have : (k : ℚ) < 2 ^ 53 := by linarith only [hbound]
      exact_mod_cast this
    omega

/-- They reach those of infinity beyond the bound. -/
theorem le_bits (h : RoundsTo v k t) (hv : overflow < v) :
    0x7FF * twoTo 52 ≤ (t + 1074).toNat * 2 ^ 52 + k := by
  change 0x7FF * 2 ^ 52 ≤ _
  have hunit : (0 : ℚ) < 2 ^ t := by positivity
  have hleast := h.least
  have hlarge := h.lt_overflow_iff_exponent.not.mp (not_lt.mpr hv.le)
  rcases (by omega : t = 971 ∨ 972 ≤ t) with rfl | hlarger
  · have hhigh := h.high
    rw [overflow_eq] at hv
    have hbound : (2 * 2 ^ 53 - 1 : ℚ) < 2 * k + 1 := by
      refine lt_of_mul_lt_mul_right ?_ hunit.le
      linarith
    have hwhole : 2 ^ 53 < k + 1 := by
      have : (2 ^ 53 : ℚ) < k + 1 := by linarith only [hbound]
      exact_mod_cast this
    omega
  · have hfull := h.significand_full.resolve_right (by omega)
    omega

end RoundsTo

variable {n d : Nat}

/-- A quotient below the bound is rounded to a finite double. -/
theorem isFinite_ofRatio (hn : 0 < n) (hd : 0 < d) (h : (n / d : ℚ) < overflow) :
    (ofRatio false n d).isFinite = true ∧
      ∃ k t, RoundsTo (n / d) k t ∧ (magnitude (ofRatio false n d)).value = k * 2 ^ t := by
  obtain ⟨k, t, hrounds, hvalue⟩ := exists_roundsTo hn hd
  have hbits := hrounds.bits_lt h
  rw [hvalue, Nat.min_eq_left hbits.le]
  refine ⟨?_, k, t, hrounds, value_withSign hrounds.least hrounds.significand_le
    hrounds.significand_full hbits⟩
  rw [isFinite_iff, exponentBits, toBits_withSign hbits.le]
  have hless : (t + 1074).toNat * 2 ^ 52 + k < 0x7FF * 2 ^ 52 := hbits
  change _ / 2 ^ 52 % 2 ^ 11 ≠ 2047
  omega

/-- A quotient beyond the bound is rounded to infinity. -/
theorem isInf_ofRatio (hn : 0 < n) (hd : 0 < d) (h : overflow < (n / d : ℚ)) :
    (ofRatio false n d).isInf = true := by
  obtain ⟨k, t, hrounds, hvalue⟩ := exists_roundsTo hn hd
  rw [hvalue, Nat.min_eq_right (hrounds.le_bits h)]
  decide

end Reckoner.Double
