import Reckoner.Double.Decimal
import Mathlib.Algebra.Order.Field.Power
import Mathlib.Tactic.FieldSimp
import Mathlib.Tactic.Linarith
import Mathlib.Tactic.Positivity
import Mathlib.Tactic.NormNum
import Mathlib.Tactic.Ring

/-!
# Exact values

Magnitudes, decimals and neighbourhoods as rational numbers. The programs compare whole numbers
that have been brought to a common denominator; here each comparison is one between values.
-/

namespace Reckoner.Double

/-- The exact value of a magnitude. -/
def Magnitude.value (m : Magnitude) : ℚ := m.significand * 2 ^ m.exponent

/-- The exact value of a decimal. -/
def Decimal.value (d : Decimal) : ℚ := d.digits * 10 ^ d.exponent

theorem value_nonneg (m : Magnitude) : 0 ≤ m.value := by
  unfold Magnitude.value
  positivity

/-! ## Powers as quotients -/

/-- A power of two in units of a smaller one. -/
theorem two_zpow_add (t : Int) (n : Nat) [n.AtLeastTwo] :
    (2 : ℚ) ^ (t + OfNat.ofNat n) = 2 ^ (OfNat.ofNat n : Nat) * 2 ^ t := by
  rw [zpow_add₀ two_ne_zero, zpow_ofNat, Rat.mul_comm]

theorem powerRatio_pos {base : Nat} (hbase : 0 < base) (e : Int) :
    0 < (powerRatio base e).1 ∧ 0 < (powerRatio base e).2 :=
  ⟨Nat.pow_pos hbase, Nat.pow_pos hbase⟩

theorem powerRatio_eq {base : Nat} (hbase : 0 < base) (e : Int) :
    ((powerRatio base e).1 : ℚ) = (base : ℚ) ^ e * (powerRatio base e).2 := by
  have hne : (base : ℚ) ≠ 0 := by exact_mod_cast Nat.ne_of_gt hbase
  have hup : ((powerRatio base e).1 : ℚ) = (base : ℚ) ^ (e.toNat : Int) := by
    rw [zpow_natCast, ← Nat.cast_pow]
    rfl
  have hdown : ((powerRatio base e).2 : ℚ) = (base : ℚ) ^ ((-e).toNat : Int) := by
    rw [zpow_natCast, ← Nat.cast_pow]
    rfl
  rw [hup, hdown, ← zpow_add₀ hne]
  congr 1
  omega

theorem powerRatio_two (e : Int) :
    ((powerRatio 2 e).1 : ℚ) = 2 ^ e * (powerRatio 2 e).2 := powerRatio_eq (by decide) e

theorem powerRatio_ten (e : Int) :
    ((powerRatio 10 e).1 : ℚ) = 10 ^ e * (powerRatio 10 e).2 := powerRatio_eq (by decide) e

theorem ratio_value (x : Float) :
    ((ratio x).1 : ℚ) / (ratio x).2 = (magnitude x).value := by
  obtain ⟨hup, hdown⟩ := powerRatio_pos (by decide : 0 < 2) (magnitude x).exponent
  have hpower := powerRatio_two (magnitude x).exponent
  have hne : ((powerRatio 2 (magnitude x).exponent).2 : ℚ) ≠ 0 := by
    exact_mod_cast Nat.ne_of_gt hdown
  change (((magnitude x).significand * (powerRatio 2 (magnitude x).exponent).1 : Nat) : ℚ) /
    (powerRatio 2 (magnitude x).exponent).2 = _
  rw [Nat.cast_mul, hpower, Magnitude.value, ← mul_assoc, mul_div_assoc, div_self hne, mul_one]

/-! ## Doubles -/

/-- The exact value of a finite double. -/
def exact (x : Float) : ℚ :=
  let (numerator, denominator) := ratio x
  mkRat (if isNegative x then -numerator else numerator) denominator

theorem exact_eq (x : Float) :
    exact x = if isNegative x then -(magnitude x).value else (magnitude x).value := by
  change mkRat (if isNegative x then -((ratio x).1 : Int) else (ratio x).1) (ratio x).2 = _
  rw [Rat.mkRat_eq_div, ← ratio_value]
  split
  · rw [Int.cast_neg, Int.cast_natCast, neg_div]
  · rw [Int.cast_natCast]

theorem abs_exact (x : Float) : |exact x| = (magnitude x).value := by
  rw [exact_eq, abs_eq (value_nonneg _)]
  split
  · exact .inr rfl
  · exact .inl rfl

/-! ## Neighbourhoods -/

namespace Neighbourhood

/-- The value lies in the neighbourhood. -/
def Contains (n : Neighbourhood) (v : ℚ) : Prop :=
  (n.low : ℚ) * 2 ^ n.exponent ≤ v ∧ v ≤ (n.high : ℚ) * 2 ^ n.exponent ∧
    (n.closed = false →
      (n.low : ℚ) * 2 ^ n.exponent < v ∧ v < (n.high : ℚ) * 2 ^ n.exponent)

theorem holds_iff (n : Neighbourhood) (d : Decimal) : n.holds d = true ↔ n.Contains d.value := by
  obtain ⟨hup, hdown⟩ := powerRatio_pos (by decide : 0 < 10) d.exponent
  obtain ⟨hup2, hdown2⟩ := powerRatio_pos (by decide : 0 < 2) n.exponent
  have hpower := powerRatio_ten d.exponent
  have hpower2 := powerRatio_two n.exponent
  unfold holds Contains
  dsimp only
  generalize (powerRatio 10 d.exponent).1 = up at *
  generalize (powerRatio 10 d.exponent).2 = down at *
  generalize (powerRatio 2 n.exponent).1 = up2 at *
  generalize (powerRatio 2 n.exponent).2 = down2 at *
  have hscale : (0 : ℚ) < down * down2 := by positivity
  have hmiddle : ((d.digits * up * down2 : Nat) : ℚ) = d.value * (down * down2) := by
    rw [Decimal.value, Nat.cast_mul, Nat.cast_mul, hpower]
    ring
  have hend (k : Nat) : ((k * up2 * down : Nat) : ℚ) = k * 2 ^ n.exponent * (down * down2) := by
    rw [Nat.cast_mul, Nat.cast_mul, hpower2]
    ring
  generalize d.digits * up * down2 = middle at *
  have hle (k : Nat) : k * up2 * down ≤ middle ↔ (k : ℚ) * 2 ^ n.exponent ≤ d.value := by
    rw [← mul_le_mul_iff_left₀ hscale, ← hmiddle, ← hend, Nat.cast_le]
  have hge (k : Nat) : middle ≤ k * up2 * down ↔ d.value ≤ (k : ℚ) * 2 ^ n.exponent := by
    rw [← mul_le_mul_iff_left₀ hscale, ← hmiddle, ← hend, Nat.cast_le]
  have hlt (k : Nat) : k * up2 * down < middle ↔ (k : ℚ) * 2 ^ n.exponent < d.value := by
    rw [← not_le, hge, not_le]
  have hgt (k : Nat) : middle < k * up2 * down ↔ d.value < (k : ℚ) * 2 ^ n.exponent := by
    rw [← not_le, hle, not_le]
  cases n.closed with
  | true =>
      simp [hle, hge]
  | false =>
      simp only [Bool.false_eq_true, if_false, Bool.and_eq_true, decide_eq_true_eq, hlt, hgt,
        true_implies]
      constructor
      · exact fun h => ⟨le_of_lt h.1, le_of_lt h.2, h⟩
      · exact fun h => h.2.2

end Neighbourhood

end Reckoner.Double
