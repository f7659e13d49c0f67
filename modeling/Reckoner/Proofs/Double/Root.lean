import Reckoner.Proofs.Double.Magnitude
import Reckoner.Proofs.Double.Quotient

/-!
# Roots

A root is computed with 53 bits, of a radicand in units of a square, and rounded once. So the root
of what is nearer to the square of a double than half a unit of the double is that double.
-/

namespace Reckoner.Double

open Float.Model Float.Model.UnpackedFloat

/-! ## Roots of whole numbers -/

/-- The whole number nearest to a root. -/
def nearestRoot (n : Nat) : Nat :=
  if n - n.sqrt * n.sqrt ≤ n.sqrt then n.sqrt else n.sqrt + 1

theorem nearestRoot_bounds {n : Nat} (hn : 0 < n) :
    n ≤ nearestRoot n * nearestRoot n + nearestRoot n ∧
      nearestRoot n * nearestRoot n < n + nearestRoot n := by
  have hle := Nat.sqrt_le n
  have hlt := Nat.lt_succ_sqrt n
  have hpos := Nat.sqrt_pos.mpr hn
  have hnext : n.sqrt.succ * n.sqrt.succ = n.sqrt * n.sqrt + 2 * n.sqrt + 1 := by
    rw [Nat.succ_eq_add_one]
    ring
  rw [hnext] at hlt
  unfold nearestRoot
  split
  case isTrue => omega
  case isFalse =>
      have hsquare : (n.sqrt + 1) * (n.sqrt + 1) = n.sqrt * n.sqrt + 2 * n.sqrt + 1 := hnext
      omega

theorem le_of_square {n j k : Nat} (hj : n ≤ j * j + j) (hk : k * k < n + k) : k ≤ j := by
  by_contra hmore
  have hnext : j + 1 ≤ k := by omega
  have hsquare : (j + 1) * k ≤ k * k := Nat.mul_le_mul_right k hnext
  have hproduct : j * (j + 1) ≤ j * k := Nat.mul_le_mul_left j hnext
  rw [Nat.add_mul] at hsquare
  rw [Nat.mul_add] at hproduct
  omega

/-- Within half a unit of a square only the number itself is the nearest root. -/
theorem nearestRoot_eq {n k : Nat} (hlow : k * k < n + k) (hhigh : n ≤ k * k + k) :
    nearestRoot n = k := by
  rcases Nat.eq_zero_or_pos n with rfl | hn
  · exact absurd (Nat.le_mul_self k) (by omega)
  · obtain ⟨hhigh', hlow'⟩ := nearestRoot_bounds hn
    exact Nat.le_antisymm (le_of_square hhigh hlow') (le_of_square hhigh' hlow)

/-! ## Rounding -/

/-- A mantissa of 53 bits fits at its exponent. -/
theorem shiftToTargetExponent_of_full {m : Nat} {t : Int} (acc : Accuracy) (hlow : 2 ^ 52 ≤ m)
    (hhigh : m < 2 ^ 53) (ht : -1074 ≤ t) :
    shiftToTargetExponent Format.binary64 m t acc = (.ofMantissaAndAccuracy m acc, t) := by
  obtain ⟨n, hshift, -, hlt, hfull⟩ := exists_shiftToTargetExponent acc (.inl hlow : _ ∨ t ≤ -1074)
  obtain rfl : n = 0 := by
    by_contra hne
    have hhalf : m / 2 ^ n ≤ m / 2 ^ 1 :=
      Nat.div_le_div_left (Nat.pow_le_pow_right (by decide) (by omega)) (by decide)
    omega
  rwa [Int.natCast_zero, Int.add_zero] at hshift

/-- The accuracy of a truncated root. -/
def rootAccuracy (n : Nat) : Accuracy :=
  if n - n.sqrt * n.sqrt = 0 then .exact
  else .inexact (if n - n.sqrt * n.sqrt ≤ n.sqrt then .lt else .gt)

/-- A truncated root is rounded to the nearest one. -/
theorem roundedMantissa_sqrt (n : Nat) :
    (ExtendedMantissa.ofMantissaAndAccuracy n.sqrt (rootAccuracy n)).roundedMantissa =
      nearestRoot n := by
  unfold rootAccuracy nearestRoot
  by_cases hexact : n - n.sqrt * n.sqrt = 0
  · rw [if_pos hexact, if_pos (by omega)]
    rfl
  · rw [if_neg hexact]
    split <;> rfl

/-- A carry leaves a power of two. -/
theorem exists_shiftToTargetExponent_carry {t : Int} (ht : -1074 ≤ t) :
    ∃ em, shiftToTargetExponent Format.binary64 (2 ^ 53) t .exact = (em, t + 1) ∧
      em.mantissa = 2 ^ 52 := by
  obtain ⟨n, hshift, -, hlt, hfull⟩ :=
    exists_shiftToTargetExponent (m := 2 ^ 53) (e := t) .exact (.inl (by decide))
  obtain rfl : n = 1 := by
    rcases Nat.lt_or_ge 1 n with hmore | hless
    · have hquarter : 2 ^ 53 / 2 ^ n ≤ 2 ^ 53 / 2 ^ 2 :=
        Nat.div_le_div_left (Nat.pow_le_pow_right (by decide) hmore) (by decide)
      omega
    · obtain rfl | rfl := Nat.le_one_iff_eq_zero_or_eq_one.mp hless
      · exact absurd hlt (by decide)
      · rfl
  exact ⟨_, hshift, mantissa_shiftRight _ 1⟩

/-- A root in the normal form of doubles: the nearest root, unless that takes one bit more. -/
structure IsRoot (n : Nat) (t : Int) (k : Nat) (t' : Int) : Prop where
  low : 2 ^ 52 ≤ k
  high : k < 2 ^ 53
  eq : t' = t ∧ k = nearestRoot n ∨ t' = t + 1 ∧ nearestRoot n = 2 ^ 53

theorem exists_roundWithAccuracy_sqrt {n : Nat} {t : Int} (hlow : 2 ^ 104 ≤ n) (hhigh : n < 2 ^ 106)
    (ht : -1074 ≤ t) :
    ∃ k t' hk, roundWithAccuracy Format.binary64 .positive n.sqrt t (rootAccuracy n) =
      .finite .positive k t' hk ∧ IsRoot n t k t' := by
  have hroot : 2 ^ 52 ≤ n.sqrt := Nat.le_sqrt.mpr (Nat.le_trans (by decide) hlow)
  have hroot' : n.sqrt < 2 ^ 53 := Nat.sqrt_lt.mpr (Nat.lt_of_lt_of_le hhigh (by decide))
  have hfirst := shiftToTargetExponent_of_full (rootAccuracy n) hroot hroot' ht
  have hrounded := roundedMantissa_sqrt n
  have hnearest : n.sqrt ≤ nearestRoot n ∧ nearestRoot n ≤ n.sqrt + 1 := by
    unfold nearestRoot
    split <;> omega
  unfold roundWithAccuracy
  simp only [hfirst, hrounded]
  by_cases hcarry : nearestRoot n < 2 ^ 53
  · have hsecond := shiftToTargetExponent_of_full .exact (by omega) hcarry ht
    have hpos : ¬nearestRoot n = 0 := by omega
    simp only [hsecond]
    exact ⟨nearestRoot n, t, Nat.pos_of_ne_zero hpos, dif_neg hpos,
      ⟨by omega, hcarry, .inl ⟨rfl, rfl⟩⟩⟩
  · have hpower : nearestRoot n = 2 ^ 53 := by omega
    obtain ⟨em, hsecond, hmantissa⟩ := exists_shiftToTargetExponent_carry ht
    have hpos : ¬em.mantissa = 0 := by
      rw [hmantissa]
      decide
    simp only [hpower, hsecond]
    exact ⟨em.mantissa, t + 1, Nat.pos_of_ne_zero hpos, dif_neg hpos,
      ⟨hmantissa.ge, hmantissa.trans_lt (by decide), .inr ⟨rfl, hpower⟩⟩⟩

/-! ## Roots of doubles -/

/-- The radicand is taken in units of a square, so that its root has 53 bits. -/
theorem exists_sqrt_finite {m : Nat} {e : Int} (hm : 0 < m) (hlt : m < 2 ^ 53) (he : -1074 ≤ e) :
    ∃ (n : Nat) (t : Int), 2 ^ 104 ≤ n ∧ n < 2 ^ 106 ∧ -1074 ≤ t ∧
      (m : ℚ) * 2 ^ e = n * (2 ^ t) ^ 2 ∧
      ∃ k t' hk, UnpackedFloat.sqrt Format.binary64 (.finite .positive m e hm) =
        .finite .positive k t' hk ∧ IsRoot n t k t' := by
  obtain ⟨hlog, hlog'⟩ := (Nat.log2_eq_iff (Nat.ne_of_gt hm)).mp rfl
  have hnarrow : m.log2 < 53 := (Nat.log2_lt (Nat.ne_of_gt hm)).mpr hlt
  let t : Int := min (e / 2) (max (((m.log2 : Int) + 1 + e + 1) / 2 - 53) (-1074))
  let shift := (e - 2 * t).toNat
  have hsqrt : UnpackedFloat.sqrt Format.binary64 (.finite .positive m e hm) =
      roundWithAccuracy Format.binary64 .positive (m <<< shift).sqrt t
        (rootAccuracy (m <<< shift)) := rfl
  have hexponent : e = shift + 2 * t := by omega
  have hwidth : 104 ≤ m.log2 + shift ∧ m.log2 + 1 + shift ≤ 106 := by omega
  have hlow : 2 ^ 104 ≤ m <<< shift := by
    rw [Nat.shiftLeft_eq]
    calc 2 ^ 104 ≤ 2 ^ (m.log2 + shift) := Nat.pow_le_pow_right (by decide) hwidth.1
      _ = 2 ^ m.log2 * 2 ^ shift := Nat.pow_add _ _ _
      _ ≤ m * 2 ^ shift := Nat.mul_le_mul_right _ hlog
  have hhigh : m <<< shift < 2 ^ 106 := by
    rw [Nat.shiftLeft_eq]
    calc m * 2 ^ shift < 2 ^ (m.log2 + 1) * 2 ^ shift :=
          Nat.mul_lt_mul_of_pos_right hlog' (Nat.two_pow_pos _)
      _ = 2 ^ (m.log2 + 1 + shift) := (Nat.pow_add _ _ _).symm
      _ ≤ 2 ^ 106 := Nat.pow_le_pow_right (by decide) hwidth.2
  refine ⟨m <<< shift, t, hlow, hhigh, by omega, ?_, ?_⟩
  · have hpower : (2 : ℚ) ^ e = 2 ^ shift * (2 ^ t) ^ 2 := by
      rw [hexponent, zpow_add₀ two_ne_zero, zpow_natCast, two_mul, zpow_add₀ two_ne_zero, sq]
    rw [hpower, Nat.shiftLeft_eq]
    push_cast
    ring
  · rw [hsqrt]
    exact exists_roundWithAccuracy_sqrt hlow hhigh (by omega)

/-- A root is computed of a radicand and rounded. -/
theorem exists_sqrt {p : Float} (hfinite : p.isFinite = true) (hzero : isZero p = false)
    (hneg : isNegative p = false) :
    ∃ (n : Nat) (t : Int), 2 ^ 104 ≤ n ∧ n < 2 ^ 106 ∧ -1074 ≤ t ∧
      (magnitude p).value = n * (2 ^ t) ^ 2 ∧
      ∃ k t' hk, UnpackedFloat.sqrt Format.binary64 p.toModel.unpack = .finite .positive k t' hk ∧
        IsRoot n t k t' := by
  have hlegal := isLegal_magnitude hfinite
  rw [unpack_of_positive hfinite hzero hneg]
  exact exists_sqrt_finite (significand_pos hzero) hlegal.lt hlegal.least

theorem le_of_scaled {a b : ℚ} {t e : Int} (ha : a < 2 ^ 106) (hb : 2 ^ 104 ≤ b)
    (h : a * (2 ^ t) ^ 2 = b * (2 ^ e) ^ 2) : e ≤ t := by
  by_contra hless
  have hunit : (0 : ℚ) < 2 ^ t := by positivity
  have hdouble : (2 : ℚ) ^ t * 2 ≤ 2 ^ e := by
    rw [← zpow_add_one₀ two_ne_zero]
    exact zpow_le_zpow_right₀ one_le_two (by omega)
  have hsquare : ((2 : ℚ) ^ t * 2) ^ 2 ≤ (2 ^ e) ^ 2 := pow_le_pow_left₀ (by positivity) hdouble 2
  have hscaled := mul_le_mul hb hsquare (by positivity) (by linarith)
  have hstrict := mul_lt_mul_of_pos_right ha (pow_pos hunit 2)
  linarith

/-- The root of what is nearer to a square than half a unit of the root, in units of the square of
the last place. -/
theorem sqrt_eq {p x : Float} {w : ℚ} (hp : p.isFinite = true) (hpneg : isNegative p = false)
    (hx : x.isFinite = true) (hneg : isNegative x = false)
    (hvalue : (magnitude p).value = w * (2 ^ (magnitude x).exponent) ^ 2) (hwide : 2 ^ 104 ≤ w)
    (hlow : ((magnitude x).significand : ℚ) ^ 2 < w + (magnitude x).significand)
    (hhigh : w ≤ ((magnitude x).significand : ℚ) ^ 2 + (magnitude x).significand) :
    p.sqrt = x := by
  have hlt := (isLegal_magnitude hx).lt
  have hnarrow : ((magnitude x).significand : ℚ) ≤ 2 ^ 53 - 1 := by
    have : ((magnitude x).significand : ℚ) + 1 ≤ 2 ^ 53 := by exact_mod_cast hlt
    linarith
  have hwidth : w < 2 ^ 106 := by
    have hsquare := pow_le_pow_left₀ (by positivity) hnarrow 2
    linarith
  have hpzero : isZero p = false := isZero_eq_false (by
    rw [hvalue]
    exact mul_pos (by linarith) (by positivity))
  obtain ⟨n, t, hleast, hmost, -, hradicand, k, t', hk, hsqrt, hroot⟩ :=
    exists_sqrt hp hpzero hpneg
  have hscaled : (n : ℚ) * (2 ^ t) ^ 2 = w * (2 ^ (magnitude x).exponent) ^ 2 :=
    hradicand.symm.trans hvalue
  have hn : (2 ^ 104 : ℚ) ≤ n := by exact_mod_cast hleast
  have hn' : (n : ℚ) < 2 ^ 106 := by exact_mod_cast hmost
  obtain rfl : t = (magnitude x).exponent :=
    Int.le_antisymm (le_of_scaled hwidth hn hscaled.symm) (le_of_scaled hn' hwide hscaled)
  obtain rfl : (n : ℚ) = w := mul_right_cancel₀ (by positivity) hscaled
  have hnearest : nearestRoot n = (magnitude x).significand := by
    rw [sq] at hlow hhigh
    exact nearestRoot_eq (by exact_mod_cast hlow) (by exact_mod_cast hhigh)
  have hresult : UnpackedFloat.sqrt Format.binary64 p.toModel.unpack = x.toModel.unpack := by
    rcases hroot.eq with ⟨rfl, rfl⟩ | ⟨-, hcarry⟩
    · have hzero : isZero x = false := isZero_eq_false (by
        have hpos : (0 : ℚ) < (magnitude x).significand := by exact_mod_cast hnearest ▸ hk
        unfold Magnitude.value
        positivity)
      rw [hsqrt, unpack_of_positive hx hzero hneg]
      simp only [hnearest]
    · omega
  change Float.ofModel (Float.Model.pack (UnpackedFloat.sqrt Format.binary64 p.toModel.unpack)) = x
  rw [hresult]
  exact congrArg Float.ofModel (pack_unpack x)

end Reckoner.Double
