import Reckoner.Proofs.Double.Places
import Reckoner.Proofs.Double.Root

/-!
# Sums of doubles

A mantissa at an exponent is rounded as the quotient that it is. So the sum of finite doubles is the
exact sum, rounded once: `add_eq_ofRatio`. No number of 53 bits is nearer to the exact sum, which
keeps every bound that is such a number, and a sum that is one is exact.
-/

namespace Reckoner.Double

open Float.Model Float.Model.UnpackedFloat

/-! ## Rounding a mantissa -/

/-- The residual bits round a mantissa to the nearest whole number. -/
theorem Holds.roundsIn {em : ExtendedMantissa} {v : ℚ} (h : Holds em v) :
    RoundsIn v em.roundedMantissa 1 := by
  have hle := h.le
  have hlt := h.lt
  have hround := h.round
  have hsticky := h.sticky
  obtain ⟨m, round, sticky⟩ := em
  dsimp only at hle hlt hround hsticky
  cases round with
  | false =>
      have hhalf : v < m + 1 / 2 := by simpa using hround
      have hdown : ExtendedMantissa.roundedMantissa ⟨m, false, sticky⟩ = m := by
        cases sticky <;> rfl
      rw [hdown]
      exact ⟨by linarith, by linarith, fun _ => ⟨by linarith, by linarith⟩⟩
  | true =>
      have hhalf : m + 1 / 2 ≤ v := by simpa using hround
      cases sticky with
      | true =>
          obtain ⟨-, hne⟩ := hsticky.mp rfl
          have hmore : m + 1 / 2 < v := lt_of_le_of_ne hhalf (Ne.symm hne)
          change RoundsIn v (m + 1) 1
          exact ⟨by push_cast; linarith, by push_cast; linarith,
            fun _ => ⟨by push_cast; linarith, by push_cast; linarith⟩⟩
      | false =>
          have hmiddle : v = m + 1 / 2 := by
            by_contra hne
            exact Bool.false_ne_true (hsticky.mpr ⟨by linarith, hne⟩)
          change RoundsIn v (m + m % 2) 1
          subst hmiddle
          rcases Nat.mod_two_eq_zero_or_one m with heven | hodd
          · rw [heven, Nat.add_zero]
            exact ⟨by linarith, by linarith, fun hodd => by omega⟩
          · rw [hodd]
            exact ⟨by push_cast; linarith, by push_cast; linarith, fun hodd => by omega⟩

theorem RoundsIn.scale {v u : ℚ} {k : Nat} (h : RoundsIn v k 1) (hu : 0 < u) :
    RoundsIn (v * u) k u := by
  obtain ⟨hlow, hhigh, hodd⟩ := h
  rw [mul_one] at hlow hhigh hodd
  have hdouble : 2 * (v * u) = 2 * v * u := by ring
  refine ⟨?_, ?_, fun h => ?_⟩ <;> rw [hdouble]
  · exact mul_le_mul_of_nonneg_right hlow hu.le
  · exact mul_le_mul_of_nonneg_right hhigh hu.le
  · have ⟨hlow, hhigh⟩ := hodd h
    rw [mul_one] at hhigh
    exact ⟨mul_lt_mul_of_pos_right hlow hu, mul_lt_mul_of_pos_right hhigh hu⟩

/-! ## Packing -/

theorem toNat_toBits_inj {x y : Float} : x.toBits.toNat = y.toBits.toNat ↔ x = y := by
  refine ⟨fun h => ?_, fun h => h ▸ rfl⟩
  rw [← ofBits_toBits x, UInt64.toNat_inj.mp h, ofBits_toBits]

theorem toNat_toBits_withSign (s : Sign) {n : Nat} (h : n ≤ 0x7FF * twoTo 52) :
    (withSign (s == .negative) n).toBits.toNat = s.toBitVec.toNat * 2 ^ 63 + n := by
  have hle : n ≤ 0x7FF * 2 ^ 52 := h
  cases s with
  | positive =>
      change (withSign false n).toBits.toNat = 0 * 2 ^ 63 + n
      rw [toBits_withSign h, Nat.zero_mul, Nat.zero_add]
  | negative =>
      have hsign : twoTo 63 = 2 ^ 63 := rfl
      change (withSign true n).toBits.toNat = 1 * 2 ^ 63 + n
      rw [withSign, if_pos rfl, hsign, toBits_ofBits (by omega) (by omega), Nat.one_mul,
        Nat.add_comm]

/-- A significand that fits at its exponent is packed into its bits, or into those of infinity. -/
theorem ofModel_pack_finite (s : Sign) {k : Nat} {t : Int} (hk : 0 < k) (hlt : k < 2 ^ 53)
    (ht : -1074 ≤ t) (hfull : 2 ^ 52 ≤ k ∨ t = -1074) :
    Float.ofModel (Float.Model.pack (.finite s k t hk)) =
      withSign (s == .negative) (min ((t + 1074).toNat * 2 ^ 52 + k) (0x7FF * twoTo 52)) := by
  have hinfinity : 0x7FF * twoTo 52 = 0x7FF * 2 ^ 52 := rfl
  rw [← toNat_toBits_inj, toNat_toBits_withSign s (Nat.min_le_right _ _)]
  change (UnpackedFloat.pack Format.binary64 (.finite s k t hk)).toNat = _
  rcases Nat.lt_or_ge k (2 ^ 52) with hsmall | hlarge
  · obtain rfl : t = -1074 := hfull.resolve_left (by omega)
    rw [pack_subnormal s hk ((Nat.log2_lt (Nat.ne_of_gt hk)).mpr hsmall), toNat_packComponents,
      BitVec.toNat_ofNat, BitVec.toNat_ofNat]
    omega
  · have hlog : k.log2 = 52 := (Nat.log2_eq_iff (Nat.ne_of_gt hk)).mpr ⟨hlarge, hlt⟩
    obtain ⟨e, rfl⟩ : ∃ e : Nat, t = (e : Int) - 1075 := ⟨(t + 1075).toNat, by omega⟩
    rcases Nat.lt_or_ge e 2047 with hfits | hwide
    · rw [pack_normal s hk hlog hfits, toNat_packComponents, BitVec.toNat_ofNat, BitVec.toNat_ofNat]
      omega
    · have hpack : UnpackedFloat.pack Format.binary64 (.finite s k ((e : Int) - 1075) hk) =
          packComponents Format.binary64 s (-1#11) 0#52 := by
        unfold UnpackedFloat.pack
        refine if_pos ?_
        change 2048 ≤ ((e : Int) - 1075 + (1023 : Nat) + (52 : Nat)).toNat + 1
        omega
      rw [hpack, toNat_packComponents]
      change _ * 2 ^ 63 + 2047 * 2 ^ 52 + 0 = _
      omega

/-- A carry only moves a bit into the exponent. -/
theorem shiftToTargetExponent_exact {k : Nat} {t : Int} (hk : k ≤ 2 ^ 53) (ht : -1074 ≤ t)
    (hfull : 2 ^ 52 ≤ k ∨ t = -1074) {em : ExtendedMantissa} {e : Int}
    (h : shiftToTargetExponent Format.binary64 k t .exact = (em, e)) :
    em.mantissa < 2 ^ 53 ∧ -1074 ≤ e ∧ (2 ^ 52 ≤ em.mantissa ∨ e = -1074) ∧
      (e + 1074).toNat * 2 ^ 52 + em.mantissa = (t + 1074).toNat * 2 ^ 52 + k := by
  obtain ⟨n, hshift, hleast, hlt, hwide⟩ :=
    exists_shiftToTargetExponent .exact (hfull.imp_right Int.le_of_eq)
  have hexponent := (shiftToTargetExponent_carry hk ht hfull h).2
  obtain ⟨rfl, rfl⟩ := Prod.mk.inj (hshift.symm.trans h)
  rw [mantissa_shiftRight]
  change k / 2 ^ n < 2 ^ 53 ∧ _ ∧ (2 ^ 52 ≤ k / 2 ^ n ∨ _) ∧ _ + k / 2 ^ n = _
  refine ⟨hlt, hleast, hwide, ?_⟩
  split at hexponent
  case isTrue =>
      obtain rfl : n = 0 := by omega
      rw [Nat.pow_zero, Nat.div_one, Int.natCast_zero, Int.add_zero]
  case isFalse =>
      obtain rfl : n = 1 := by omega
      obtain rfl : k = 2 ^ 53 := by omega
      omega

theorem Holds.of_exact (m : Nat) : Holds (.ofMantissaAndAccuracy m .exact) m := by
  refine ⟨le_refl _, lt_add_one _, iff_of_false Bool.false_ne_true ?_,
    iff_of_false Bool.false_ne_true fun h => h.1 rfl⟩
  change ¬(m + 1 / 2 : ℚ) ≤ m
  linarith

/-- The exponent at which a mantissa fits is that of the rounded quotient. -/
theorem Holds.targetExponent_eq {em : ExtendedMantissa} {v : ℚ} (h : Holds em v) {n d : Nat}
    (hn : 0 < n) (hd : 0 < d) {t : Int} (hvalue : (n / d : ℚ) = v * 2 ^ t) (ht : -1074 ≤ t)
    (hlt : em.mantissa < 2 ^ 53) (hfull : 2 ^ 52 ≤ em.mantissa ∨ t = -1074) :
    targetExponent n d = t := by
  have hunit : (0 : ℚ) < 2 ^ t := by positivity
  refine Double.targetExponent_eq hn hd ht ?_ (hfull.imp_left fun hwide => ?_)
  · have hhigh : v < 2 ^ 53 := h.lt.trans_le (by exact_mod_cast hlt)
    rw [hvalue, two_zpow_add]
    exact mul_lt_mul_of_pos_right hhigh hunit
  · have hlow : 2 ^ 52 ≤ v := le_trans (by exact_mod_cast hwide) h.le
    rw [hvalue, two_zpow_add]
    exact mul_le_mul_of_nonneg_right hlow hunit.le

/-- A mantissa with residual bits is rounded as the quotient that it holds. -/
theorem ofModel_pack_roundWithAccuracy (s : Sign) {m : Nat} {e : Int} {acc : Accuracy} {v : ℚ}
    (h : Holds (.ofMantissaAndAccuracy m acc) v) (hfits : 2 ^ 52 ≤ m ∨ e ≤ -1074) {n d : Nat}
    (hn : 0 < n) (hd : 0 < d) (hvalue : (n / d : ℚ) = v * 2 ^ e) :
    Float.ofModel (Float.Model.pack (roundWithAccuracy Format.binary64 s m e acc)) =
      ofRatio (s == .negative) n d := by
  obtain ⟨em, t, w, hfirst, hholds, hshifted, hleast, hlt, hfull⟩ := h.exists_shifted hfits
  have hquotient : (n / d : ℚ) = w * 2 ^ t := hvalue.trans hshifted
  have htarget := hholds.targetExponent_eq hn hd hquotient hleast hlt hfull
  have hrounds : RoundsIn (n / d) em.roundedMantissa (2 ^ t) := by
    rw [hquotient]
    exact hholds.roundsIn.scale (by positivity)
  rw [ofRatio_of_rounds hn _ htarget ((roundRatio_two_eq_iff hd t).mpr hrounds)]
  obtain ⟨hk, hkfull⟩ := roundedMantissa_fits hlt hfull
  unfold roundWithAccuracy
  cases hsecond : shiftToTargetExponent Format.binary64 em.roundedMantissa t .exact with
  | mk final e' =>
  obtain ⟨hfinal, hleast', hfull', hbits⟩ := shiftToTargetExponent_exact hk hleast hkfull hsecond
  simp only [hfirst, hsecond]
  split
  case isTrue hzero =>
      rw [hzero] at hfull' hbits
      obtain rfl : e' = -1074 := hfull'.resolve_left (by decide)
      rw [← hbits]
      cases s <;> rfl
  case isFalse => rw [ofModel_pack_finite s _ hfinal hleast' hfull', hbits]

/-- A mantissa at an exponent is rounded as the quotient that it is. -/
theorem ofModel_pack_round (s : Sign) {m : Nat} (hm : 0 < m) (e : Int) {n d : Nat} (hn : 0 < n)
    (hd : 0 < d) (hvalue : (n / d : ℚ) = m * 2 ^ e) :
    Float.ofModel (Float.Model.pack (UnpackedFloat.round Format.binary64 s m e)) =
      ofRatio (s == .negative) n d := by
  let target : Int := max ((m.log2 : Int) + 1 + e - 53) (-1074)
  let shift := (e - target).toNat
  change Float.ofModel (Float.Model.pack
    (roundWithAccuracy Format.binary64 s (m <<< shift) (e - shift) .exact)) = _
  refine ofModel_pack_roundWithAccuracy s (Holds.of_exact _) ?_ hn hd ?_
  · by_cases hleast : e - shift ≤ -1074
    · exact .inr hleast
    · have hwidth : 52 ≤ m.log2 + shift := by omega
      left
      calc 2 ^ 52 ≤ 2 ^ (m.log2 + shift) := Nat.pow_le_pow_right (by decide) hwidth
        _ = 2 ^ m.log2 * 2 ^ shift := Nat.pow_add _ _ _
        _ ≤ m * 2 ^ shift := Nat.mul_le_mul_right _ (Nat.log2_self_le (Nat.ne_of_gt hm))
        _ = m <<< shift := (Nat.shiftLeft_eq _ _).symm
  · rw [hvalue, Nat.shiftLeft_eq, Nat.cast_mul, Nat.cast_pow, Nat.cast_ofNat, zpow_sub₀ two_ne_zero,
      zpow_natCast]
    field_simp

/-! ## Exact values -/

variable {x y : Float}

theorem exact_of_isZero (h : isZero x = true) : exact x = 0 := by
  rw [exact_eq, value_eq_zero h, neg_zero, ite_self]

theorem isZero_iff_exact : isZero x = true ↔ exact x = 0 := by
  refine ⟨exact_of_isZero, fun h => ?_⟩
  by_contra hzero
  have hpos := value_pos (Bool.not_eq_true _ ▸ hzero)
  rw [← abs_exact, h, abs_zero] at hpos
  exact lt_irrefl 0 hpos

/-- The sign of a double that is no zero is that of its value. -/
theorem exact_neg_iff (hzero : isZero x = false) : exact x < 0 ↔ isNegative x = true := by
  have hpos := value_pos hzero
  rw [exact_eq]
  split
  case isTrue hneg => exact iff_of_true (neg_lt_zero.mpr hpos) hneg
  case isFalse hneg => exact iff_of_false (not_lt.mpr hpos.le) hneg

theorem exact_ofRatio (negative : Bool) (n d : Nat) :
    exact (ofRatio negative n d) = if negative then -(magnitude (ofRatio false n d)).value
      else (magnitude (ofRatio false n d)).value := by
  obtain ⟨bits, hbits, hvalue⟩ := exists_bits_ofRatio n d
  rw [hvalue, hvalue]
  cases negative with
  | false => rw [exact_eq, isNegative_withSign hbits]
  | true =>
      have hnan := isNaN_withSign hbits
      rw [exact_eq, withSign_true hbits, isNegative_neg hnan, isNegative_withSign hbits,
        Expr.magnitude_neg hnan]
      rfl

/-- What is rounded to the neighbourhood of a double is the double. -/
theorem ofRatio_eq_self (hx : x.isFinite = true) (hzero : isZero x = false) {n d : Nat}
    (hd : 0 < d) (h : (neighbourhood (magnitude x)).Contains (n / d)) :
    ofRatio (decide (exact x < 0)) n d = x := by
  have hlegal := isLegal_magnitude hx
  have hbits : (magnitude x).bits ≤ 0x7FF * twoTo 52 := hlegal.bits_le
  have hsign : decide (exact x < 0) = isNegative x := by
    rw [Bool.eq_iff_iff, decide_eq_true_iff, exact_neg_iff hzero]
  rw [ofRatio_eq hlegal (significand_pos hzero) hd h, hsign]
  cases hneg : isNegative x with
  | false => rw [bits_magnitude, withSign_magnitude x hneg]
  | true =>
      have hnan := isNaN_eq_false hx
      have hopposite : isNegative (-x) = false := by rw [isNegative_neg hnan, hneg]; rfl
      rw [withSign_true hbits, ← Expr.magnitude_neg hnan, bits_magnitude,
        withSign_magnitude (-x) hopposite, neg_neg]

/-- A finite double that is no zero unpacks to its value. -/
theorem exists_unpack_eq (hx : x.isFinite = true) (hzero : isZero x = false) :
    ∃ s m e hm, x.toModel.unpack = .finite s m e hm ∧ exact x = (s.apply m : Int) * 2 ^ e := by
  refine ⟨_, _, _, _, unpack_eq_magnitude hx hzero, ?_⟩
  rw [exact_eq]
  cases isNegative x with
  | false => exact congrArg (· * _) (Int.cast_natCast _).symm
  | true =>
      change -(_ * _ : ℚ) = ((-((magnitude x).significand : Int) : Int) : ℚ) * _
      rw [Int.cast_neg, Int.cast_natCast, neg_mul]

/-! ## Adding -/

theorem apply_decreaseExponent (s : Sign) (m : Nat) {e t : Int} (ht : t ≤ e) :
    (s.apply ((decreaseExponent m e t).1 : Int) : ℚ) * 2 ^ t = (s.apply (m : Int) : Int) * 2 ^ e := by
  have hshift : (2 : ℚ) ^ e = 2 ^ (e - t).toNat * 2 ^ t := by
    rw [← zpow_natCast, ← zpow_add₀ two_ne_zero]
    congr 1
    omega
  have hmantissa : (decreaseExponent m e t).1 = m * 2 ^ (e - t).toNat := Nat.shiftLeft_eq _ _
  rw [hmantissa, hshift]
  cases s <;> simp only [Sign.apply] <;> push_cast <;> ring

/-- A whole number of either sign at an exponent is rounded as its size. -/
theorem ofModel_pack_normalize {m : Int} (hm : m ≠ 0) (e : Int) {n d : Nat} (hn : 0 < n)
    (hd : 0 < d) (hvalue : (n / d : ℚ) = |(m * 2 ^ e : ℚ)|) :
    Float.ofModel (Float.Model.pack (UnpackedFloat.normalize Format.binary64 m e .positive)) =
      ofRatio (decide ((m * 2 ^ e : ℚ) < 0)) n d := by
  have hunit : (0 : ℚ) < 2 ^ e := by positivity
  have hsize : |(m * 2 ^ e : ℚ)| = m.natAbs * 2 ^ e := by
    rw [abs_mul, abs_of_pos hunit, Nat.cast_natAbs, Int.cast_abs]
  rw [hsize] at hvalue
  unfold UnpackedFloat.normalize
  cases hsign : compare m 0 with
  | eq => exact absurd (compare_eq_iff_eq.mp hsign) hm
  | lt =>
      have hneg : m < 0 := Int.compare_eq_lt.mp hsign
      have hless : (m * 2 ^ e : ℚ) < 0 := mul_neg_of_neg_of_pos (by exact_mod_cast hneg) hunit
      have habs : (-m).toNat = m.natAbs := by omega
      simp only [habs, decide_eq_true hless]
      exact ofModel_pack_round .negative (Int.natAbs_pos.mpr hm) e hn hd hvalue
  | gt =>
      have hpos : 0 < m := Int.compare_eq_gt.mp hsign
      have hmore : ¬(m * 2 ^ e : ℚ) < 0 :=
        not_lt.mpr (mul_nonneg (by exact_mod_cast hpos.le) hunit.le)
      have habs : m.toNat = m.natAbs := by omega
      simp only [habs, decide_eq_false hmore]
      exact ofModel_pack_round .positive (Int.natAbs_pos.mpr hm) e hn hd hvalue

theorem add_of_isZero (hx : x.isFinite = true) (hzero : isZero x = false) (hy : isZero y = true) :
    x + y = x ∧ y + x = x := by
  obtain ⟨s, m, e, hm, hunpack, -⟩ := exists_unpack_eq hx hzero
  obtain ⟨s', hy⟩ := isZero_iff_unpack.mp hy
  constructor
  · apply add_eq_of_unpack
    rw [hunpack, hy]
    rfl
  · apply add_eq_of_unpack
    rw [hunpack, hy]
    rfl

/-- Two doubles that are no zeros are added as whole numbers at the smaller exponent. -/
theorem exists_add_eq_normalize (hx : x.isFinite = true) (hxzero : isZero x = false)
    (hy : y.isFinite = true) (hyzero : isZero y = false) :
    ∃ m e : Int, exact x + exact y = m * 2 ^ e ∧ x + y = Float.ofModel (Float.Model.pack
      (UnpackedFloat.normalize Format.binary64 m e .positive)) := by
  obtain ⟨s₁, m₁, e₁, hm₁, hunpack₁, hvalue₁⟩ := exists_unpack_eq hx hxzero
  obtain ⟨s₂, m₂, e₂, hm₂, hunpack₂, hvalue₂⟩ := exists_unpack_eq hy hyzero
  refine ⟨s₁.apply (decreaseExponent m₁ e₁ (min e₁ e₂)).1 +
    s₂.apply (decreaseExponent m₂ e₂ (min e₁ e₂)).1, min e₁ e₂, ?_, ?_⟩
  · rw [hvalue₁, hvalue₂, ← apply_decreaseExponent s₁ m₁ (min_le_left e₁ e₂),
      ← apply_decreaseExponent s₂ m₂ (min_le_right e₁ e₂), ← add_mul, ← Int.cast_add]
  · change Float.ofModel (Float.Model.pack (UnpackedFloat.add Format.binary64
      x.toModel.unpack y.toModel.unpack)) = _
    rw [hunpack₁, hunpack₂]
    rfl

theorem contains_of_abs (hx : x.isFinite = true) (hzero : isZero x = false) {v : ℚ}
    (h : v = |exact x|) : (neighbourhood (magnitude x)).Contains v := by
  rw [h, abs_exact]
  exact contains_value (isLegal_magnitude hx) (significand_pos hzero)

/-- A sum of finite doubles is the exact sum, rounded once. -/
theorem add_eq_ofRatio (hx : x.isFinite = true) (hy : y.isFinite = true) {n d : Nat} (hn : 0 < n)
    (hd : 0 < d) (h : (n / d : ℚ) = |exact x + exact y|) :
    x + y = ofRatio (decide (exact x + exact y < 0)) n d := by
  have hpos : (0 : ℚ) < n / d := by positivity
  cases hxzero : isZero x with
  | true =>
      rw [exact_of_isZero hxzero, Rat.zero_add] at h ⊢
      have hyzero : isZero y = false := by
        rw [← Bool.not_eq_true, isZero_iff_exact]
        intro hzero
        rw [h, hzero, abs_zero] at hpos
        exact lt_irrefl 0 hpos
      rw [ofRatio_eq_self hy hyzero hd (contains_of_abs hy hyzero h)]
      exact (add_of_isZero hy hyzero hxzero).2
  | false =>
      cases hyzero : isZero y with
      | true =>
          rw [exact_of_isZero hyzero, Rat.add_zero] at h ⊢
          rw [ofRatio_eq_self hx hxzero hd (contains_of_abs hx hxzero h)]
          exact (add_of_isZero hx hxzero hyzero).1
      | false =>
          obtain ⟨m, e, hsum, hadd⟩ := exists_add_eq_normalize hx hxzero hy hyzero
          have hm : m ≠ 0 := by
            rintro rfl
            rw [h, hsum, Int.cast_zero, zero_mul, abs_zero] at hpos
            exact lt_irrefl 0 hpos
          rw [hsum] at h ⊢
          rw [hadd, ofModel_pack_normalize hm e hn hd h]

/-- A sum that is exactly zero is a zero. -/
theorem isZero_add (hx : x.isFinite = true) (hy : y.isFinite = true) (h : exact x + exact y = 0) :
    isZero (x + y) = true := by
  have hopposite : exact y = -exact x := by linarith
  have hzeros : isZero x = isZero y := by
    rw [Bool.eq_iff_iff, isZero_iff_exact, isZero_iff_exact, hopposite, neg_eq_zero]
  cases hzero : isZero x with
  | true =>
      obtain ⟨s, hs⟩ := isZero_iff_unpack.mp hzero
      obtain ⟨s', hs'⟩ := isZero_iff_unpack.mp (hzeros.symm.trans hzero)
      change isZero (Float.ofModel (Float.Model.pack (UnpackedFloat.add Format.binary64
        x.toModel.unpack y.toModel.unpack))) = true
      rw [hs, hs']
      cases s <;> cases s' <;> decide
  | false =>
      obtain ⟨m, e, hsum, hadd⟩ :=
        exists_add_eq_normalize hx hzero hy (hzeros.symm.trans hzero)
      rw [h, eq_comm, mul_eq_zero, or_iff_left (by positivity), Int.cast_eq_zero] at hsum
      rw [hadd, hsum]
      change isZero (Float.ofModel (Float.Model.pack (.zero .positive))) = true
      decide

/-! ## The nearest double -/

/-- No number of 53 bits is nearer to a value. -/
def IsNearest (v z : ℚ) : Prop :=
  ∀ c e : Int, c.natAbs ≤ 2 ^ 53 → -1074 ≤ e → |z - v| ≤ |(c * 2 ^ e : ℚ) - v|

namespace IsNearest

variable {v z : ℚ} {c e : Int}

theorem neg (h : IsNearest v z) : IsNearest (-v) (-z) := by
  intro c e hc he
  have hnear := h (-c) e (by rwa [Int.natAbs_neg]) he
  rw [Int.cast_neg, neg_mul, abs_sub_comm z v, abs_sub_comm (-_) v, sub_neg_eq_add] at hnear
  rwa [neg_sub_neg, sub_neg_eq_add, add_comm]

/-- A number of 53 bits below a value is not above what is nearest to the value. -/
theorem le (h : IsNearest v z) (hc : c.natAbs ≤ 2 ^ 53) (he : -1074 ≤ e) (hle : (c * 2 ^ e : ℚ) ≤ v) :
    (c * 2 ^ e : ℚ) ≤ z := by
  have hnear := h c e hc he
  rw [abs_of_nonpos (sub_nonpos.mpr hle)] at hnear
  have := (abs_le.mp hnear).1
  linarith

theorem ge (h : IsNearest v z) (hc : c.natAbs ≤ 2 ^ 53) (he : -1074 ≤ e) (hle : v ≤ (c * 2 ^ e : ℚ)) :
    z ≤ (c * 2 ^ e : ℚ) := by
  have hnear := h c e hc he
  rw [abs_of_nonneg (sub_nonneg.mpr hle)] at hnear
  have := (abs_le.mp hnear).2
  linarith

theorem eq (h : IsNearest v z) (hc : c.natAbs ≤ 2 ^ 53) (he : -1074 ≤ e) (hv : v = (c * 2 ^ e : ℚ)) :
    z = v := by
  rw [hv]
  exact le_antisymm (h.ge hc he hv.le) (h.le hc he hv.ge)

end IsNearest

theorem RoundsTo.isNearest_of_nonneg {v : ℚ} {k : Nat} {t : Int} (h : RoundsTo v k t)
    (hv : 0 ≤ v) : IsNearest v (k * 2 ^ t) := by
  intro c e hc he
  have hunit : (0 : ℚ) < 2 ^ e := by positivity
  rcases le_total 0 c with hpos | hneg
  · obtain ⟨s, rfl⟩ := Int.eq_ofNat_of_zero_le hpos
    rw [Int.cast_natCast]
    exact h.nearest (by omega) he
  · -- zero is nearer than a negative number
    have hzero := h.nearest (Nat.zero_le (2 ^ 53)) he
    rw [Nat.cast_zero, zero_mul, abs_sub_comm 0 v, sub_zero, abs_of_nonneg hv] at hzero
    have hless : (c * 2 ^ e : ℚ) ≤ 0 :=
      mul_nonpos_of_nonpos_of_nonneg (by exact_mod_cast hneg) hunit.le
    rw [abs_of_nonpos (by linarith : (c * 2 ^ e : ℚ) - v ≤ 0)]
    linarith

/-- A quotient below the bound is rounded, with any sign, to the nearest double. -/
theorem isNearest_ofRatio {v : ℚ} (hlt : |v| < overflow) {n d : Nat} (hn : 0 < n)
    (hd : 0 < d) (h : (n / d : ℚ) = |v|) :
    (ofRatio (decide (v < 0)) n d).isFinite = true ∧
      IsNearest v (exact (ofRatio (decide (v < 0)) n d)) := by
  obtain ⟨hfinite, k, t, hrounds, hvalue⟩ := isFinite_ofRatio hn hd (h ▸ hlt)
  have hsign : (ofRatio (decide (v < 0)) n d).isFinite = (ofRatio false n d).isFinite := by
    obtain ⟨bits, hbits, hofRatio⟩ := exists_bits_ofRatio n d
    rw [hofRatio, hofRatio, isFinite_withSign _ hbits]
  rw [hsign, exact_ofRatio, hvalue]
  refine ⟨hfinite, ?_⟩
  rw [h] at hrounds
  have hnear := hrounds.isNearest_of_nonneg (abs_nonneg v)
  rcases lt_or_ge v 0 with hneg | hpos
  · rw [abs_of_neg hneg] at hnear
    rw [decide_eq_true hneg, if_pos rfl, ← Rat.neg_neg v]
    exact hnear.neg
  · rw [abs_of_nonneg hpos] at hnear
    rwa [decide_eq_false (not_lt.mpr hpos), if_neg Bool.false_ne_true]

theorem exists_quotient {v : ℚ} (hv : v ≠ 0) :
    ∃ n d : Nat, 0 < n ∧ 0 < d ∧ (n / d : ℚ) = |v| := by
  refine ⟨v.num.natAbs, v.den, Int.natAbs_pos.mpr (Rat.num_ne_zero.mpr hv), v.den_pos, ?_⟩
  have hden : (0 : ℚ) < v.den := by exact_mod_cast v.den_pos
  conv_rhs => rw [← Rat.num_div_den v, abs_div, abs_of_pos hden]
  rw [Nat.cast_natAbs, Int.cast_abs]

/-- Below the bound no number of 53 bits is nearer to a sum than what it is rounded to. -/
theorem isNearest_add (hx : x.isFinite = true) (hy : y.isFinite = true)
    (hlt : |exact x + exact y| < overflow) :
    (x + y).isFinite = true ∧ IsNearest (exact x + exact y) (exact (x + y)) := by
  by_cases hsum : exact x + exact y = 0
  · have hzero := isZero_add hx hy hsum
    obtain ⟨he, -⟩ := (isZero_iff _).mp hzero
    refine ⟨(isFinite_iff _).mpr (by omega), fun c e _ _ => ?_⟩
    rw [hsum, exact_of_isZero hzero, sub_zero, abs_zero]
    exact abs_nonneg _
  · obtain ⟨n, d, hn, hd, h⟩ := exists_quotient hsum
    rw [add_eq_ofRatio hx hy hn hd h]
    exact isNearest_ofRatio hlt hn hd h

end Reckoner.Double
