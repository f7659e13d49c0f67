import Reckoner.Proofs.Double.Nearest
import Reckoner.Proofs.Expr.Literal

/-!
# Rounding to decimal places

A decimal is read to the double nearest to it, and only its value counts. A double that is rounded
to a number of decimal places is the one nearest to a decimal with so many; no double is nearer, so
that rounding it once more gives the same decimal: `fixed_roundTo`. With it the text of so many
places is read back as the rounded double.
-/

namespace Reckoner.Double

variable {n d n' d' k : Nat} {x : Float} {negative : Bool}

/-! ## Values decide -/

theorem roundRatio_mul {c : Nat} (hc : 0 < c) (n d : Nat) :
    roundRatio (n * c) (d * c) = roundRatio n d := by
  have hlt (a b : Nat) : 2 * (a * c) < b * c ↔ 2 * a < b := by
    rw [← Nat.mul_assoc, Nat.mul_lt_mul_right hc]
  have hgt (a b : Nat) : b * c < 2 * (a * c) ↔ b < 2 * a := by
    rw [← Nat.mul_assoc, Nat.mul_lt_mul_right hc]
  unfold roundRatio
  simp only [Nat.mul_div_mul_right _ _ hc, Nat.mul_mod_mul_right, hlt, hgt]

theorem roundRatio_congr (hd : 0 < d) (hd' : 0 < d') (h : n * d' = n' * d) :
    roundRatio n d = roundRatio n' d' :=
  calc roundRatio n d = roundRatio (n * d') (d * d') := (roundRatio_mul hd' n d).symm
    _ = roundRatio (n' * d) (d' * d) := by rw [h, Nat.mul_comm d d']
    _ = roundRatio n' d' := roundRatio_mul hd n' d'

theorem targetExponent_congr (hn : 0 < n) (hd : 0 < d) (hn' : 0 < n') (hd' : 0 < d')
    (h : (n / d : ℚ) = n' / d') : targetExponent n d = targetExponent n' d' := by
  obtain ⟨t, htarget, hlow, hhigh⟩ := targetExponent_spec hn hd
  obtain ⟨t', htarget', hlow', hhigh'⟩ := targetExponent_spec hn' hd'
  rw [h] at hlow hhigh
  have hle : t + 52 < t' + 53 := (zpow_lt_zpow_iff_right₀ one_lt_two).mp (hlow.trans_lt hhigh')
  have hge : t' + 52 < t + 53 := (zpow_lt_zpow_iff_right₀ one_lt_two).mp (hlow'.trans_lt hhigh)
  rw [htarget, htarget', show t = t' by omega]

/-- Quotients of one value are rounded alike. -/
theorem ofRatio_congr (hd : 0 < d) (hd' : 0 < d') (h : (n / d : ℚ) = n' / d') :
    ofRatio negative n d = ofRatio negative n' d' := by
  have hdpos : (0 : ℚ) < d := by exact_mod_cast hd
  have hdpos' : (0 : ℚ) < d' := by exact_mod_cast hd'
  have hcross : n * d' = n' * d := by
    rw [div_eq_div_iff hdpos.ne' hdpos'.ne'] at h
    exact_mod_cast h
  rcases Nat.eq_zero_or_pos n with rfl | hn
  · have hzero : n' = 0 := by
      rw [Nat.zero_mul] at hcross
      exact (Nat.mul_eq_zero.mp hcross.symm).resolve_right (Nat.ne_of_gt hd)
    simp only [ofRatio, hzero, if_true]
  · have hn' : 0 < n' := Nat.pos_of_mul_pos_right (hcross ▸ Nat.mul_pos hn hd')
    have htarget := targetExponent_congr hn hd hn' hd' h
    obtain ⟨hup, hdown⟩ := powerRatio_pos (by decide : 0 < 2) (targetExponent n' d')
    rw [ofRatio_of_rounds hn negative htarget rfl, ofRatio_of_rounds hn' negative rfl rfl]
    have hround : roundRatio (n * (powerRatio 2 (targetExponent n' d')).2)
        (d * (powerRatio 2 (targetExponent n' d')).1) =
        roundRatio (n' * (powerRatio 2 (targetExponent n' d')).2)
        (d' * (powerRatio 2 (targetExponent n' d')).1) :=
      roundRatio_congr (Nat.mul_pos hd hup) (Nat.mul_pos hd' hup)
        (by rw [Nat.mul_mul_mul_comm, hcross, Nat.mul_mul_mul_comm])
    rw [hround]

namespace Decimal

theorem value_eq_zero_iff (a : Decimal) : a.value = 0 ↔ a.digits = 0 := by
  have hpower : (10 : ℚ) ^ a.exponent ≠ 0 := by positivity
  rw [value, mul_eq_zero, or_iff_left hpower, Nat.cast_eq_zero]

/-- The place of the first digit belongs to the value. -/
theorem lead_congr {a b : Decimal} (ha : 0 < a.digits) (hb : 0 < b.digits) (h : a.value = b.value) :
    (digitCount a.digits : Int) + a.exponent = digitCount b.digits + b.exponent := by
  have hlow := le_value ha
  have hlow' := le_value hb
  have hhigh := value_lt a
  have hhigh' := value_lt b
  rw [h] at hlow hhigh
  have hle := (zpow_lt_zpow_iff_right₀ (by norm_num : (1 : ℚ) < 10)).mp (hlow.trans_lt hhigh')
  have hge := (zpow_lt_zpow_iff_right₀ (by norm_num : (1 : ℚ) < 10)).mp (hlow'.trans_lt hhigh)
  omega

theorem quotient_value (a : Decimal) :
    ((a.digits * (powerRatio 10 a.exponent).1 : Nat) : ℚ) / (powerRatio 10 a.exponent).2 =
      a.value := by
  obtain ⟨hup, hdown⟩ := powerRatio_pos (by decide : 0 < 10) a.exponent
  have hne : ((powerRatio 10 a.exponent).2 : ℚ) ≠ 0 := by exact_mod_cast Nat.ne_of_gt hdown
  rw [Nat.cast_mul, powerRatio_ten, value]
  field_simp

end Decimal

/-- Decimals of one value are read alike. -/
theorem ofDecimal_congr {a b : Decimal} (h : a.value = b.value) :
    ofDecimal negative a = ofDecimal negative b := by
  have hiff : a.digits = 0 ↔ b.digits = 0 := by
    rw [← a.value_eq_zero_iff, h, b.value_eq_zero_iff]
  have hratio : ofRatio negative (a.digits * (powerRatio 10 a.exponent).1)
      (powerRatio 10 a.exponent).2 = ofRatio negative
      (b.digits * (powerRatio 10 b.exponent).1) (powerRatio 10 b.exponent).2 :=
    ofRatio_congr (powerRatio_pos (by decide) _).2 (powerRatio_pos (by decide) _).2
      (by rw [a.quotient_value, b.quotient_value, h])
  unfold ofDecimal
  dsimp only
  rcases Nat.eq_zero_or_pos a.digits with hzero | hpos
  · rw [if_pos (.inl hzero), if_pos (.inl (hiff.mp hzero))]
  · have hpos' : 0 < b.digits := Nat.pos_of_ne_zero fun hb => hpos.ne' (hiff.mpr hb)
    rw [Decimal.lead_congr hpos hpos' h, hratio]
    simp only [hpos.ne', hpos'.ne']

/-! ## The nearest double -/

/-- No double is nearer to a quotient than what it is rounded to. -/
theorem RoundsTo.nearest {v : ℚ} {t : Int} (h : RoundsTo v k t) {s : Nat} {e : Int}
    (hs : s ≤ 2 ^ 53) (he : -1074 ≤ e) : |(k * 2 ^ t : ℚ) - v| ≤ |(s * 2 ^ e : ℚ) - v| := by
  have hunit : (0 : ℚ) < 2 ^ t := by positivity
  have hlow := h.low
  have hhigh := h.high
  -- no multiple of the unit is nearer
  have hmultiple (j : Nat) : |(k * 2 ^ t : ℚ) - v| ≤ |(j * 2 ^ t : ℚ) - v| := by
    rcases lt_trichotomy j k with hlt | rfl | hgt
    · have hstep : (j + 1 : ℚ) * 2 ^ t ≤ k * 2 ^ t :=
        mul_le_mul_of_nonneg_right (by exact_mod_cast hlt) hunit.le
      rw [abs_le]
      have := neg_le_abs ((j * 2 ^ t : ℚ) - v)
      constructor <;> linarith
    · exact le_refl _
    · have hstep : (k + 1 : ℚ) * 2 ^ t ≤ j * 2 ^ t :=
        mul_le_mul_of_nonneg_right (by exact_mod_cast hgt) hunit.le
      rw [abs_le]
      have := le_abs_self ((j * 2 ^ t : ℚ) - v)
      constructor <;> linarith
  rcases le_or_gt t e with hcoarse | hfine
  · have hsplit : (s * 2 ^ e : ℚ) = (s * 2 ^ (e - t).toNat : Nat) * 2 ^ t := by
      rw [Nat.cast_mul, Nat.cast_pow, Nat.cast_ofNat, mul_assoc, ← zpow_natCast,
        ← zpow_add₀ two_ne_zero]
      congr 2
      omega
    rw [hsplit]
    exact hmultiple _
  · -- finer doubles lie below the least multiple with all bits
    have hfull : (2 : ℚ) ^ 52 * 2 ^ t ≤ v := by
      rw [← two_zpow_add]
      exact h.le.resolve_right (by omega)
    have hless : (s * 2 ^ e : ℚ) ≤ 2 ^ 52 * 2 ^ t := by
      have hhalf : (2 : ℚ) ^ e ≤ 2 ^ (t - 1) := zpow_le_zpow_right₀ one_le_two (by omega)
      rw [zpow_sub_one₀ two_ne_zero] at hhalf
      have hs' : (s : ℚ) ≤ 2 ^ 53 := by exact_mod_cast hs
      calc (s * 2 ^ e : ℚ) ≤ 2 ^ 53 * (2 ^ t * 2⁻¹) :=
            mul_le_mul hs' hhalf (by positivity) (by norm_num)
        _ = 2 ^ 52 * 2 ^ t := by ring
    have hbound := hmultiple (2 ^ 52)
    rw [Nat.cast_pow, Nat.cast_ofNat] at hbound
    rw [abs_sub_comm (2 ^ 52 * 2 ^ t) v, abs_of_nonneg (sub_nonneg.mpr hfull)] at hbound
    rw [abs_sub_comm (s * 2 ^ e : ℚ) v, abs_of_nonneg (sub_nonneg.mpr (hless.trans hfull))]
    linarith

/-- Decimals of that size are not decided by the place of the first digit. -/
structure Decimal.IsUsual (a : Decimal) : Prop where
  pos : 0 < a.digits
  least : -330 ≤ (digitCount a.digits : Int) + a.exponent
  lt : a.value < 10 ^ 18

theorem pow_eighteen_lt_overflow : (10 : ℚ) ^ 18 < overflow := by
  have hlt : (10 : ℚ) ^ 18 < 2 ^ 970 := by exact_mod_cast (by decide +kernel : 10 ^ 18 < 2 ^ 970)
  have htwice : (2 : ℚ) ^ 970 * 2 < 2 ^ 1024 := by
    rw [← pow_succ]
    exact pow_lt_pow_right₀ one_lt_two (by decide)
  rw [overflow, lt_sub_iff_add_lt]
  calc (10 : ℚ) ^ 18 + 2 ^ 970 ≤ 2 ^ 970 + 2 ^ 970 := add_le_add_left hlt.le _
    _ = 2 ^ 970 * 2 := (mul_two _).symm
    _ < 2 ^ 1024 := htwice

/-- Such a decimal is read to the nearest double. -/
theorem Decimal.IsUsual.roundsTo {a : Decimal} (h : a.IsUsual) :
    (ofDecimal false a).isFinite = true ∧
      ∃ k t, RoundsTo a.value k t ∧ (magnitude (ofDecimal false a)).value = k * 2 ^ t := by
  have hlead : ¬ 320 < (digitCount a.digits : Int) + a.exponent := by
    intro hlead
    have hle := calc (10 : ℚ) ^ (18 : Int) ≤ 10 ^ ((digitCount a.digits : Int) + a.exponent - 1) :=
          zpow_le_zpow_right₀ (by norm_num) (by omega)
      _ ≤ a.value := le_value h.pos
    exact absurd h.lt (not_lt.mpr hle)
  have hdecimal : ofDecimal false a = ofRatio false (a.digits * (powerRatio 10 a.exponent).1)
      (powerRatio 10 a.exponent).2 := by
    unfold ofDecimal
    dsimp only
    rw [if_neg (not_or.mpr ⟨h.pos.ne', not_lt.mpr h.least⟩), if_neg hlead]
  obtain ⟨hup, hdown⟩ := powerRatio_pos (by decide : 0 < 10) a.exponent
  rw [hdecimal, ← a.quotient_value]
  exact isFinite_ofRatio (Nat.mul_pos h.pos hup) hdown
    (by rw [a.quotient_value]; exact h.lt.trans pow_eighteen_lt_overflow)

/-! ## Signs -/

/-- A decimal with a sign is read as the negative of what the decimal is. -/
theorem ofDecimal_neg (a : Decimal) : ofDecimal true a = -ofDecimal false a := by
  obtain ⟨bits, hbits, hvalue⟩ := exists_bits_ofDecimal a
  rw [hvalue, hvalue, withSign_true hbits]

theorem ofDecimal_spec (negative : Bool) (a : Decimal) :
    isNegative (ofDecimal negative a) = negative ∧
      magnitude (ofDecimal negative a) = magnitude (ofDecimal false a) ∧
      (ofDecimal negative a).isFinite = (ofDecimal false a).isFinite := by
  obtain ⟨bits, hbits, hvalue⟩ := exists_bits_ofDecimal a
  have hnan := isNaN_withSign hbits
  have hneg := isNegative_withSign hbits
  rw [← hvalue false] at hnan hneg
  cases negative with
  | false => exact ⟨hneg, rfl, rfl⟩
  | true =>
      rw [ofDecimal_neg]
      exact ⟨by rw [isNegative_neg hnan, hneg]; rfl, Expr.magnitude_neg hnan, isFinite_neg _⟩

/-! ## Rounding twice -/

/-- The places of a double are those of its value. -/
theorem fixed_eq_iff (x : Float) (places : Int) :
    fixed x places = k ↔ RoundsIn (magnitude x).value k (10 ^ (-places)) := by
  have hd : 0 < (ratio x).2 := (powerRatio_pos (by decide : 0 < 2) (magnitude x).exponent).2
  rw [← ratio_value]
  exact roundAtPlace_eq_iff hd (-places)

theorem fixed_congr {y : Float} (h : (magnitude x).value = (magnitude y).value) (places : Int) :
    fixed x places = fixed y places := by
  rw [fixed_eq_iff, h, ← fixed_eq_iff]

theorem fixed_of_isZero (h : isZero x = true) (places : Int) : fixed x places = 0 := by
  rw [fixed_eq_iff, value_eq_zero h]
  have hunit : (0 : ℚ) < 10 ^ (-places) := by positivity
  exact ⟨by push_cast; linarith, by push_cast; linarith, fun hodd => absurd hodd (by decide)⟩

/-- The decimal that a double is rounded to. -/
abbrev atPlaces (x : Float) (places : Int) : Decimal := ⟨fixed x places, -places⟩

theorem isUsual_atPlaces {places : Int} (hsize : (magnitude x).value ≤ 10 ^ 16) (hplaces : 0 ≤ places)
    (hmost : places ≤ 323) (hpos : 0 < fixed x places) : (atPlaces x places).IsUsual := by
  have hrounds := ((fixed_eq_iff x places).mp rfl).near.2
  have hunit : (10 : ℚ) ^ (-places) ≤ 1 := zpow_le_one_of_nonpos₀ (by norm_num) (by omega)
  have hcount : 0 < digitCount (fixed x places) := Nat.length_toDigits_pos
  refine ⟨hpos, ?_, ?_⟩
  · change -330 ≤ (digitCount (fixed x places) : Int) + -places
    omega
  · change (fixed x places : ℚ) * 10 ^ (-places) < 10 ^ 18
    linarith

/-- Rounding once more to the same places gives the same decimal. -/
theorem fixed_ofDecimal {places : Int} (hfinite : x.isFinite = true)
    (hsize : (magnitude x).value ≤ 10 ^ 16) (hplaces : 0 ≤ places) (hmost : places ≤ 323)
    (negative : Bool) : fixed (ofDecimal negative (atPlaces x places)) places = fixed x places := by
  have hcongr : fixed (ofDecimal negative (atPlaces x places)) places =
      fixed (ofDecimal false (atPlaces x places)) places :=
    fixed_congr (by rw [(ofDecimal_spec negative _).2.1]) places
  rw [hcongr]
  rcases Nat.eq_zero_or_pos (fixed x places) with hzero | hpos
  · rw [hzero]
    apply fixed_of_isZero
    unfold ofDecimal
    dsimp only
    rw [if_pos (.inl hzero)]
    decide
  · obtain ⟨-, k, t, hrounds, hvalue⟩ :=
      (isUsual_atPlaces hsize hplaces hmost hpos).roundsTo
    have hlegal := isLegal_magnitude hfinite
    have hnear := hrounds.nearest hlegal.lt.le hlegal.least
    have hfixed := (fixed_eq_iff x places).mp rfl
    rw [fixed_eq_iff, hvalue]
    change |(k * 2 ^ t : ℚ) - fixed x places * 10 ^ (-places)| ≤
      |(magnitude x).value - fixed x places * 10 ^ (-places)| at hnear
    generalize (k * 2 ^ t : ℚ) = w at *
    generalize (magnitude x).value = v at *
    generalize fixed x places = c at *
    generalize (10 : ℚ) ^ (-places) = u at *
    have hbounds {b : ℚ} (hb : |v - c * u| ≤ b) : -b ≤ w - c * u ∧ w - c * u ≤ b :=
      abs_le.mp (hnear.trans hb)
    have hstrict {b : ℚ} (hb : |v - c * u| < b) : -b < w - c * u ∧ w - c * u < b :=
      abs_lt.mp (hnear.trans_lt hb)
    have hlow := hfixed.low
    have hhigh := hfixed.high
    have hhalf := hbounds (b := u / 2) (abs_le.mpr ⟨by linarith, by linarith⟩)
    refine ⟨by linarith, by linarith, fun hodd => ?_⟩
    obtain ⟨hlow, hhigh⟩ := hfixed.odd hodd
    have hless := hstrict (b := u / 2) (abs_lt.mpr ⟨by linarith, by linarith⟩)
    exact ⟨by linarith, by linarith⟩

/-! ## Sizes -/

theorem unpack_sixteenth : (1e16 : Float).toModel.unpack =
    .finite .positive 5000000000000000 1 (by decide) := rfl

/-- Below ten to the sixteenth in size are finite doubles only. -/
theorem value_lt_of_abs_lt (h : x.abs < 1e16) :
    x.isFinite = true ∧ (magnitude x).value < 10 ^ 16 := by
  have hlt := compare_of_lt h
  rw [unpack_sixteenth, unpack_abs] at hlt
  have hfinite : x.isFinite = true := by
    change x.toModel.unpack.isFinite = true
    cases hunpack : x.toModel.unpack with
    | notANumber | infinity =>
        rw [hunpack] at hlt
        cases hlt
    | zero | finite => rfl
  refine ⟨hfinite, ?_⟩
  cases hzero : isZero x with
  | true =>
      rw [value_eq_zero hzero]
      norm_num
  | false =>
      rw [unpack_eq_magnitude hfinite hzero] at hlt
      have hlegal := isLegal_magnitude hfinite
      have hs : ((magnitude x).significand : ℚ) ≤ 2 ^ 53 := by exact_mod_cast hlegal.lt.le
      have hcompare : (compare (magnitude x).exponent 1).then
          (compare (magnitude x).significand 5000000000000000) = .lt := by
        have hsome : some ((compare (magnitude x).exponent 1).then
          (compare (magnitude x).significand 5000000000000000)) = some .lt := beq_iff_eq.mp hlt
        exact Option.some.inj hsome
      rw [Ordering.then_eq_lt, Int.compare_eq_lt, Nat.compare_eq_lt] at hcompare
      unfold Magnitude.value
      rcases hcompare with hless | ⟨heq, hless⟩
      · have hunit : (2 : ℚ) ^ (magnitude x).exponent ≤ 1 :=
          zpow_le_one_of_nonpos₀ one_le_two (by omega)
        have := mul_le_mul hs hunit (by positivity) (by norm_num)
        linarith
      · rw [compare_eq_iff_eq.mp heq, zpow_one]
        have hless : ((magnitude x).significand : ℚ) < 5000000000000000 := by exact_mod_cast hless
        linarith

/-! ## Whole doubles -/

theorem isIntegral_iff (x : Float) :
    isIntegral x = true ↔ x.isFinite = true ∧ ∃ w : Nat, (magnitude x).value = w := by
  have hd : 0 < (ratio x).2 := (powerRatio_pos (by decide : 0 < 2) (magnitude x).exponent).2
  have hne : ((ratio x).2 : ℚ) ≠ 0 := by exact_mod_cast hd.ne'
  constructor
  · intro h
    exact ⟨(Bool.and_eq_true_iff.mp h).1, wholePart x, (Expr.wholePart_value h).symm⟩
  · rintro ⟨hfinite, w, hw⟩
    rw [← ratio_value, div_eq_iff hne] at hw
    have hproduct : (ratio x).1 = w * (ratio x).2 := by exact_mod_cast hw
    unfold isIntegral
    rw [hfinite, hproduct, Nat.mul_mod_left]
    rfl

/-- A double that is not whole has a fractional part within its 53 bits. -/
theorem value_lt_of_isIntegral_eq_false (hfinite : x.isFinite = true) (h : isIntegral x = false) :
    (magnitude x).value < 2 ^ 52 := by
  have hlegal := isLegal_magnitude hfinite
  have hs : ((magnitude x).significand : ℚ) < 2 ^ 53 := by exact_mod_cast hlegal.lt
  have hexponent : (magnitude x).exponent < 0 := by
    by_contra hnonneg
    have hwhole : isIntegral x = true := by
      refine (isIntegral_iff x).mpr
        ⟨hfinite, (magnitude x).significand * 2 ^ (magnitude x).exponent.toNat, ?_⟩
      rw [Magnitude.value, Nat.cast_mul, Nat.cast_pow, Nat.cast_ofNat, ← zpow_natCast,
        Int.toNat_of_nonneg (by omega)]
    rw [hwhole] at h
    cases h
  have hunit : (2 : ℚ) ^ (magnitude x).exponent ≤ 2 ^ (-1 : Int) :=
    zpow_le_zpow_right₀ one_le_two (by omega)
  calc (magnitude x).value < 2 ^ 53 * 2 ^ (magnitude x).exponent :=
        mul_lt_mul_of_pos_right hs (by positivity)
    _ ≤ 2 ^ 53 * 2 ^ (-1 : Int) := mul_le_mul_of_nonneg_left hunit (by norm_num)
    _ = 2 ^ 52 := by norm_num

theorem withSign_zero (h : isZero x = true) : withSign (isNegative x) 0 = x := by
  obtain ⟨he, hf⟩ := (isZero_iff x).mp h
  have hnan : x.isNaN = false := by
    rw [← Bool.not_eq_true, isNaN_iff, he]
    exact fun hfields => absurd hfields.1 (by decide)
  cases hneg : isNegative x with
  | false =>
      rw [eq_zero h hneg]
      rfl
  | true =>
      have hpositive : isNegative (-x) = false := by rw [isNegative_neg hnan, hneg]; rfl
      rw [withSign_true (Nat.zero_le _), ← neg_neg x, eq_zero (by rwa [isZero_neg]) hpositive]
      rfl

theorem ofDecimal_of_digits_eq_zero {a : Decimal} (h : a.digits = 0) :
    ofDecimal negative a = withSign negative 0 := by
  unfold ofDecimal
  dsimp only
  rw [if_pos (.inl h)]

/-- A decimal in its neighbourhood is read as the double, if it has its sign. -/
theorem ofDecimal_isNegative (hfinite : x.isFinite = true) (hzero : isZero x = false) {a : Decimal}
    (h : (neighbourhood (magnitude x)).Contains a.value) : ofDecimal (isNegative x) a = x := by
  have hnan := isNaN_eq_false hfinite
  cases hneg : isNegative x with
  | false => exact ofDecimal_eq_self hfinite hzero hneg h
  | true =>
      have hpositive : isNegative (-x) = false := by rw [isNegative_neg hnan, hneg]; rfl
      rw [ofDecimal_neg, ofDecimal_eq_self (x := -x) (by rwa [isFinite_neg])
        (by rwa [isZero_neg]) hpositive (by rwa [Expr.magnitude_neg hnan]), neg_neg]

/-- A decimal of its value is read as the double. -/
theorem ofDecimal_of_value (hfinite : x.isFinite = true) {a : Decimal}
    (h : a.value = (magnitude x).value) : ofDecimal (isNegative x) a = x := by
  cases hzero : isZero x with
  | true =>
      rw [value_eq_zero hzero, a.value_eq_zero_iff] at h
      rw [ofDecimal_of_digits_eq_zero h, withSign_zero hzero]
  | false =>
      apply ofDecimal_isNegative hfinite hzero
      rw [h]
      exact contains_value (isLegal_magnitude hfinite) (significand_pos hzero)

/-- Small whole numbers are read exactly. -/
theorem value_ofDecimal_whole (hk : k ≤ 2 ^ 53) :
    (magnitude (ofDecimal negative ⟨k, 0⟩)).value = k := by
  rw [(ofDecimal_spec negative _).2.1]
  rcases Nat.eq_zero_or_pos k with rfl | hpos
  · rw [ofDecimal_of_digits_eq_zero rfl, value_eq_zero (by decide), Nat.cast_zero]
  · have hvalue : (⟨k, 0⟩ : Decimal).value = k := by rw [Decimal.value, zpow_zero, mul_one]
    have hbound : (k : ℚ) < 10 ^ 18 :=
      lt_of_le_of_lt (by exact_mod_cast hk : (k : ℚ) ≤ 2 ^ 53) (by norm_num)
    have husual : (⟨k, 0⟩ : Decimal).IsUsual :=
      ⟨hpos, by change -330 ≤ (digitCount k : Int) + 0; omega, by rwa [hvalue]⟩
    obtain ⟨-, s, t, hrounds, hmagnitude⟩ := husual.roundsTo
    have hnear := hrounds.nearest (s := k) (e := 0) hk (by decide)
    rw [hvalue, zpow_zero, mul_one, sub_self, abs_zero, abs_nonpos_iff, sub_eq_zero] at hnear
    rw [hmagnitude, hnear]

theorem value_eq_of_beq {y : Float} (h : (x == y) = true) :
    (magnitude x).value = (magnitude y).value := by
  rcases beq_iff.mp h with ⟨-, rfl | ⟨hx, hy⟩⟩
  · rfl
  · rw [value_eq_zero hx, value_eq_zero hy]

end Reckoner.Double
