import Reckoner.Proofs.Double.Rounding

/-!
# Decimals of doubles

Reading is right for every decimal in the neighbourhood of a double, and the shortest decimal is
one: either the search has found it there, or it has the seventeen digits that always suffice. So
`ofDecimal_shortest`, the shortest decimal reads back.
-/

namespace Reckoner.Double

variable {m : Magnitude} {v : ℚ}

/-! ## Reading a decimal -/

theorem lt_pow_digitCount (n : Nat) : n < 10 ^ digitCount n :=
  (Nat.length_toDigits_le_iff (by decide) Nat.length_toDigits_pos).mp (Nat.le_refl _)

theorem pow_digitCount_le {n : Nat} (hn : 0 < n) : 10 ^ (digitCount n - 1) ≤ n := by
  by_cases hone : digitCount n - 1 = 0
  · rw [hone]
    exact hn
  · by_contra hlt
    have hle := (Nat.length_toDigits_le_iff (by decide) (by omega : 0 < digitCount n - 1)).mpr
      (Nat.not_le.mp hlt)
    change digitCount n ≤ digitCount n - 1 at hle
    omega

theorem Decimal.value_lt (d : Decimal) :
    d.value < 10 ^ ((digitCount d.digits : Int) + d.exponent) := by
  have hlt : (d.digits : ℚ) < 10 ^ (digitCount d.digits : Int) := by
    exact_mod_cast lt_pow_digitCount d.digits
  rw [zpow_add₀ (by norm_num)]
  exact mul_lt_mul_of_pos_right hlt (by positivity)

theorem Decimal.le_value {d : Decimal} (hd : 0 < d.digits) :
    (10 : ℚ) ^ ((digitCount d.digits : Int) + d.exponent - 1) ≤ d.value := by
  have hcount : 0 < digitCount d.digits := Nat.length_toDigits_pos
  have hle : (10 : ℚ) ^ ((digitCount d.digits - 1 : Nat) : Int) ≤ d.digits := by
    exact_mod_cast pow_digitCount_le hd
  rw [show (digitCount d.digits : Int) + d.exponent - 1 =
    ((digitCount d.digits - 1 : Nat) : Int) + d.exponent by omega, zpow_add₀ (by norm_num)]
  exact mul_le_mul_of_nonneg_right hle (by positivity)

/-- No double but zero lies below these decimals. -/
theorem pow_ten_le_pow_two : (10 : ℚ) ^ (-331 : Int) ≤ 2 ^ (-1075 : Int) := by
  have hle : (2 : ℚ) ^ 1075 ≤ 10 ^ 331 := by
    exact_mod_cast (by decide +kernel : 2 ^ 1075 ≤ 10 ^ 331)
  have hinverse := inv_anti₀ (by positivity) hle
  rw [zpow_neg, zpow_neg]
  exact_mod_cast hinverse

/-- No finite double lies above these decimals. -/
theorem pow_two_le_pow_ten : (2 : ℚ) ^ (1025 : Int) ≤ 10 ^ (320 : Int) := by
  exact_mod_cast (by decide +kernel : 2 ^ 1025 ≤ 10 ^ 320)

/-- The values in the neighbourhood of a magnitude lie within the range of doubles. -/
theorem Neighbourhood.Contains.range (hm : m.IsLegal) (hpos : 0 < m.significand)
    (h : (neighbourhood m).Contains v) : (2 : ℚ) ^ (-1075 : Int) ≤ v ∧ v < 2 ^ (1025 : Int) := by
  have hlow := h.low_le hpos
  have hhigh := h.high.1
  have hunit : (0 : ℚ) < 2 ^ m.exponent := by positivity
  have hone : (1 : ℚ) ≤ m.significand := by exact_mod_cast hpos
  have hlt : (m.significand : ℚ) + 1 ≤ 2 ^ 53 := by exact_mod_cast hm.lt
  have hleast : (2 : ℚ) ^ (-1074 : Int) ≤ 2 ^ m.exponent :=
    zpow_le_zpow_right₀ (by norm_num) hm.least
  have hmost : (2 : ℚ) ^ m.exponent ≤ 2 ^ (971 : Int) :=
    zpow_le_zpow_right₀ (by norm_num) hm.most
  have hunits : (2 : ℚ) ^ m.exponent ≤ (2 * m.significand - 1) * 2 ^ m.exponent :=
    le_mul_of_one_le_left hunit.le (by linarith)
  have hbound : (2 * m.significand + 1) * 2 ^ m.exponent ≤ (2 : ℚ) ^ 54 * 2 ^ (971 : Int) :=
    mul_le_mul (by linarith) hmost hunit.le (by norm_num)
  have hsmall : (2 : ℚ) ^ (-1075 : Int) * 2 = 2 ^ (-1074 : Int) := by
    rw [← zpow_add_one₀ (by norm_num)]
    rfl
  have hlarge : (2 : ℚ) ^ 54 * 2 ^ (971 : Int) = 2 ^ (1025 : Int) := by
    rw [← zpow_natCast, ← zpow_add₀ (by norm_num)]
    rfl
  have hvalue := h.pos hpos
  constructor
  · linarith
  · calc v < 2 * v := by linarith
      _ ≤ 2 ^ (1025 : Int) := hhigh.trans (hbound.trans_eq hlarge)

/-- A decimal in the neighbourhood of a magnitude is read as it. -/
theorem ofDecimal_eq (hm : m.IsLegal) (hpos : 0 < m.significand) {d : Decimal}
    (h : (neighbourhood m).Contains d.value) (negative : Bool) :
    ofDecimal negative d = withSign negative m.bits := by
  have hvalue := h.pos hpos
  have hdigits : 0 < d.digits := by
    rcases Nat.eq_zero_or_pos d.digits with hzero | hd
    · rw [Decimal.value, hzero, Nat.cast_zero, zero_mul] at hvalue
      exact absurd hvalue (lt_irrefl 0)
    · exact hd
  obtain ⟨hleast, hmost⟩ := h.range hm hpos
  have hlow : ¬ ((digitCount d.digits : Int) + d.exponent < -330) := by
    intro hlead
    have hlt := calc d.value < 10 ^ ((digitCount d.digits : Int) + d.exponent) := d.value_lt
      _ ≤ (10 : ℚ) ^ (-331 : Int) := zpow_le_zpow_right₀ (by norm_num) (by omega)
      _ ≤ 2 ^ (-1075 : Int) := pow_ten_le_pow_two
    exact absurd hleast (not_le.mpr hlt)
  have hhigh : ¬ 320 < (digitCount d.digits : Int) + d.exponent := by
    intro hlead
    have hle := calc (2 : ℚ) ^ (1025 : Int) ≤ 10 ^ (320 : Int) := pow_two_le_pow_ten
      _ ≤ 10 ^ ((digitCount d.digits : Int) + d.exponent - 1) :=
          zpow_le_zpow_right₀ (by norm_num) (by omega)
      _ ≤ d.value := Decimal.le_value hdigits
    exact absurd hmost (not_lt.mpr hle)
  obtain ⟨hup, hdown⟩ := powerRatio_pos (by decide : 0 < 10) d.exponent
  have hquotient : ((d.digits * (powerRatio 10 d.exponent).1 : Nat) : ℚ) /
      (powerRatio 10 d.exponent).2 = d.value := by
    have hne : ((powerRatio 10 d.exponent).2 : ℚ) ≠ 0 := by exact_mod_cast Nat.ne_of_gt hdown
    rw [Nat.cast_mul, powerRatio_ten, Decimal.value]
    field_simp
  unfold ofDecimal
  dsimp only
  rw [if_neg (by omega), if_neg hhigh]
  exact ofRatio_eq hm hpos hdown (by rwa [hquotient]) negative

/-! ## Finite doubles -/

theorem significand_pos {x : Float} (hzero : isZero x = false) : 0 < (magnitude x).significand := by
  have hnot : ¬ (exponentBits x = 0 ∧ fractionBits x = 0) := by
    rw [← isZero_iff, hzero]
    exact Bool.false_ne_true
  unfold magnitude
  split
  · change 0 < fractionBits x
    omega
  · exact Nat.add_pos_right _ (by decide)

theorem isLegal_magnitude {x : Float} (hfinite : x.isFinite = true) : (magnitude x).IsLegal := by
  have he := exponentBits_lt x
  have hf := fractionBits_lt x
  have hne := (isFinite_iff x).mp hfinite
  unfold magnitude
  split
  case isTrue hleast =>
      refine ⟨?_, le_refl (-1074 : Int), (by decide : (-1074 : Int) ≤ 971), .inr rfl⟩
      change fractionBits x < 2 ^ 53
      omega
  case isFalse hleast =>
      refine ⟨?_, ?_, ?_, .inl ?_⟩
      · change fractionBits x + 2 ^ 52 < _
        omega
      · change -1074 ≤ (exponentBits x : Int) - 1075
        omega
      · change (exponentBits x : Int) - 1075 ≤ 971
        omega
      · change 2 ^ 52 ≤ fractionBits x + 2 ^ 52
        omega

theorem bits_magnitude (x : Float) :
    (magnitude x).bits = exponentBits x * 2 ^ 52 + fractionBits x := by
  unfold magnitude
  split
  case isTrue hleast =>
      rw [hleast]
      exact congrArg (· + fractionBits x) (rfl : (-1074 + 1074 : Int).toNat * 2 ^ 52 = 0 * 2 ^ 52)
  case isFalse hleast =>
      change ((exponentBits x : Int) - 1075 + 1074).toNat * 2 ^ 52 + (fractionBits x + 2 ^ 52) = _
      omega

/-- Any decimal in its neighbourhood is read as the double. -/
theorem ofDecimal_eq_self {x : Float} (hfinite : x.isFinite = true) (hzero : isZero x = false)
    (hneg : isNegative x = false) {d : Decimal}
    (h : (neighbourhood (magnitude x)).Contains d.value) : ofDecimal false d = x := by
  rw [ofDecimal_eq (isLegal_magnitude hfinite) (significand_pos hzero) h, bits_magnitude,
    withSign_magnitude x hneg]

/-! ## The shortest decimal -/

theorem Decimal.value_stripZeros (fuel : Nat) (d : Decimal) :
    (d.stripZeros fuel).value = d.value := by
  induction fuel generalizing d with
  | zero => rfl
  | succ fuel ih =>
      unfold stripZeros
      split
      case isTrue hzero =>
          rw [ih]
          obtain ⟨k, hk⟩ : ∃ k, d.digits = 10 * k := ⟨d.digits / 10, by omega⟩
          unfold value
          simp only [hk, Nat.mul_div_cancel_left k (by decide : 0 < 10)]
          rw [zpow_add_one₀ (by norm_num)]
          push_cast
          ring
      case isFalse => rfl

theorem Decimal.value_normalize (d : Decimal) : d.normalize.value = d.value :=
  value_stripZeros _ d

theorem nearestAtPlace?_holds {n : Neighbourhood} {numerator denominator : Nat} {place : Int}
    {d : Decimal} (h : nearestAtPlace? n numerator denominator place = some d) :
    n.holds d = true := by
  have hchoice (first second : Decimal) (h : (if n.holds first then some first
      else if n.holds second then some second else none) = some d) : n.holds d = true := by
    split at h
    case isTrue hfirst =>
        cases h
        exact hfirst
    case isFalse =>
        split at h
        case isTrue hsecond =>
            cases h
            exact hsecond
        case isFalse => cases h
  exact hchoice _ _ h

/-- The first significant digit stands where the place says. -/
theorem pow_leadingPlace_le {n d : Nat} (hn : 0 < n) (hd : 0 < d) :
    (10 : ℚ) ^ leadingPlace n d ≤ n / d := by
  have hdpos : (0 : ℚ) < d := by exact_mod_cast hd
  unfold leadingPlace
  split
  case isTrue hle =>
      have hquotient : 0 < n / d := Nat.div_pos hle hd
      have hcount : 0 < digitCount (n / d) := Nat.length_toDigits_pos
      have hpow := pow_digitCount_le hquotient
      have hmul : 10 ^ (digitCount (n / d) - 1) * d ≤ n :=
        (Nat.le_div_iff_mul_le hd).mp hpow
      rw [le_div_iff₀ hdpos, show (digitCount (n / d) : Int) - 1 =
        ((digitCount (n / d) - 1 : Nat) : Int) by omega]
      exact_mod_cast hmul
  case isFalse hlt =>
      have hnpos : (0 : ℚ) < n := by exact_mod_cast hn
      have hpow := lt_pow_digitCount ((d - 1) / n)
      have hmul : d ≤ 10 ^ digitCount ((d - 1) / n) * n := by
        have := (Nat.div_lt_iff_lt_mul hn).mp hpow
        omega
      have hmul' : (d : ℚ) ≤ 10 ^ digitCount ((d - 1) / n) * n := by exact_mod_cast hmul
      rw [zpow_neg, zpow_natCast, le_div_iff₀ hdpos, inv_mul_le_iff₀ (by positivity)]
      exact hmul'

/-- A quotient is rounded to a place in units of the place. -/
theorem roundAtPlace_eq_iff {n d k : Nat} (hd : 0 < d) (place : Int) :
    (roundAtPlace n d place).digits = k ↔ RoundsIn (n / d) k (10 ^ place) :=
  have ⟨hup, hdown⟩ := powerRatio_pos (by decide : 0 < 10) place
  roundRatio_eq_iff hd hup hdown (powerRatio_ten place)

/-- What is nearer than half a unit, or a quarter where the doubles become denser, lies in the
neighbourhood. -/
theorem contains_of_near {m : Magnitude} (hpos : 0 < m.significand) {v t : ℚ}
    (hlow : 2 * m.value ≤ 2 * v + t) (hhigh : 2 * v ≤ 2 * m.value + t) (ht : t < 2 ^ m.exponent)
    (hdense : m.significand = 2 ^ 52 ∧ -1074 < m.exponent → 2 * t < 2 ^ m.exponent) :
    (neighbourhood m).Contains v := by
  have hunit : (0 : ℚ) < 2 ^ m.exponent := by positivity
  unfold Magnitude.value at *
  generalize hu : (2 : ℚ) ^ m.exponent = u at *
  have hlower : ((neighbourhood m).low : ℚ) * 2 ^ (neighbourhood m).exponent < v := by
    by_cases hcase : m.significand = 2 ^ 52 ∧ -1074 < m.exponent
    · have ht := hdense hcase
      rw [neighbourhood_low_dense hcase, hu]
      linarith
    · rw [neighbourhood_low hpos hcase, hu]
      linarith
  have hupper : v < ((neighbourhood m).high : ℚ) * 2 ^ (neighbourhood m).exponent := by
    rw [neighbourhood_high, hu]
    linarith
  exact ⟨hlower.le, hupper.le, fun _ => ⟨hlower, hupper⟩⟩

/-- Seventeen digits are near enough. -/
theorem contains_of_seventeen {m : Magnitude} (hm : m.IsLegal) (hpos : 0 < m.significand) {v t : ℚ}
    (hlow : 2 * m.value ≤ 2 * v + t) (hhigh : 2 * v ≤ 2 * m.value + t)
    (ht : t * 10 ^ 16 ≤ m.value) : (neighbourhood m).Contains v := by
  have hunit : (0 : ℚ) < 2 ^ m.exponent := by positivity
  have hlt : (m.significand : ℚ) ≤ 2 ^ 53 := by exact_mod_cast hm.lt.le
  have hvalue := mul_le_mul_of_nonneg_right hlt hunit.le
  refine contains_of_near hpos hlow hhigh ?_ fun hdense => ?_
  · unfold Magnitude.value at ht
    linarith
  · have hs : (m.significand : ℚ) = 2 ^ 52 := by exact_mod_cast hdense.1
    rw [Magnitude.value, hs] at ht
    linarith

theorem ratio_pos {x : Float} (hzero : isZero x = false) : 0 < (ratio x).1 ∧ 0 < (ratio x).2 := by
  obtain ⟨hup, hdown⟩ := powerRatio_pos (by decide : 0 < 2) (magnitude x).exponent
  exact ⟨Nat.mul_pos (significand_pos hzero) hup, hdown⟩

/-- The shortest decimal lies in the neighbourhood. -/
theorem contains_shortest {x : Float} (hfinite : x.isFinite = true) (hzero : isZero x = false) :
    (neighbourhood (magnitude x)).Contains (shortest x).value := by
  obtain ⟨hn, hd⟩ := ratio_pos hzero
  have hvalue := ratio_value x
  unfold shortest
  dsimp only
  generalize (ratio x).1 = n at *
  generalize (ratio x).2 = d at *
  rw [Decimal.value_normalize]
  cases hfound : (List.range 17).findSome? fun (k : Nat) =>
      nearestAtPlace? (neighbourhood (magnitude x)) n d (leadingPlace n d - k) with
  | some found =>
      obtain ⟨k, -, hk⟩ := List.exists_of_findSome?_eq_some hfound
      exact (Neighbourhood.holds_iff _ _).mp (nearestAtPlace?_holds hk)
  | none =>
      -- seventeen digits are within half a unit, and the unit is fine enough
      have hrounds := (roundAtPlace_eq_iff (n := n) hd (leadingPlace n d - 16)).mp rfl
      have hlead := pow_leadingPlace_le hn hd
      rw [hvalue] at hrounds hlead
      refine contains_of_seventeen (isLegal_magnitude hfinite) (significand_pos hzero)
        hrounds.near.1 hrounds.near.2 ?_
      calc (10 : ℚ) ^ (leadingPlace n d - 16) * 10 ^ 16 = 10 ^ leadingPlace n d := by
            rw [← zpow_natCast, ← zpow_add₀ (by norm_num)]
            congr 1
            omega
        _ ≤ (magnitude x).value := hlead

/-- Each magnitude lies in its own neighbourhood. -/
theorem contains_value {m : Magnitude} (hm : m.IsLegal) (hpos : 0 < m.significand) :
    (neighbourhood m).Contains m.value := by
  have hvalue : 0 ≤ m.value := by
    unfold Magnitude.value
    positivity
  exact contains_of_seventeen hm hpos (t := 0) (by linarith) (by linarith) (by linarith)

/-- A decimal of the same value as the shortest one reads back as the double. -/
theorem ofDecimal_shortest {x : Float} (hfinite : x.isFinite = true) (hzero : isZero x = false)
    (hneg : isNegative x = false) {d : Decimal} (hd : d.value = (shortest x).value) :
    ofDecimal false d = x := by
  apply ofDecimal_eq_self hfinite hzero hneg
  rw [hd]
  exact contains_shortest hfinite hzero

/-! ## Magnitudes -/

/-- The sign of a quotient only goes into the sign bit. -/
theorem exists_bits_ofRatio (n d : Nat) :
    ∃ bits ≤ 0x7FF * twoTo 52, ∀ negative, ofRatio negative n d = withSign negative bits := by
  unfold ofRatio
  split
  · exact ⟨0, Nat.zero_le _, fun _ => rfl⟩
  · exact ⟨_, Nat.min_le_right _ _, fun _ => rfl⟩

/-- The sign of a decimal only goes into the sign bit. -/
theorem exists_bits_ofDecimal (d : Decimal) :
    ∃ bits ≤ 0x7FF * twoTo 52, ∀ negative, ofDecimal negative d = withSign negative bits := by
  unfold ofDecimal
  dsimp only
  split
  · exact ⟨0, Nat.zero_le _, fun _ => rfl⟩
  · split
    · exact ⟨_, Nat.le_refl _, fun _ => rfl⟩
    · exact exists_bits_ofRatio _ _

end Reckoner.Double
