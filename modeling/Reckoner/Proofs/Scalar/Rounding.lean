import Reckoner.Arithmetic
import Reckoner.Proofs.Double.Sum
import Reckoner.Scalar.Function

/-!
# Rounding the half up

Rounding adds one half and goes down to a whole number. The sum is rounded itself, and where no
double lies between the exact sum and the next whole number it may reach that: below one half once,
and from `2 ^ 52` on, where a tie goes to the even neighbour. Everywhere else the rounded sum stays
within the same unit: `floor_add_half`.
-/

namespace Reckoner

namespace Double

variable {x y : Float}

/-! ## Exact values -/

/-- The significand with the sign of the double. -/
theorem exists_exact_eq (x : Float) :
    ∃ c : Int, c.natAbs = (magnitude x).significand ∧ exact x = c * 2 ^ (magnitude x).exponent := by
  rw [exact_eq, Magnitude.value]
  split
  · refine ⟨-(magnitude x).significand, by rw [Int.natAbs_neg, Int.natAbs_natCast], ?_⟩
    push_cast
    ring
  · exact ⟨(magnitude x).significand, Int.natAbs_natCast _, by rw [Int.cast_natCast]⟩

/-- The largest double leaves out the last unit before the next power of two. -/
theorem value_le_largest (hx : x.isFinite = true) :
    (magnitude x).value ≤ (2 ^ 53 - 1) * 2 ^ (971 : Int) := by
  have hlegal := isLegal_magnitude hx
  have hs : ((magnitude x).significand : ℚ) ≤ 2 ^ 53 - 1 := by
    have : ((magnitude x).significand : ℚ) + 1 ≤ 2 ^ 53 := by exact_mod_cast hlegal.lt
    linarith
  have hpower : (2 : ℚ) ^ (magnitude x).exponent ≤ 2 ^ (971 : Int) :=
    zpow_le_zpow_right₀ one_le_two hlegal.most
  exact mul_le_mul hs hpower (by positivity) (by norm_num)

/-- Finite doubles are equal if their values are, unless they are zeros. -/
theorem eq_of_exact_eq (hx : x.isFinite = true) (hy : y.isFinite = true) (hne : exact x ≠ 0)
    (h : exact x = exact y) : x = y := by
  have hzero : isZero x = false := Bool.eq_false_iff.mpr (isZero_iff_exact.not.mpr hne)
  have hzero' : isZero y = false := Bool.eq_false_iff.mpr (isZero_iff_exact.not.mpr (h ▸ hne))
  obtain ⟨n, d, -, hd, hvalue⟩ := exists_quotient hne
  rw [← ofRatio_eq_self hx hzero hd (contains_of_abs hx hzero hvalue), h,
    ofRatio_eq_self hy hzero' hd (contains_of_abs hy hzero' (h ▸ hvalue))]

theorem beq_iff_exact (hx : x.isFinite = true) (hy : y.isFinite = true) :
    (x == y) = true ↔ exact x = exact y := by
  rw [beq_iff, and_iff_right (isNaN_eq_false hx)]
  constructor
  · rintro (rfl | ⟨hzero, hzero'⟩)
    · rfl
    · rw [exact_of_isZero hzero, exact_of_isZero hzero']
  · intro h
    rcases eq_or_ne (exact x) 0 with hzero | hne
    · exact .inr ⟨isZero_iff_exact.mpr hzero, isZero_iff_exact.mpr (h ▸ hzero)⟩
    · exact .inl (eq_of_exact_eq hx hy hne h)

theorem isIntegral_iff_exact (hx : x.isFinite = true) :
    isIntegral x = true ↔ ∃ n : Int, exact x = n := by
  rw [isIntegral_iff, and_iff_right hx, ← abs_exact]
  constructor
  · rintro ⟨w, hw⟩
    rcases abs_choice (exact x) with h | h
    · exact ⟨w, by rw [← h, hw, Int.cast_natCast]⟩
    · exact ⟨-w, by rw [Int.cast_neg, Int.cast_natCast, ← hw, h, Rat.neg_neg]⟩
  · rintro ⟨n, hn⟩
    exact ⟨n.natAbs, by rw [hn, Nat.cast_natAbs, Int.cast_abs]⟩

/-! ## Going down to a whole number -/

theorem wholePart_eq_floor (x : Float) : wholePart x = ⌊(magnitude x).value⌋₊ := by
  rw [← ratio_value, Nat.floor_div_eq_div]
  rfl

/-- The largest whole number that does not exceed the exact value. -/
theorem floor_eq (hx : x.isFinite = true) : floor x = ⌊exact x⌋ := by
  have hnonneg := value_nonneg (magnitude x)
  have hwhole : ((wholePart x : Int) : ℚ) ≤ (magnitude x).value := by
    rw [Int.cast_natCast, wholePart_eq_floor]
    exact Nat.floor_le hnonneg
  have hnext : (magnitude x).value < (wholePart x : Int) + 1 := by
    rw [Int.cast_natCast, wholePart_eq_floor]
    exact Nat.lt_floor_add_one _
  rw [exact_eq, eq_comm, Int.floor_eq_iff]
  unfold floor truncate
  cases hneg : isNegative x with
  | false =>
      simp only [Bool.false_and, Bool.false_eq_true, if_false]
      exact ⟨hwhole, hnext⟩
  | true =>
      cases hintegral : isIntegral x with
      | true =>
          have hvalue := Expr.wholePart_value hintegral
          simp only [Bool.not_true, Bool.and_false, Bool.false_eq_true, if_false, if_true]
          push_cast
          constructor <;> linarith
      | false =>
          have hne : ((wholePart x : Int) : ℚ) ≠ (magnitude x).value := by
            intro heq
            have : isIntegral x = true :=
              (isIntegral_iff x).mpr ⟨hx, wholePart x, by rw [← heq, Int.cast_natCast]⟩
            rw [hintegral] at this
            cases this
          have hless := lt_of_le_of_ne hwhole hne
          simp only [Bool.not_false, Bool.and_self, if_true]
          push_cast at hless hnext ⊢
          constructor <;> linarith

/-- A whole number of 53 bits at an exponent is a double. -/
theorem exact_ofInt {n c e : Int} (hc : c.natAbs ≤ 2 ^ 53) (he : -1074 ≤ e)
    (hn : (n : ℚ) = c * 2 ^ e) (hlt : |(n : ℚ)| < overflow) :
    (ofInt n).isFinite = true ∧ exact (ofInt n) = n := by
  rcases eq_or_ne n 0 with rfl | hne
  · exact ⟨by decide, by decide +kernel⟩
  · have hsign : decide ((n : ℚ) < 0) = decide (n < 0) := decide_eq_decide.mpr Int.cast_lt_zero
    obtain ⟨hfinite, hnear⟩ := isNearest_ofRatio hlt (Int.natAbs_pos.mpr hne) Nat.one_pos
      (by rw [Nat.cast_one, div_one, Nat.cast_natAbs, Int.cast_abs])
    rw [hsign] at hfinite hnear
    exact ⟨hfinite, hnear.eq hc he hn⟩

/-- The whole number below a double is a double. -/
theorem exact_ofInt_floor (hx : x.isFinite = true) :
    (ofInt (floor x)).isFinite = true ∧ exact (ofInt (floor x)) = ⌊exact x⌋ := by
  have hlegal := isLegal_magnitude hx
  rw [floor_eq hx]
  by_cases hintegral : ∃ n : Int, exact x = n
  · obtain ⟨n, hn⟩ := hintegral
    obtain ⟨c, hc, hvalue⟩ := exists_exact_eq x
    have hlt : |(n : ℚ)| < overflow := by
      rw [← hn, abs_exact, overflow_eq]
      exact (value_le_largest hx).trans_lt
        (mul_lt_mul_of_pos_right (by norm_num) (by positivity))
    rw [hn, Int.floor_intCast]
    exact exact_ofInt (hc.trans_le hlegal.lt.le) hlegal.least (hn.symm.trans hvalue) hlt
  · have hsmall := value_lt_of_isIntegral_eq_false hx
      (Bool.not_eq_true _ ▸ (isIntegral_iff_exact hx).not.mpr hintegral)
    rw [← abs_exact, abs_lt] at hsmall
    have hlow : -2 ^ 52 ≤ ⌊exact x⌋ := by
      rw [Int.le_floor]
      push_cast
      linarith
    have hhigh : ⌊exact x⌋ < 2 ^ 52 := by
      rw [Int.floor_lt]
      push_cast
      linarith
    have hcast : |(⌊exact x⌋ : ℚ)| ≤ 2 ^ 52 :=
      abs_le.mpr ⟨by exact_mod_cast hlow, by exact_mod_cast hhigh.le⟩
    exact exact_ofInt (c := ⌊exact x⌋) (e := 0) (by omega) (by decide) (by norm_num)
      (hcast.trans_lt (lt_trans (by norm_num) pow_eighteen_lt_overflow))

/-! ## Adding one half -/

theorem exact_half : exact 0.5 = 1 / 2 := by decide +kernel

theorem value_half : (magnitude 0.5).value = 1 / 2 := by
  rw [← abs_exact, exact_half, abs_of_pos one_half_pos]

/-- The sum with one half is finite, and the nearest double to the exact sum. -/
theorem isNearest_add_half (hx : x.isFinite = true) :
    (x + 0.5).isFinite = true ∧ IsNearest (exact x + 1 / 2) (exact (x + 0.5)) := by
  rw [← exact_half]
  refine isNearest_add hx (by decide) ?_
  have hlargest := value_le_largest hx
  have hunit : (1 : ℚ) < 2 ^ (971 : Int) := one_lt_zpow₀ one_lt_two (by decide)
  calc |exact x + exact 0.5| ≤ |exact x| + |exact 0.5| := abs_add_le _ _
    _ = (magnitude x).value + 1 / 2 := by rw [abs_exact, abs_exact, value_half]
    _ ≤ (2 ^ 53 - 1) * 2 ^ (971 : Int) + 1 / 2 := by linarith
    _ < overflow := by
        rw [overflow_eq]
        generalize (2 : ℚ) ^ (971 : Int) = unit at *
        linarith

/-- Within the lower half of a unit the rounded sum stays in the unit. -/
theorem IsNearest.floor_eq {v z : ℚ} (h : IsNearest v z) {n : Int} (hlow : (n : ℚ) ≤ v)
    (hhigh : v ≤ n + 1 / 2) (hn : (2 * n + 1).natAbs ≤ 2 ^ 53) : ⌊z⌋ = n := by
  have hwhole : ((n : ℚ) : ℚ) * 2 ^ (0 : Int) = n := by norm_num
  have hhalf : ((2 * n + 1 : Int) : ℚ) * 2 ^ (-1 : Int) = n + 1 / 2 := by
    push_cast
    rw [zpow_neg_one]
    ring
  have hle := h.le (c := n) (e := 0) (by omega) (by decide) (by rwa [hwhole])
  have hge := h.ge hn (by decide : (-1074 : Int) ≤ -1) (by rwa [hhalf])
  rw [hwhole] at hle
  rw [hhalf] at hge
  rw [Int.floor_eq_iff]
  constructor <;> linarith

/-- What is a quarter of a unit away at most lies in the neighbourhood. -/
theorem contains_of_quarter {m : Magnitude} (hpos : 0 < m.significand) {v : ℚ}
    (h : |v - m.value| ≤ 2 ^ m.exponent / 4) : (neighbourhood m).Contains v := by
  have hunit : (0 : ℚ) < 2 ^ m.exponent := by positivity
  obtain ⟨hlow, hhigh⟩ := abs_le.mp h
  unfold Magnitude.value at hlow hhigh
  have hend := neighbourhood_high m
  by_cases hdense : m.significand = 2 ^ 52 ∧ -1074 < m.exponent
  · have hstart := neighbourhood_low_dense hdense
    refine ⟨by linarith, by linarith, fun hopen => ?_⟩
    have hclosed : (neighbourhood m).closed = true := by simp [neighbourhood, hdense.1]
    rw [hopen] at hclosed
    cases hclosed
  · have hstart := neighbourhood_low hpos hdense
    exact ⟨by linarith, by linarith, fun _ => ⟨by linarith, by linarith⟩⟩

/-- One half is too little to change a double whose last unit is two or more. -/
theorem add_half_of_exponent (hx : x.isFinite = true) (he : 0 < (magnitude x).exponent) :
    x + 0.5 = x := by
  have hlegal := isLegal_magnitude hx
  have hfull := hlegal.full.resolve_right (by omega)
  have hpos : 0 < (magnitude x).significand := by omega
  have hunit : (2 : ℚ) ≤ 2 ^ (magnitude x).exponent := by
    have hpower := zpow_le_zpow_right₀ (one_le_two : (1 : ℚ) ≤ 2) he
    rwa [Int.zero_add, zpow_one] at hpower
  have hvalue : 2 ^ 53 ≤ (magnitude x).value := by
    have hs : (2 ^ 52 : ℚ) ≤ (magnitude x).significand := by exact_mod_cast hfull
    calc (2 ^ 53 : ℚ) = 2 ^ 52 * 2 := by norm_num
      _ ≤ _ := mul_le_mul hs hunit (by norm_num) (by positivity)
  have hzero : isZero x = false := isZero_eq_false (lt_of_lt_of_le (by norm_num) hvalue)
  have hnear := abs_abs_sub_abs_le (exact x + exact 0.5) (exact x)
  rw [add_sub_cancel_left, abs_exact, abs_exact, value_half] at hnear
  have hsum : exact x + exact 0.5 ≠ 0 := by
    intro h
    rw [h, abs_zero] at hnear
    have := (abs_le.mp hnear).1
    linarith
  have hsign : decide (exact x + exact 0.5 < 0) = decide (exact x < 0) := by
    rw [← abs_exact] at hvalue
    rw [decide_eq_decide, exact_half]
    rcases le_abs'.mp hvalue with hneg | hpos
    · exact iff_of_true (by linarith) (by linarith)
    · exact iff_of_false (by linarith) (by linarith)
  obtain ⟨n, d, hn, hd, h⟩ := exists_quotient hsum
  rw [← h] at hnear
  rw [add_eq_ofRatio hx (by decide) hn hd h, hsign]
  exact ofRatio_eq_self hx hzero hd (contains_of_quarter hpos (by linarith))

/-- Halves between whole numbers of 53 bits go to the even one. -/
theorem value_ofRatio_half {j : Nat} (hlow : 2 ^ 52 ≤ j) (hhigh : j < 2 ^ 53) :
    (magnitude (ofRatio false (2 * j + 1) 2)).value = (j + j % 2 : Nat) := by
  have hvalue : ((2 * j + 1 : Nat) / (2 : Nat) : ℚ) = j + 1 / 2 := by
    push_cast
    ring
  have hlow' : (2 ^ 52 : ℚ) ≤ j := by exact_mod_cast hlow
  have hhigh' : (j : ℚ) + 1 ≤ 2 ^ 53 := by exact_mod_cast hhigh
  have htarget : targetExponent (2 * j + 1) 2 = 0 := by
    refine targetExponent_eq (Nat.succ_pos _) Nat.two_pos (by decide) ?_ (.inl ?_) <;> rw [hvalue]
    · norm_num
      linarith
    · norm_num
      linarith
  have hround : RoundsIn ((2 * j + 1 : Nat) / (2 : Nat)) (j + j % 2) (2 ^ (0 : Int)) := by
    rw [hvalue, zpow_zero]
    refine ⟨?_, ?_, fun hodd => by omega⟩ <;> push_cast
    all_goals
      rcases Nat.mod_two_eq_zero_or_one j with h | h <;> rw [h] <;> push_cast <;> linarith
  have hbits : ((0 : Int) + 1074).toNat * 2 ^ 52 + (j + j % 2) < 0x7FF * 2 ^ 52 := by
    change 1074 * 2 ^ 52 + _ < _
    omega
  have hmost : ((0 : Int) + 1074).toNat * 2 ^ 52 + (j + j % 2) ≤ 0x7FF * twoTo 52 := hbits.le
  rw [ofRatio_of_rounds (Nat.succ_pos _) false htarget
    ((roundRatio_two_eq_iff Nat.two_pos 0).mpr hround), Nat.min_eq_left hmost,
    value_withSign (by decide) (by omega) (.inl (by omega)) hbits, zpow_zero, mul_one]

/-! ## The largest whole number below the sum -/

/-- The doubles for which the sum with one half is rounded up to the next whole number: the largest
one below one half, and odd numbers from `2 ^ 52` on. -/
def HalfCarries (x : Float) : Prop :=
  x = 0.49999999999999994 ∨ ∃ n : Int, exact x = n ∧ 2 ^ 52 < n.natAbs ∧ n % 2 = 1

theorem exact_below_half : exact 0.49999999999999994 = (2 ^ 53 - 1) * 2 ^ (-54 : Int) := by
  decide +kernel

theorem even_of_exponent {n : Int} (hn : exact x = n) (he : 0 < (magnitude x).exponent) :
    n % 2 = 0 := by
  obtain ⟨c, -, hvalue⟩ := exists_exact_eq x
  obtain ⟨j, hj⟩ : ∃ j : Nat, (magnitude x).exponent = j + 1 :=
    ⟨((magnitude x).exponent - 1).toNat, by omega⟩
  rw [hn, hj, zpow_add_one₀ two_ne_zero, zpow_natCast, ← mul_assoc] at hvalue
  have hwhole : n = c * 2 ^ j * 2 := by exact_mod_cast hvalue
  rw [hwhole, Int.mul_emod_left]

theorem natAbs_lt_of_exponent (hx : x.isFinite = true) {n : Int} (hn : exact x = n)
    (he : (magnitude x).exponent ≤ 0) : n.natAbs < 2 ^ 53 := by
  have hunit : (2 : ℚ) ^ (magnitude x).exponent ≤ 1 := zpow_le_one_of_nonpos₀ one_le_two he
  have hle : (n.natAbs : ℚ) ≤ (magnitude x).significand := by
    rw [Nat.cast_natAbs, Int.cast_abs, ← hn, abs_exact]
    exact mul_le_of_le_one_right (Nat.cast_nonneg _) hunit
  exact Nat.lt_of_le_of_lt (by exact_mod_cast hle) (isLegal_magnitude hx).lt

/-- Where the last unit is one, the sum is a tie and goes to the even neighbour. -/
theorem exact_add_half_of_tie (hx : x.isFinite = true) {n : Int} (hn : exact x = n)
    (hsize : n.natAbs < 2 ^ 53) (hlarge : 2 ^ 53 < (2 * n + 1).natAbs) :
    exact (x + 0.5) = (n + n % 2 : Int) := by
  have hsum : exact x + exact 0.5 = (2 * n + 1 : Int) / 2 := by
    rw [hn, exact_half]
    push_cast
    ring
  rcases lt_or_ge n 0 with hneg | hpos
  · obtain ⟨j, rfl⟩ : ∃ j : Nat, n = -j - 1 := ⟨(-n - 1).toNat, by omega⟩
    have hvalue : exact x + exact 0.5 = -((2 * j + 1 : Nat) / (2 : Nat)) := by
      rw [hsum]
      push_cast
      ring
    have hhalf : (0 : ℚ) < (2 * j + 1 : Nat) / (2 : Nat) := by positivity
    rw [add_eq_ofRatio hx (by decide) (Nat.succ_pos (2 * j)) Nat.two_pos
      (by rw [hvalue, abs_of_neg (neg_neg_of_pos hhalf), Rat.neg_neg]), hvalue, exact_ofRatio,
      decide_eq_true (neg_neg_of_pos hhalf), if_pos rfl,
      value_ofRatio_half (by omega) (by omega)]
    have heven : (-(j : Int) - 1 + (-(j : Int) - 1) % 2) = -((j + j % 2 : Nat) : Int) := by omega
    rw [heven, Int.cast_neg, Int.cast_natCast]
  · obtain ⟨j, rfl⟩ := Int.eq_ofNat_of_zero_le hpos
    have hvalue : exact x + exact 0.5 = (2 * j + 1 : Nat) / (2 : Nat) := by
      rw [hsum]
      push_cast
      rfl
    have hhalf : (0 : ℚ) < (2 * j + 1 : Nat) / (2 : Nat) := by positivity
    rw [add_eq_ofRatio hx (by decide) (Nat.succ_pos (2 * j)) Nat.two_pos
      (by rw [hvalue, abs_of_pos hhalf]), hvalue, exact_ofRatio,
      decide_eq_false (not_lt.mpr hhalf.le), if_neg Bool.false_ne_true,
      value_ofRatio_half (by omega) (by omega)]
    push_cast
    rfl

theorem floor_add_half_of_whole (hx : x.isFinite = true) {n : Int} (hn : exact x = n) :
    ⌊exact (x + 0.5)⌋ = if 2 ^ 52 < n.natAbs ∧ n % 2 = 1 then n + 1 else n := by
  by_cases hsmall : (2 * n + 1).natAbs ≤ 2 ^ 53
  · rw [if_neg (by omega)]
    exact (isNearest_add_half hx).2.floor_eq (by linarith) (by linarith) hsmall
  · rcases lt_or_ge 0 (magnitude x).exponent with hcoarse | hfine
    · have heven := even_of_exponent hn hcoarse
      rw [add_half_of_exponent hx hcoarse, hn, Int.floor_intCast, if_neg (by omega)]
    · have hsize := natAbs_lt_of_exponent hx hn hfine
      rw [exact_add_half_of_tie hx hn hsize (by omega), Int.floor_intCast]
      split <;> omega

/-- Below one by the last of 53 bits at least, the rounded sum does not reach it. -/
theorem IsNearest.floor_eq_zero {v z : ℚ} (h : IsNearest v z) (hlow : 0 ≤ v)
    (hhigh : v ≤ 1 - 1 / 2 ^ 53) : ⌊z⌋ = 0 := by
  have hlast : ((2 ^ 53 - 1 : Int) : ℚ) * 2 ^ (-53 : Int) = 1 - 1 / 2 ^ 53 := by norm_num
  have hge := h.ge (c := 2 ^ 53 - 1) (e := -53) (by decide) (by decide) (by rwa [hlast])
  have hle := h.le (c := 0) (e := 0) (by decide) (by decide) (by simpa using hlow)
  rw [hlast] at hge
  rw [Int.floor_eq_zero_iff]
  exact ⟨by simpa using hle, by linarith⟩

/-- Where the sum takes more bits than the number has, it lies just above a power of two, or below
one. -/
theorem IsNearest.floor_add_half {v z : ℚ} {e : Int} (h : IsNearest (v + 1 / 2) z)
    (hsize : |v| ≤ (2 ^ 53 - 1) * 2 ^ e) (hwide : 2 ^ 53 * 2 ^ e < |v + 1 / 2|)
    (hgap : e ≤ -54 → v ≤ 1 / 2 - 1 / 2 ^ 53) : ⌊z⌋ = ⌊v + 1 / 2⌋ := by
  have hunit : (0 : ℚ) < 2 ^ e := by positivity
  obtain ⟨hlow, hhigh⟩ := abs_le.mp hsize
  have hpos : 0 ≤ v + 1 / 2 := by
    by_contra hneg
    rw [abs_of_neg (not_le.mp hneg)] at hwide
    linarith
  rw [abs_of_nonneg hpos] at hwide
  by_cases hbelow : v + 1 / 2 ≤ 1 - 1 / 2 ^ 53
  · have hzero : ⌊v + 1 / 2⌋ = 0 := Int.floor_eq_zero_iff.mpr ⟨hpos, by linarith⟩
    rw [hzero]
    exact h.floor_eq_zero hpos hbelow
  · have hlarge : -54 < e := by
      by_contra hsmall
      have := hgap (not_lt.mp hsmall)
      exact hbelow (by linarith)
    -- the unit is less than a half, as only the last number before the power is so near to it
    have hpower : (2 : ℚ) ^ e < 2 ^ (-1 : Int) := by
      rw [zpow_neg_one]
      linarith
    have he := (zpow_lt_zpow_iff_right₀ (one_lt_two : (1 : ℚ) < 2)).mp hpower
    obtain ⟨j, hj⟩ : ∃ j : Nat, e = (j : Int) - 53 := ⟨(e + 53).toNat, by omega⟩
    have hwhole : (2 ^ 53 * 2 ^ e : ℚ) = (2 ^ j : Int) := by
      rw [Int.cast_pow, Int.cast_ofNat, ← zpow_natCast 2 53, ← zpow_natCast 2 j,
        ← zpow_add₀ two_ne_zero]
      congr 1
      omega
    rw [hwhole] at hwide
    have hnext : v + 1 / 2 ≤ (2 ^ j : Int) + 1 / 2 := by linarith
    have hfloor : ⌊v + 1 / 2⌋ = (2 ^ j : Int) := Int.floor_eq_iff.mpr ⟨hwide.le, by linarith⟩
    have hmost : (2 : Int) ^ j ≤ 2 ^ 51 := pow_le_pow_right₀ (by decide) (by omega)
    have hleast : (0 : Int) < 2 ^ j := by positivity
    rw [hfloor]
    exact h.floor_eq hwide.le hnext (by omega)

/-- The sum is exact where it fits at the exponent of the number. -/
theorem exact_add_half_of_fits (hx : x.isFinite = true) {c e : Int} (hvalue : exact x = c * 2 ^ e)
    (he : e < 0) (hleast : -1074 ≤ e) (hfits : |exact x + 1 / 2| ≤ 2 ^ 53 * 2 ^ e) :
    exact (x + 0.5) = exact x + 1 / 2 := by
  have hunit : (0 : ℚ) < 2 ^ e := by positivity
  have hsum : exact x + 1 / 2 = ((c + 2 ^ (-1 - e).toNat : Int) : ℚ) * 2 ^ e := by
    have hhalf : (1 / 2 : ℚ) = 2 ^ (-1 - e).toNat * 2 ^ e := by
      rw [← zpow_natCast, ← zpow_add₀ two_ne_zero, Int.toNat_of_nonneg (by omega),
        sub_add_cancel, zpow_neg_one, one_div]
    rw [hvalue, hhalf, Int.cast_add, Int.cast_pow, Int.cast_ofNat, add_mul]
  refine (isNearest_add_half hx).2.eq ?_ hleast hsum
  rw [hsum, abs_mul, abs_of_pos hunit, mul_le_mul_iff_left₀ hunit] at hfits
  have hbound : |(c + 2 ^ (-1 - e).toNat : Int)| ≤ 2 ^ 53 := by exact_mod_cast hfits
  have := abs_le.mp hbound
  omega

/-- A double at so small an exponent leaves a whole unit below one half, unless it is the largest
one there. -/
theorem exact_le_of_ne_below_half (hx : x.isFinite = true) {c e : Int} (hc : c.natAbs < 2 ^ 53)
    (hvalue : exact x = c * 2 ^ e) (he : e ≤ -54) (hne : x ≠ 0.49999999999999994) :
    exact x ≤ 1 / 2 - 1 / 2 ^ 53 := by
  rcases Int.lt_or_eq_of_le he with hless | rfl
  · have hbound : (2 : ℚ) ^ e ≤ 2 ^ (-55 : Int) := zpow_le_zpow_right₀ one_le_two (by omega)
    have hc' : (c : ℚ) ≤ 2 ^ 53 := by
      have : c ≤ 2 ^ 53 := by omega
      exact_mod_cast this
    calc exact x ≤ 2 ^ 53 * 2 ^ (-55 : Int) := by
          rw [hvalue]
          exact mul_le_mul hc' hbound (by positivity) (by norm_num)
      _ ≤ 1 / 2 - 1 / 2 ^ 53 := by norm_num
  · have hlast : c ≠ 2 ^ 53 - 1 := by
      rintro rfl
      refine hne (eq_of_exact_eq hx (by decide) ?_ ?_)
      · rw [hvalue]
        norm_num
      · rw [hvalue, exact_below_half]
        norm_num
    have hc' : (c : ℚ) ≤ 2 ^ 53 - 2 := by
      have : c ≤ 2 ^ 53 - 2 := by omega
      exact_mod_cast this
    calc exact x ≤ (2 ^ 53 - 2) * 2 ^ (-54 : Int) := by
          rw [hvalue]
          exact mul_le_mul_of_nonneg_right hc' (by positivity)
      _ = 1 / 2 - 1 / 2 ^ 53 := by norm_num

/-- A double with a fractional part that is not the largest one below one half. -/
theorem floor_add_half_of_fraction (hx : x.isFinite = true) (hfraction : ¬∃ n : Int, exact x = n)
    (hne : x ≠ 0.49999999999999994) : ⌊exact (x + 0.5)⌋ = ⌊exact x + 1 / 2⌋ := by
  obtain ⟨c, hc, hvalue⟩ := exists_exact_eq x
  have hlegal := isLegal_magnitude hx
  have hc' : c.natAbs < 2 ^ 53 := hc.trans_lt hlegal.lt
  have hleast := hlegal.least
  have hsize : |exact x| ≤ (2 ^ 53 - 1) * 2 ^ (magnitude x).exponent := by
    have hs : ((magnitude x).significand : ℚ) + 1 ≤ 2 ^ 53 := by exact_mod_cast hlegal.lt
    rw [abs_exact]
    exact mul_le_mul_of_nonneg_right (by linarith) (by positivity)
  generalize (magnitude x).exponent = e at hvalue hleast hsize
  have he : e < 0 := by
    by_contra hwhole
    refine hfraction ⟨c * 2 ^ e.toNat, ?_⟩
    rw [hvalue, Int.cast_mul, Int.cast_pow, Int.cast_ofNat, ← zpow_natCast, Int.toNat_of_nonneg
      (by omega)]
  by_cases hfits : |exact x + 1 / 2| ≤ 2 ^ 53 * 2 ^ e
  · rw [exact_add_half_of_fits hx hvalue he hleast hfits]
  · exact (isNearest_add_half hx).2.floor_add_half hsize (not_le.mp hfits) fun hsmall =>
      exact_le_of_ne_below_half hx hc' hvalue hsmall hne

/-- Only where the half carries, the sum reaches the next whole number. -/
theorem floor_add_half (hx : x.isFinite = true) (h : ¬HalfCarries x) :
    ⌊exact (x + 0.5)⌋ = ⌊exact x + 1 / 2⌋ := by
  obtain ⟨hne, hodd⟩ := not_or.mp h
  by_cases hwhole : ∃ n : Int, exact x = n
  · obtain ⟨n, hn⟩ := hwhole
    rw [floor_add_half_of_whole hx hn, if_neg fun hcarries => hodd ⟨n, hn, hcarries⟩, hn, eq_comm,
      Int.floor_eq_iff]
    constructor <;> linarith
  · exact floor_add_half_of_fraction hx hwhole hne

theorem floor_add_half_of_carries (hx : x.isFinite = true) (h : HalfCarries x) :
    ⌊exact (x + 0.5)⌋ = ⌊exact x + 1 / 2⌋ + 1 := by
  rcases h with rfl | ⟨n, hn, hcarries⟩
  · decide +kernel
  · have hfloor : ⌊exact x + 1 / 2⌋ = n := by
      rw [hn, Int.floor_eq_iff]
      constructor <;> linarith
    rw [floor_add_half_of_whole hx hn, if_pos hcarries, hfloor]

example : (0.49999999999999994 + 0.5 : Float) = 1.0 := by decide +kernel

end Double

/-! ## The function -/

open Double in
/-- A finite number is rounded to a whole number. It lies less than one half below that number, or
at most one half above it, and a whole number is kept, except exactly where the half carries: there
the result is the next whole number. -/
theorem Function.evaluateNamed_round {x : Float} (hx : x.isFinite = true) :
    ∃ n : Float, Function.evaluateNamed "round" [Scalar.real x] = .ok (.real n) ∧
      isIntegral n = true ∧
      (exact n - 1 / 2 ≤ exact x ∧ exact x < exact n + 1 / 2 ↔ ¬HalfCarries x) ∧
      (HalfCarries x → exact n = ⌊exact x + 1 / 2⌋ + 1) ∧
      (isIntegral x = true → ((n == x) = true ↔ ¬HalfCarries x)) := by
  obtain ⟨hfinite, hvalue⟩ := exact_ofInt_floor (isNearest_add_half hx).1
  have hrounded : Function.evaluateNamed "round" [Scalar.real x] =
      .ok (.real (if x.isFinite then ofInt (Double.floor (x + 0.5)) else x)) := rfl
  rw [if_pos hx] at hrounded
  have hlow := Int.floor_le (exact x + 1 / 2)
  have hhigh := Int.lt_floor_add_one (exact x + 1 / 2)
  refine ⟨_, hrounded, (isIntegral_iff_exact hfinite).mpr ⟨_, hvalue⟩, ?_⟩
  by_cases hcarries : HalfCarries x
  · have hnext : exact (ofInt (Double.floor (x + 0.5))) = ⌊exact x + 1 / 2⌋ + 1 := by
      rw [hvalue, floor_add_half_of_carries hx hcarries, Int.cast_add, Int.cast_one]
    refine ⟨iff_of_false (fun h => ?_) (not_not.mpr hcarries), fun _ => hnext,
      fun _ => iff_of_false (fun h => ?_) (not_not.mpr hcarries)⟩
    · linarith [h.1]
    · have := (beq_iff_exact hfinite hx).mp h
      linarith
  · have hsame : exact (ofInt (Double.floor (x + 0.5))) = ⌊exact x + 1 / 2⌋ := by
      rw [hvalue, floor_add_half hx hcarries]
    refine ⟨iff_of_true ⟨by linarith, by linarith⟩ hcarries, fun h => absurd h hcarries,
      fun hwhole => iff_of_true ((beq_iff_exact hfinite hx).mpr ?_) hcarries⟩
    obtain ⟨n, hn⟩ := (isIntegral_iff_exact hx).mp hwhole
    have hfloor : ⌊exact x + 1 / 2⌋ = n := by
      rw [hn, Int.floor_eq_iff]
      constructor <;> linarith
    rw [hsame, hfloor, hn]

/-- An odd number above `2 ^ 52` is not kept. -/
theorem Function.evaluateNamed_round_odd :
    (4503599627370497.0 : Float).isFinite = true ∧
      ∃ n : Float, Function.evaluateNamed "round" [Scalar.real 4503599627370497.0] = .ok (.real n) ∧
        Double.exact n = 4503599627370498 := by
  have hvalue : Double.exact 4503599627370497.0 = (4503599627370497 : Int) := by decide +kernel
  have hcarries : Double.HalfCarries 4503599627370497.0 :=
    .inr ⟨4503599627370497, hvalue, by decide, by decide⟩
  refine ⟨by decide, ?_⟩
  obtain ⟨n, hrounded, -, -, hnext, -⟩ :=
    Function.evaluateNamed_round (x := 4503599627370497.0) (by decide)
  refine ⟨n, hrounded, ?_⟩
  have hfloor : ⌊(4503599627370497 : Int) + (1 / 2 : ℚ)⌋ = 4503599627370497 := by
    rw [Int.floor_eq_iff]
    norm_num
  rw [hnext hcarries, hvalue, hfloor]
  norm_num

end Reckoner
