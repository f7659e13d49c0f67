import Reckoner.Proofs.Double.Decimal
import Reckoner.Proofs.Double.Product

/-!
# Magnitudes of doubles

A finite double is its sign and its magnitude, also for the operations, which take it apart. A
double that has the positive sign is its own size, and adding it to zero changes nothing.
-/

namespace Reckoner.Double

open Float.Model Float.Model.UnpackedFloat

variable {x y : Float}

/-! ## Values -/

theorem value_eq_zero (h : isZero x = true) : (magnitude x).value = 0 := by
  obtain ⟨he, hf⟩ := (isZero_iff x).mp h
  have hmagnitude : magnitude x = ⟨fractionBits x, -1074⟩ := if_pos he
  rw [hmagnitude, hf, Magnitude.value, Nat.cast_zero, zero_mul]

theorem value_pos (h : isZero x = false) : 0 < (magnitude x).value := by
  have hpos : (0 : ℚ) < (magnitude x).significand := by exact_mod_cast significand_pos h
  unfold Magnitude.value
  positivity

theorem isZero_eq_false (h : 0 < (magnitude x).value) : isZero x = false := by
  rw [← Bool.not_eq_true]
  exact fun hzero => h.ne' (value_eq_zero hzero)

/-- Below a power of two a magnitude leaves out at least its last unit. -/
theorem Magnitude.IsLegal.value_le {m : Magnitude} (h : m.IsLegal) {j : Int} (hj : -1074 ≤ j)
    (hlt : m.value < 2 ^ 53 * 2 ^ j) : m.value ≤ (2 ^ 53 - 1) * 2 ^ j := by
  have hunit : (0 : ℚ) < 2 ^ m.exponent := by positivity
  unfold value at *
  rcases lt_trichotomy m.exponent j with hless | heq | hmore
  · have hhalf : (2 : ℚ) ^ m.exponent * 2 ≤ 2 ^ j := by
      rw [← zpow_add_one₀ two_ne_zero]
      exact zpow_le_zpow_right₀ one_le_two (by omega)
    have hsignificand : (m.significand : ℚ) ≤ 2 ^ 53 := by exact_mod_cast h.lt.le
    have := mul_le_mul_of_nonneg_right hsignificand hunit.le
    linarith
  · rw [← heq]
    have hsignificand : (m.significand : ℚ) + 1 ≤ 2 ^ 53 := by exact_mod_cast h.lt
    exact mul_le_mul_of_nonneg_right (by linarith) hunit.le
  · have hdouble : (2 : ℚ) ^ j * 2 ≤ 2 ^ m.exponent := by
      rw [← zpow_add_one₀ two_ne_zero]
      exact zpow_le_zpow_right₀ one_le_two (by omega)
    have hfull : (2 ^ 52 : ℚ) ≤ m.significand := by
      exact_mod_cast h.full.resolve_right (by omega)
    have := mul_le_mul_of_nonneg_right hfull hunit.le
    linarith

/-- A significand of 53 bits at most, at an exponent that is the least or does not leave a bit
unused, gives the bits of its value; a carry goes into the exponent. -/
theorem value_withSign {k : Nat} {t : Int} (hleast : -1074 ≤ t) (hk : k ≤ 2 ^ 53)
    (hfull : 2 ^ 52 ≤ k ∨ t = -1074)
    (hbits : (t + 1074).toNat * 2 ^ 52 + k < 0x7FF * 2 ^ 52) :
    (magnitude (withSign false ((t + 1074).toNat * 2 ^ 52 + k))).value = k * 2 ^ t := by
  have hword := toBits_withSign (Nat.le_of_lt hbits)
  have hexponent : exponentBits (withSign false ((t + 1074).toNat * 2 ^ 52 + k)) =
      (t + 1074).toNat + k / 2 ^ 52 := by
    change _ / 2 ^ 52 % 2 ^ 11 = _
    rw [hword]
    omega
  have hfraction : fractionBits (withSign false ((t + 1074).toNat * 2 ^ 52 + k)) = k % 2 ^ 52 := by
    change _ % 2 ^ 52 = _
    rw [hword]
    omega
  unfold magnitude Magnitude.value
  rw [hexponent, hfraction, show twoTo 52 = 2 ^ 52 from rfl]
  rcases Nat.lt_or_ge k (2 ^ 52) with hsmall | hlarge
  · obtain rfl : t = -1074 := hfull.resolve_left (Nat.not_le.mpr hsmall)
    rw [if_pos (by omega), Nat.mod_eq_of_lt hsmall]
  · rw [if_neg (by omega)]
    rcases Nat.lt_or_eq_of_le hk with hnarrow | rfl
    · have hexponent : (((t + 1074).toNat + k / 2 ^ 52 : Nat) : Int) - 1075 = t := by omega
      have hsignificand : k % 2 ^ 52 + 2 ^ 52 = k := by omega
      rw [hexponent, hsignificand]
    · have hexponent : (((t + 1074).toNat + 2 ^ 53 / 2 ^ 52 : Nat) : Int) - 1075 = t + 1 := by omega
      have hcarry : ((2 ^ 53 % 2 ^ 52 + 2 ^ 52 : Nat) : ℚ) * 2 = (2 ^ 53 : Nat) := by norm_num
      rw [hexponent, zpow_add_one₀ two_ne_zero, Rat.mul_comm (2 ^ t), ← Rat.mul_assoc, hcarry]

/-! ## Taking apart -/

/-- A finite double that is no zero unpacks to its magnitude. -/
theorem unpack_eq_magnitude {x : Float} (hfinite : x.isFinite = true) (hzero : isZero x = false) :
    x.toModel.unpack = .finite (if isNegative x then .negative else .positive)
      (magnitude x).significand (magnitude x).exponent (significand_pos hzero) := by
  obtain ⟨e, f, he, hf, hx⟩ := unpack_eq x
  have hne : e ≠ -1#11 := by
    rw [ne_eq, eq_neg_one_iff, he]
    exact (isFinite_iff x).mp hfinite
  have hpos := significand_pos hzero
  suffices ∀ h, assemble (if isNegative x then .negative else .positive) e f =
      .finite (if isNegative x then .negative else .positive)
        (magnitude x).significand (magnitude x).exponent h from hx.trans (this _)
  intro h
  unfold assemble
  rw [if_neg hne]
  by_cases hleast : exponentBits x = 0
  · have hmagnitude : magnitude x = ⟨fractionBits x, -1074⟩ := if_pos hleast
    rw [hmagnitude] at hpos
    have hfraction : f ≠ 0#52 := by
      rw [ne_eq, eq_zero_iff, hf]
      exact Nat.ne_of_gt hpos
    rw [if_pos ((eq_zero_iff e).mpr (he.trans hleast)), dif_neg hfraction]
    simp only [hmagnitude, hf]
  · have hmagnitude : magnitude x = ⟨fractionBits x + twoTo 52, (exponentBits x : Int) - 1075⟩ :=
      if_neg hleast
    rw [if_neg (fun h => hleast (he.symm.trans ((eq_zero_iff e).mp h)))]
    simp only [hmagnitude, toNat_one_append, he, hf, Nat.add_comm]
    rfl

theorem unpack_of_positive (hfinite : x.isFinite = true) (hzero : isZero x = false)
    (hneg : isNegative x = false) :
    x.toModel.unpack = .finite .positive (magnitude x).significand (magnitude x).exponent
      (significand_pos hzero) := by
  rw [unpack_eq_magnitude hfinite hzero, hneg, if_neg Bool.false_ne_true]

/-- A significand of 53 bits is kept by the bits of its double. -/
theorem unpack_pack_of_full (s : Sign) {k : Nat} {t : Int} (hk : 0 < k) (hlow : 2 ^ 52 ≤ k)
    (hhigh : k < 2 ^ 53) (hleast : -1074 ≤ t) (hmost : t ≤ 971) :
    (Float.ofModel (Float.Model.pack (.finite s k t hk))).toModel.unpack = .finite s k t hk := by
  obtain ⟨n, rfl⟩ : ∃ n : Nat, t = (n : Int) - 1075 := ⟨(t + 1075).toNat, by omega⟩
  have hlog : k.log2 = 52 := (Nat.log2_eq_iff (Nat.ne_of_gt hk)).mpr ⟨hlow, hhigh⟩
  have hexponent : (BitVec.ofNat 11 n).toNat = n := by
    rw [BitVec.toNat_ofNat]
    omega
  have hsignificand : (1#1 ++ BitVec.ofNat 52 k).toNat = k := by
    rw [toNat_one_append, BitVec.toNat_ofNat]
    omega
  change UnpackedFloat.unpack Format.binary64 (UnpackedFloat.pack Format.binary64 _) = _
  rw [pack_normal s hk hlog (by omega), unpack_packComponents, assemble,
    if_neg (by rw [eq_neg_one_iff, hexponent]; omega),
    if_neg (by rw [eq_zero_iff, hexponent]; omega)]
  simp only [hexponent, hsignificand]

/-- No double with the positive sign is the negative zero. -/
theorem unpack_ne_negative_zero (hneg : isNegative x = false) :
    x.toModel.unpack ≠ .zero .negative := by
  obtain ⟨e, f, -, -, hx⟩ := unpack_eq x
  rw [hx, hneg]
  rcases assemble_cases .positive e f with h | h | h | ⟨_, _, _, h, -⟩ <;>
    · intro heq
      cases h.symm.trans heq

/-! ## Sizes -/

theorem abs_of_isNegative_eq_false (hneg : isNegative x = false) : x.abs = x := by
  obtain ⟨e, f, -, -, hx⟩ := unpack_eq x
  rw [hneg, if_neg Bool.false_ne_true] at hx
  have habs : x.toModel.unpack.abs = x.toModel.unpack := by
    rw [hx]
    rcases assemble_cases .positive e f with h | h | h | ⟨_, _, _, h, -⟩ <;> rw [h] <;> rfl
  change Float.ofModel (Float.Model.pack x.toModel.unpack.abs) = x
  rw [habs]
  exact congrArg Float.ofModel (pack_unpack x)

/-- What is not a number has the positive sign. -/
theorem isNaN_of_isNegative (hneg : isNegative x = true) : x.isNaN = false := by
  rw [← Bool.not_eq_true]
  intro hnan
  rw [eq_nan hnan] at hneg
  revert hneg
  decide

theorem isNegative_neg_of_isNegative (hneg : isNegative x = true) : isNegative (-x) = false := by
  rw [isNegative_neg (isNaN_of_isNegative hneg), hneg]
  rfl

theorem abs_of_isNegative (hneg : isNegative x = true) : x.abs = -x := by
  rw [← abs_neg, abs_of_isNegative_eq_false (isNegative_neg_of_isNegative hneg)]

protected theorem abs_abs (x : Float) : x.abs.abs = x.abs := by
  cases hneg : isNegative x with
  | false => rw [abs_of_isNegative_eq_false hneg, abs_of_isNegative_eq_false hneg]
  | true => rw [abs_of_isNegative hneg, abs_neg, abs_of_isNegative hneg]

/-- The size of a number has its magnitude and the positive sign. -/
theorem abs_spec (hnan : x.isNaN = false) :
    isNegative x.abs = false ∧ magnitude x.abs = magnitude x := by
  cases hneg : isNegative x with
  | false => rw [abs_of_isNegative_eq_false hneg]; exact ⟨hneg, rfl⟩
  | true =>
      have hmagnitude : magnitude (-x) = magnitude x := by
        unfold magnitude
        rw [exponentBits_neg hnan, fractionBits_neg hnan]
      rw [abs_of_isNegative hneg]
      exact ⟨isNegative_neg_of_isNegative hneg, hmagnitude⟩

/-! ## Comparisons -/

theorem compare_of_lt (h : x < y) :
    (x.toModel.unpack.compare y.toModel.unpack == some .lt) = true := of_decide_eq_true h

theorem not_lt_zero (hneg : isNegative x = false) : ¬x < 0.0 := by
  intro h
  have hzero : (0.0 : Float).toModel.unpack = .zero .positive := rfl
  have hlt := compare_of_lt h
  obtain ⟨e, f, -, -, hx⟩ := unpack_eq x
  rw [hneg, if_neg Bool.false_ne_true] at hx
  rw [hzero, hx] at hlt
  rcases assemble_cases .positive e f with h | h | h | ⟨_, _, _, h, -⟩ <;>
    · rw [h] at hlt
      cases hlt

theorem compare_of_le (h : x ≤ y) :
    (x.toModel.unpack.compare y.toModel.unpack).any (·.isLE) = true := of_decide_eq_true h

theorem lt_of_compare
    (h : (x.toModel.unpack.compare y.toModel.unpack == some .lt) = true) : x < y :=
  decide_eq_true h

/-- Two numbers compare one way, and the other way around. -/
theorem exists_compare {a b : UnpackedFloat} (ha : a.isNaN = false) (hb : b.isNaN = false) :
    ∃ o, a.compare b = some o ∧ b.compare a = some o.swap := by
  cases a with
  | notANumber => cases ha
  | infinity s =>
      cases b with
      | notANumber => cases hb
      | infinity t => cases s <;> cases t <;> exact ⟨_, rfl, rfl⟩
      | _ => cases s <;> exact ⟨_, rfl, rfl⟩
  | zero s =>
      cases b with
      | notANumber => cases hb
      | zero => exact ⟨_, rfl, rfl⟩
      | infinity t | finite t => cases t <;> exact ⟨_, rfl, rfl⟩
  | finite s m e =>
      cases b with
      | notANumber => cases hb
      | infinity t => cases t <;> exact ⟨_, rfl, rfl⟩
      | zero => cases s <;> exact ⟨_, rfl, rfl⟩
      | finite t m' e' =>
          have hswap : (compare e' e).then (compare m' m) =
              ((compare e e').then (compare m m')).swap := by
            rw [Ordering.swap_then, ← Std.OrientedCmp.eq_swap, ← Std.OrientedCmp.eq_swap]
          cases s with
          | positive =>
              cases t with
              | positive => exact ⟨_, rfl, congrArg some hswap⟩
              | negative => exact ⟨_, rfl, rfl⟩
          | negative =>
              cases t with
              | positive => exact ⟨_, rfl, rfl⟩
              | negative => exact ⟨_, rfl, congrArg (fun o : Ordering => some o.swap) hswap⟩

theorem le_of_not_lt (hx : x.isNaN = false) (hy : y.isNaN = false) (h : ¬x < y) : y ≤ x := by
  obtain ⟨o, ho, hswap⟩ := exists_compare (a := x.toModel.unpack) (b := y.toModel.unpack) hx hy
  have hnot : o ≠ .lt := by
    rintro rfl
    exact h (lt_of_compare (by rw [ho]; rfl))
  have hle : (y.toModel.unpack.compare x.toModel.unpack).any (·.isLE) = true := by
    rw [hswap]
    cases o with
    | lt => exact absurd rfl hnot
    | eq | gt => rfl
  exact decide_eq_true hle

/-- Only equal numbers compare as equal, and zeros. -/
theorem compare_eq_iff (a b : UnpackedFloat) : a.compare b = some .eq ↔
    a.isNaN = false ∧ (a = b ∨ ∃ s t, a = .zero s ∧ b = .zero t) := by
  cases a with
  | notANumber => simp [UnpackedFloat.compare, UnpackedFloat.isNaN]
  | infinity s =>
      cases b with
      | notANumber => simp [UnpackedFloat.compare]
      | infinity t =>
          cases s <;> cases t <;> simp [UnpackedFloat.compare, UnpackedFloat.isNaN] <;> decide
      | _ => cases s <;> simp [UnpackedFloat.compare, UnpackedFloat.isNaN]
  | zero s =>
      cases b with
      | notANumber => simp [UnpackedFloat.compare]
      | zero => simp [UnpackedFloat.compare, UnpackedFloat.isNaN]
      | infinity t | finite t => cases t <;> simp [UnpackedFloat.compare, UnpackedFloat.isNaN]
  | finite s m e =>
      cases b with
      | notANumber => simp [UnpackedFloat.compare]
      | infinity t => cases t <;> simp [UnpackedFloat.compare, UnpackedFloat.isNaN]
      | zero => cases s <;> simp [UnpackedFloat.compare, UnpackedFloat.isNaN]
      | finite t m' e' =>
          cases s <;> cases t <;> simp [UnpackedFloat.compare, UnpackedFloat.isNaN,
            Ordering.then_eq_eq, Ordering.swap_eq_eq, and_comm]

theorem unpack_inj : x.toModel.unpack = y.toModel.unpack ↔ x = y := by
  refine ⟨fun h => ?_, fun h => h ▸ rfl⟩
  have hx := pack_unpack x
  rw [h, pack_unpack] at hx
  exact congrArg Float.ofModel hx.symm

theorem isZero_iff_unpack : isZero x = true ↔ ∃ s, x.toModel.unpack = .zero s := by
  change (x.toModel.unpack.compare (.zero .positive) == some .eq) = true ↔ _
  rw [beq_iff_eq, compare_eq_iff]
  constructor
  · rintro ⟨-, h | ⟨s, t, h, -⟩⟩ <;> exact ⟨_, h⟩
  · rintro ⟨s, h⟩
    rw [h]
    exact ⟨rfl, .inr ⟨s, .positive, rfl, rfl⟩⟩

/-- Only equal numbers are the same, and zeros. -/
theorem beq_iff :
    (x == y) = true ↔ x.isNaN = false ∧ (x = y ∨ isZero x = true ∧ isZero y = true) := by
  change (x.toModel.unpack.compare y.toModel.unpack == some .eq) = true ↔
    x.toModel.unpack.isNaN = false ∧ _
  rw [beq_iff_eq, compare_eq_iff, unpack_inj, isZero_iff_unpack, isZero_iff_unpack,
    exists_and_exists_comm]

/-! ## Adding and subtracting zero -/

theorem add_eq_of_unpack {z : Float} (h : UnpackedFloat.add Format.binary64 x.toModel.unpack
    y.toModel.unpack = z.toModel.unpack) : x + y = z := by
  change Float.ofModel (Float.Model.pack (UnpackedFloat.add Format.binary64 x.toModel.unpack
    y.toModel.unpack)) = z
  rw [h]
  exact congrArg Float.ofModel (pack_unpack z)

theorem sub_eq_of_unpack {z : Float} (h : UnpackedFloat.sub Format.binary64 x.toModel.unpack
    y.toModel.unpack = z.toModel.unpack) : x - y = z := by
  change Float.ofModel (Float.Model.pack (UnpackedFloat.sub Format.binary64 x.toModel.unpack
    y.toModel.unpack)) = z
  rw [h]
  exact congrArg Float.ofModel (pack_unpack z)

theorem unpack_zero : (0.0 : Float).toModel.unpack = .zero .positive := rfl

theorem zero_add (hneg : isNegative x = false) : 0.0 + x = x := by
  apply add_eq_of_unpack
  rw [unpack_zero]
  cases hunpack : x.toModel.unpack with
  | zero s =>
      cases s with
      | positive => rfl
      | negative => exact absurd hunpack (unpack_ne_negative_zero hneg)
  | _ => rfl

/-- The negative zero is the only double that adding zero changes. -/
theorem add_zero_iff : x + 0.0 = x ↔ x ≠ -0.0 := by
  constructor
  · rintro h rfl
    revert h
    decide
  · intro hne
    apply add_eq_of_unpack
    rw [unpack_zero]
    cases hunpack : x.toModel.unpack with
    | zero s =>
        cases s with
        | positive => rfl
        | negative => exact absurd (unpack_inj.mp (hunpack.trans rfl)) hne
    | _ => rfl

protected theorem sub_zero (x : Float) : x - 0.0 = x := by
  apply sub_eq_of_unpack
  rw [unpack_zero]
  cases x.toModel.unpack with
  | zero s => cases s <;> rfl
  | _ => rfl

protected theorem zero_sub (hzero : isZero x = false) : 0.0 - x = -x := by
  apply sub_eq_of_unpack
  rw [unpack_zero, unpack_neg]
  cases hunpack : x.toModel.unpack with
  | zero s =>
      rw [isZero_iff_unpack.mpr ⟨s, hunpack⟩] at hzero
      cases hzero
  | _ => rfl

end Reckoner.Double
