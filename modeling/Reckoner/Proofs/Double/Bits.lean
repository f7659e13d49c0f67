import Mathlib
import Reckoner.Double.Basic

/-!
# Doubles and their bits

A double is its sign bit, its stored exponent and its stored fraction, and every combination of
the three is a double, except that all values which are not numbers are one. So what a double is
can be read off these fields, and negation changes the sign bit and nothing else.
-/

namespace Reckoner.Double

open Float.Model Float.Model.UnpackedFloat

/-! ## Packing and unpacking -/

theorem toNat_one_append (f : BitVec 52) : (1#1 ++ f).toNat = 2 ^ 52 + f.toNat := by
  rw [BitVec.toNat_append, ← Nat.shiftLeft_add_eq_or_of_lt f.isLt]
  rfl

/-- The unpacked double of a sign, a stored exponent and a stored fraction. -/
def assemble (s : Sign) (e : BitVec 11) (f : BitVec 52) : UnpackedFloat :=
  if e = -1#11 then if f = 0#52 then .infinity s else .notANumber
  else if e = 0#11 then
    if h : f = 0#52 then .zero s
    else .finite s f.toNat (-1074) (by simpa [BitVec.toNat_pos, BitVec.pos_iff_ne_zero] using h)
  else .finite s (1#1 ++ f).toNat ((e.toNat : Int) - 1075) (by rw [toNat_one_append]; omega)

theorem unpack_eq_assemble (b : BitVec 64) :
    UnpackedFloat.unpack Format.binary64 b =
      assemble (.ofBitVec (@unpackSign Format.binary64 b))
        (@unpackExponent Format.binary64 b)
        (@unpackMantissa Format.binary64 b) := by
  unfold UnpackedFloat.unpack assemble
  dsimp only
  split
  · rfl
  · split
    case isTrue h =>
      simp only [h]
      rfl
    case isFalse h => rfl

theorem neg_assemble (s : Sign) (e : BitVec 11) (f : BitVec 52) :
    (assemble s e f).neg = assemble (-s) e f := by
  unfold assemble
  split
  · split <;> rfl
  · split
    · split <;> rfl
    · rfl

theorem pack_subnormal (s : Sign) {m : Nat} (hm : 0 < m) (h : m.log2 < 52) :
    UnpackedFloat.pack Format.binary64 (.finite s m (-1074) hm) =
      packComponents Format.binary64 s 0#11 (BitVec.ofNat 52 m) := by
  have hbits : ¬ m.log2 + 1 = Format.binary64.mantissaBits := by
    change ¬ m.log2 + 1 = 53
    omega
  unfold UnpackedFloat.pack
  exact (if_neg (by decide)).trans (if_neg hbits)

theorem pack_normal (s : Sign) {m : Nat} (hm : 0 < m) (h : m.log2 = 52) {e : Nat} (he : e < 2047) :
    UnpackedFloat.pack Format.binary64 (.finite s m ((e : Int) - 1075) hm) =
      packComponents Format.binary64 s (BitVec.ofNat 11 e) (BitVec.ofNat 52 m) := by
  have hbits : m.log2 + 1 = Format.binary64.mantissaBits := by
    rw [h]
    rfl
  have hbiased : ((e : Int) - 1075 + Format.binary64.exponentBias +
      Format.binary64.mantissaBitsWithoutImplicit).toNat = e := by
    change ((e : Int) - 1075 + (1023 : Nat) + (52 : Nat)).toNat = e
    omega
  unfold UnpackedFloat.pack
  simp only [hbiased]
  exact (if_neg (by change ¬ 2048 ≤ e + 1; omega)).trans (if_pos hbits)

theorem pack_assemble (s : Sign) (e : BitVec 11) (f : BitVec 52)
    (h : e = -1#11 → f = 0#52) :
    UnpackedFloat.pack Format.binary64 (assemble s e f) =
      packComponents Format.binary64 s e f := by
  have hf := f.isLt
  unfold assemble
  split
  case isTrue he =>
      rw [if_pos (h he), he, h he]
      rfl
  case isFalse he =>
      have hlt : e.toNat < 2047 := by
        have := e.isLt
        have hne : e.toNat ≠ 2047 := fun h => he (BitVec.eq_of_toNat_eq h)
        omega
      split
      case isTrue hzero =>
          split
          case isTrue hf => rw [hf, hzero]; rfl
          case isFalse hne =>
            have hpos : 0 < f.toNat := by
              simpa [BitVec.toNat_pos, BitVec.pos_iff_ne_zero] using hne
            have hlog : f.toNat.log2 < 52 := (Nat.log2_lt (Nat.ne_of_gt hpos)).mpr hf
            rw [pack_subnormal s hpos hlog, hzero, BitVec.ofNat_toNat, BitVec.setWidth_eq]
      case isFalse hzero =>
          have hlog : (1#1 ++ f).toNat.log2 = 52 := by
            rw [toNat_one_append, Nat.log2_eq_iff (by omega)]
            omega
          rw [pack_normal s _ hlog hlt]
          congr 1
          · rw [BitVec.ofNat_toNat, BitVec.setWidth_eq]
          · apply BitVec.eq_of_toNat_eq
            rw [BitVec.toNat_ofNat, toNat_one_append]
            omega

/-! ## Fields -/

theorem toNat_unpackMantissa (b : BitVec 64) :
    (@unpackMantissa Format.binary64 b).toNat = b.toNat % 2 ^ 52 := by
  simp [unpackMantissa, BitVec.extractLsb, BitVec.extractLsb']

theorem toNat_unpackExponent (b : BitVec 64) :
    (@unpackExponent Format.binary64 b).toNat = b.toNat / 2 ^ 52 % 2 ^ 11 := by
  simp [unpackExponent, BitVec.extractLsb, BitVec.extractLsb', Nat.shiftRight_eq_div_pow]

theorem toNat_unpackSign (b : BitVec 64) :
    (@unpackSign Format.binary64 b).toNat = b.toNat / 2 ^ 63 := by
  have := b.isLt
  simp [unpackSign, BitVec.extractLsb, BitVec.extractLsb', Nat.shiftRight_eq_div_pow]
  omega

theorem toNat_packComponents (s : Sign) (e : BitVec 11) (f : BitVec 52) :
    (packComponents Format.binary64 s e f).toNat =
      s.toBitVec.toNat * 2 ^ 63 + e.toNat * 2 ^ 52 + f.toNat := by
  unfold packComponents
  rw [BitVec.toNat_append, ← Nat.shiftLeft_add_eq_or_of_lt f.isLt, BitVec.toNat_append,
    ← Nat.shiftLeft_add_eq_or_of_lt e.isLt, Nat.shiftLeft_eq, Nat.shiftLeft_eq]
  omega

theorem unpackSign_packComponents (s : Sign) (e : BitVec 11) (f : BitVec 52) :
    unpackSign (packComponents Format.binary64 s e f) = s.toBitVec := by
  apply BitVec.eq_of_toNat_eq
  have he := e.isLt
  have hf := f.isLt
  rw [toNat_unpackSign, toNat_packComponents]
  omega

theorem toBitVec_ofBitVec (b : BitVec 1) : (Sign.ofBitVec b).toBitVec = b := by
  revert b
  decide

theorem ofBitVec_toBitVec (s : Sign) : Sign.ofBitVec s.toBitVec = s := by
  cases s <;> rfl

theorem packComponents_fields (b : BitVec 64) :
    packComponents Format.binary64 (.ofBitVec (@unpackSign Format.binary64 b))
      (@unpackExponent Format.binary64 b)
      (@unpackMantissa Format.binary64 b) = b := by
  apply BitVec.eq_of_toNat_eq
  have hb := b.isLt
  rw [toNat_packComponents, toBitVec_ofBitVec, toNat_unpackSign, toNat_unpackExponent,
    toNat_unpackMantissa]
  omega

theorem unpack_packComponents (s : Sign) (e : BitVec 11) (f : BitVec 52) :
    UnpackedFloat.unpack Format.binary64 (packComponents Format.binary64 s e f) =
      assemble s e f := by
  rw [unpack_eq_assemble, unpackSign_packComponents, ofBitVec_toBitVec,
    unpackExponent_packComponents, unpackMantissa_packComponents]

/-! ## Doubles and their bits -/

/-- Packing what has been unpacked changes no bits. -/
theorem pack_unpack (x : Float) : Float.Model.pack x.toModel.unpack = x.toModel := by
  obtain ⟨⟨b, hvalid⟩⟩ := x
  have hbits : UnpackedFloat.pack Format.binary64
      (UnpackedFloat.unpack Format.binary64 b.toBitVec) = b.toBitVec := by
    by_cases hnan : @unpackExponent Format.binary64 b.toBitVec = -1#11 ∧
        @unpackMantissa Format.binary64 b.toBitVec ≠ 0#52
    · rw [hvalid.eq_packedNaN hnan.1 hnan.2]
      rfl
    · rw [unpack_eq_assemble, pack_assemble _ _ _ (by simpa using hnan), packComponents_fields]
  unfold Float.Model.pack Float.Model.unpack
  simp only [hbits]

theorem ofBits_toBits (x : Float) : Float.ofBits x.toBits = x :=
  congrArg Float.ofModel (pack_unpack x)

/-- Unpacking a negated double gives the opposite sign and nothing else. -/
theorem unpack_neg (x : Float) : (-x).toModel.unpack = x.toModel.unpack.neg := by
  obtain ⟨⟨b, hvalid⟩⟩ := x
  change UnpackedFloat.unpack Format.binary64 (UnpackedFloat.pack Format.binary64
    (UnpackedFloat.unpack Format.binary64 b.toBitVec).neg) =
    (UnpackedFloat.unpack Format.binary64 b.toBitVec).neg
  by_cases hnan : @unpackExponent Format.binary64 b.toBitVec = -1#11 ∧
      @unpackMantissa Format.binary64 b.toBitVec ≠ 0#52
  · rw [hvalid.eq_packedNaN hnan.1 hnan.2]
    rfl
  · rw [unpack_eq_assemble b.toBitVec, neg_assemble, pack_assemble _ _ _ (by simpa using hnan),
      unpack_packComponents]

theorem neg_neg (x : Float) : -(-x) = x := by
  have hneg (u : UnpackedFloat) : u.neg.neg = u := by
    cases u with
    | infinity s | zero s | finite s => cases s <;> rfl
    | notANumber => rfl
  change Float.ofModel (Float.Model.pack ((-x).toModel.unpack.neg)) = x
  rw [unpack_neg, hneg, pack_unpack]

/-! ## Classes of doubles -/

/-- A double is put together from its sign bit and its stored exponent and fraction. -/
theorem unpack_eq (x : Float) : ∃ (e : BitVec 11) (f : BitVec 52),
    e.toNat = exponentBits x ∧ f.toNat = fractionBits x ∧
      x.toModel.unpack = assemble (if isNegative x then .negative else .positive) e f := by
  refine ⟨@unpackExponent Format.binary64 x.toBits.toBitVec,
    @unpackMantissa Format.binary64 x.toBits.toBitVec,
    toNat_unpackExponent _, toNat_unpackMantissa _, ?_⟩
  refine (unpack_eq_assemble x.toBits.toBitVec).trans ?_
  congr 1
  have hsign : (@unpackSign Format.binary64 x.toBits.toBitVec).toNat =
      x.toBits.toNat / 2 ^ 63 := toNat_unpackSign _
  have hlt := (@unpackSign Format.binary64 x.toBits.toBitVec).isLt
  unfold Sign.ofBitVec isNegative
  change _ = if (x.toBits.toNat / 2 ^ 63 == 1) = true then Sign.negative else .positive
  rw [← hsign]
  by_cases h : @unpackSign Format.binary64 x.toBits.toBitVec = 0#1
  · rw [if_pos h, h]
    rfl
  · have hone : (@unpackSign Format.binary64 x.toBits.toBitVec).toNat = 1 := by
      have hzero : (@unpackSign Format.binary64 x.toBits.toBitVec).toNat ≠ 0 :=
        fun hzero => h (BitVec.eq_of_toNat_eq hzero)
      omega
    rw [if_neg h, hone]
    rfl

theorem eq_neg_one_iff (e : BitVec 11) : e = -1#11 ↔ e.toNat = 2047 := by
  constructor
  · intro h
    rw [h]
    rfl
  · exact fun h => BitVec.eq_of_toNat_eq h

theorem eq_zero_iff {n : Nat} (f : BitVec n) : f = 0#n ↔ f.toNat = 0 := by
  rw [← BitVec.toNat_inj, BitVec.toNat_zero]

theorem isNaN_assemble (s : Sign) (e : BitVec 11) (f : BitVec 52) :
    (assemble s e f).isNaN = true ↔ e.toNat = 2047 ∧ f.toNat ≠ 0 := by
  rw [← eq_neg_one_iff, ne_eq, ← eq_zero_iff]
  unfold assemble
  repeat' split
  all_goals simp_all [UnpackedFloat.isNaN]

theorem isInf_assemble (s : Sign) (e : BitVec 11) (f : BitVec 52) :
    (assemble s e f).isInf = true ↔ e.toNat = 2047 ∧ f.toNat = 0 := by
  rw [← eq_neg_one_iff, ← eq_zero_iff]
  unfold assemble
  repeat' split
  all_goals simp_all [UnpackedFloat.isInf]

theorem isFinite_assemble (s : Sign) (e : BitVec 11) (f : BitVec 52) :
    (assemble s e f).isFinite = true ↔ e.toNat ≠ 2047 := by
  rw [ne_eq, ← eq_neg_one_iff]
  unfold assemble
  repeat' split
  all_goals simp_all [UnpackedFloat.isFinite]

theorem isNaN_iff (x : Float) : x.isNaN = true ↔ exponentBits x = 2047 ∧ fractionBits x ≠ 0 := by
  obtain ⟨e, f, he, hf, hx⟩ := unpack_eq x
  change x.toModel.unpack.isNaN = true ↔ _
  rw [hx, ← he, ← hf, isNaN_assemble]

theorem isInf_iff (x : Float) : x.isInf = true ↔ exponentBits x = 2047 ∧ fractionBits x = 0 := by
  obtain ⟨e, f, he, hf, hx⟩ := unpack_eq x
  change x.toModel.unpack.isInf = true ↔ _
  rw [hx, ← he, ← hf, isInf_assemble]

theorem isFinite_iff (x : Float) : x.isFinite = true ↔ exponentBits x ≠ 2047 := by
  obtain ⟨e, f, he, hf, hx⟩ := unpack_eq x
  change x.toModel.unpack.isFinite = true ↔ _
  rw [hx, ← he, isFinite_assemble]

theorem isNaN_eq_false {x : Float} (h : x.isFinite = true) : x.isNaN = false := by
  by_contra hnan
  exact (isFinite_iff x).mp h ((isNaN_iff x).mp (by simpa using hnan)).1

theorem isInf_eq_false {x : Float} (h : x.isFinite = true) : x.isInf = false := by
  by_contra hinf
  exact (isFinite_iff x).mp h ((isInf_iff x).mp (by simpa using hinf)).1

theorem isFinite_of_isInf_eq_false {x : Float} (hnan : x.isNaN = false) (hinf : x.isInf = false) :
    x.isFinite = true := by
  rw [isFinite_iff]
  intro he
  by_cases hf : fractionBits x = 0
  · rw [(isInf_iff x).mpr ⟨he, hf⟩] at hinf
    cases hinf
  · rw [(isNaN_iff x).mpr ⟨he, hf⟩] at hnan
    cases hnan

theorem compare_zero_assemble (s : Sign) (e : BitVec 11) (f : BitVec 52) :
    ((assemble s e f).compare (.zero .positive) == some .eq) = true ↔
      e.toNat = 0 ∧ f.toNat = 0 := by
  rw [← eq_zero_iff, ← eq_zero_iff]
  unfold assemble
  repeat' split
  all_goals cases s <;> simp_all [UnpackedFloat.compare]

/-- Zeros of both signs, and nothing else, equal zero. -/
theorem isZero_iff (x : Float) : isZero x = true ↔ exponentBits x = 0 ∧ fractionBits x = 0 := by
  obtain ⟨e, f, he, hf, hx⟩ := unpack_eq x
  change (x.toModel.unpack.compare (.zero .positive) == some .eq) = true ↔ _
  rw [hx, ← he, ← hf, compare_zero_assemble]

/-! ## Bits -/

theorem toBits_toNat (x : Float) : x.toBits.toNat =
    (if isNegative x then 2 ^ 63 else 0) + exponentBits x * 2 ^ 52 + fractionBits x := by
  have hlt : x.toBits.toNat < 2 ^ 64 := x.toBits.toNat_lt
  have hle : x.toBits.toNat / 2 ^ 63 ≤ 1 := by omega
  unfold isNegative exponentBits fractionBits
  change _ = (if (x.toBits.toNat / 2 ^ 63 == 1) = true then 2 ^ 63 else 0) +
    x.toBits.toNat / 2 ^ 52 % 2 ^ 11 * 2 ^ 52 + x.toBits.toNat % 2 ^ 52
  by_cases h : x.toBits.toNat / 2 ^ 63 = 1
  · rw [if_pos (beq_iff_eq.mpr h)]
    omega
  · rw [if_neg (mt beq_iff_eq.mp h)]
    omega

theorem toBits_neg {x : Float} (h : x.isNaN = false) : (-x).toBits.toNat =
    (if isNegative x then 0 else 2 ^ 63) + exponentBits x * 2 ^ 52 + fractionBits x := by
  obtain ⟨e, f, he, hf, hx⟩ := unpack_eq x
  have hpack : e = -1#11 → f = 0#52 := by
    intro hone
    by_contra hne
    have hnan := (isNaN_iff x).mpr ⟨by rw [← he, hone]; rfl, by rwa [← hf, ne_eq, ← eq_zero_iff]⟩
    rw [h] at hnan
    cases hnan
  have hbits : (-x).toBits.toNat = (UnpackedFloat.pack Format.binary64
      (assemble (if isNegative x then .negative else .positive) e f).neg).toNat := by
    rw [← hx]
    rfl
  rw [hbits, neg_assemble, pack_assemble _ _ _ hpack, toNat_packComponents, he, hf]
  cases isNegative x <;> rfl

theorem exponentBits_lt (x : Float) : exponentBits x < 2 ^ 11 := Nat.mod_lt _ (by decide)

theorem fractionBits_lt (x : Float) : fractionBits x < 2 ^ 52 := Nat.mod_lt _ (by decide)

variable {x : Float}

theorem isNegative_neg (h : x.isNaN = false) : isNegative (-x) = !isNegative x := by
  have he := exponentBits_lt x
  have hf := fractionBits_lt x
  change ((-x).toBits.toNat / 2 ^ 63 == 1) = _
  rw [toBits_neg h]
  cases isNegative x
  · have hone : (2 ^ 63 + exponentBits x * 2 ^ 52 + fractionBits x) / 2 ^ 63 = 1 := by omega
    rw [if_neg (by decide), hone]
    rfl
  · have hzero : (0 + exponentBits x * 2 ^ 52 + fractionBits x) / 2 ^ 63 = 0 := by omega
    rw [if_pos rfl, hzero]
    rfl

theorem exponentBits_neg (h : x.isNaN = false) : exponentBits (-x) = exponentBits x := by
  have he := exponentBits_lt x
  have hf := fractionBits_lt x
  change (-x).toBits.toNat / 2 ^ 52 % 2 ^ 11 = _
  rw [toBits_neg h]
  split <;> omega

theorem fractionBits_neg (h : x.isNaN = false) : fractionBits (-x) = fractionBits x := by
  have hf := fractionBits_lt x
  change (-x).toBits.toNat % 2 ^ 52 = _
  rw [toBits_neg h]
  split <;> omega

theorem isNaN_neg (x : Float) : (-x).isNaN = x.isNaN := by
  change (-x).toModel.unpack.isNaN = x.toModel.unpack.isNaN
  rw [unpack_neg]
  cases x.toModel.unpack <;> rfl

theorem isInf_neg (x : Float) : (-x).isInf = x.isInf := by
  change (-x).toModel.unpack.isInf = x.toModel.unpack.isInf
  rw [unpack_neg]
  cases x.toModel.unpack <;> rfl

theorem isFinite_neg (x : Float) : (-x).isFinite = x.isFinite := by
  change (-x).toModel.unpack.isFinite = x.toModel.unpack.isFinite
  rw [unpack_neg]
  cases x.toModel.unpack <;> rfl

theorem abs_neg (x : Float) : (-x).abs = x.abs := by
  change Float.ofModel (Float.Model.pack (-x).toModel.unpack.abs) =
    Float.ofModel (Float.Model.pack x.toModel.unpack.abs)
  rw [unpack_neg]
  cases x.toModel.unpack <;> rfl

theorem isZero_neg (x : Float) : isZero (-x) = isZero x := by
  change ((-x).toModel.unpack.compare (.zero .positive) == some .eq) =
    (x.toModel.unpack.compare (.zero .positive) == some .eq)
  rw [unpack_neg]
  cases x.toModel.unpack with
  | infinity s | finite s => cases s <;> rfl
  | _ => rfl

/-- The bits of the magnitude give the double back, up to its sign. -/
theorem withSign_magnitude (x : Float) (h : isNegative x = false) :
    withSign false (exponentBits x * 2 ^ 52 + fractionBits x) = x := by
  have hbits := toBits_toNat x
  rw [h, if_neg (by decide), Nat.zero_add] at hbits
  unfold withSign
  rw [if_neg (by decide), ← hbits, UInt64.ofNat_toNat, ofBits_toBits]

/-! ## Doubles of given bits -/

/-- A double keeps the bits that it is made of, unless it is not a number. -/
theorem toBits_ofBits {n : Nat} (hn : n < 2 ^ 64) (h : n / 2 ^ 52 % 2 ^ 11 = 2047 → n % 2 ^ 52 = 0) :
    (Float.ofBits (UInt64.ofNat n)).toBits.toNat = n := by
  have hword : (UInt64.ofNat n).toBitVec.toNat = n := by
    rw [UInt64.toNat_toBitVec, UInt64.toNat_ofNat']
    omega
  have hbits : UnpackedFloat.pack Format.binary64
      (UnpackedFloat.unpack Format.binary64 (UInt64.ofNat n).toBitVec) =
      (UInt64.ofNat n).toBitVec := by
    rw [unpack_eq_assemble, pack_assemble, packComponents_fields]
    intro he
    have hexponent := congrArg BitVec.toNat he
    rw [toNat_unpackExponent, hword] at hexponent
    rw [eq_zero_iff, toNat_unpackMantissa, hword]
    exact h hexponent
  change (UnpackedFloat.pack Format.binary64
      (UnpackedFloat.unpack Format.binary64 (UInt64.ofNat n).toBitVec)).toNat = n
  rw [hbits, hword]

theorem toBits_withSign {n : Nat} (h : n ≤ 0x7FF * twoTo 52) :
    (withSign false n).toBits.toNat = n := by
  have hle : n ≤ 0x7FF * 2 ^ 52 := h
  rw [withSign, if_neg (by decide)]
  apply toBits_ofBits <;> omega

theorem isNegative_withSign {n : Nat} (h : n ≤ 0x7FF * twoTo 52) :
    isNegative (withSign false n) = false := by
  have hle : n ≤ 0x7FF * 2 ^ 52 := h
  unfold isNegative
  rw [toBits_withSign h, beq_eq_false_iff_ne]
  change n / 2 ^ 63 ≠ 1
  omega

theorem isNaN_withSign {n : Nat} (h : n ≤ 0x7FF * twoTo 52) :
    (withSign false n).isNaN = false := by
  have hle : n ≤ 0x7FF * 2 ^ 52 := h
  rw [← Bool.not_eq_true, isNaN_iff]
  unfold exponentBits fractionBits
  rw [toBits_withSign h]
  change ¬ (n / 2 ^ 52 % 2 ^ 11 = 2047 ∧ n % 2 ^ 52 ≠ 0)
  omega

/-- The sign bit makes a double negative. -/
theorem withSign_true {n : Nat} (h : n ≤ 0x7FF * twoTo 52) :
    withSign true n = -withSign false n := by
  have hle : n ≤ 0x7FF * 2 ^ 52 := h
  have hword : (withSign true n).toBits.toNat = n + 2 ^ 63 := by
    have hsign : twoTo 63 = 2 ^ 63 := rfl
    rw [withSign, if_pos rfl, hsign]
    apply toBits_ofBits <;> omega
  have hopposite := toBits_neg (isNaN_withSign h)
  rw [isNegative_withSign h, exponentBits, fractionBits, toBits_withSign h] at hopposite
  have hbits : (withSign true n).toBits = (-withSign false n).toBits := by
    apply UInt64.toNat_inj.mp
    rw [hword, hopposite]
    change _ = 2 ^ 63 + n / 2 ^ 52 % 2 ^ 11 * 2 ^ 52 + n % 2 ^ 52
    omega
  rw [← ofBits_toBits (withSign true n), hbits, ofBits_toBits]

/-- The sign does not matter for a double to be finite. -/
theorem isFinite_withSign (negative : Bool) {n : Nat} (h : n ≤ 0x7FF * twoTo 52) :
    (withSign negative n).isFinite = (withSign false n).isFinite := by
  cases negative with
  | false => rfl
  | true => rw [withSign_true h, isFinite_neg]

/-! ## Special doubles -/

/-- All values that are not numbers are one. -/
theorem eq_nan (h : x.isNaN = true) : x = nan := by
  have hunpack : x.toModel.unpack = .notANumber := by
    change x.toModel.unpack.isNaN = true at h
    cases hx : x.toModel.unpack with
    | notANumber => rfl
    | _ => rw [hx] at h; cases h
  have hpack := pack_unpack x
  rw [hunpack] at hpack
  exact congrArg Float.ofModel hpack.symm

theorem eq_infinity (h : x.isInf = true) (hneg : isNegative x = false) : x = infinity := by
  obtain ⟨he, hf⟩ := (isInf_iff x).mp h
  rw [← withSign_magnitude x hneg, he, hf]
  rfl

theorem eq_zero (h : isZero x = true) (hneg : isNegative x = false) : x = 0.0 := by
  obtain ⟨he, hf⟩ := (isZero_iff x).mp h
  rw [← withSign_magnitude x hneg, he, hf]
  rfl

theorem abs_of_isZero (h : isZero x = true) : x.abs = 0.0 := by
  have habs : (0.0 : Float).abs = 0.0 := by decide
  cases hneg : isNegative x with
  | false => rw [eq_zero h hneg, habs]
  | true =>
      have hnan : x.isNaN = false := by
        rw [← Bool.not_eq_true, isNaN_iff, (isZero_iff x).mp h |>.1]
        exact fun hfields => absurd hfields.1 (by decide)
      have hpositive : isNegative (-x) = false := by rw [isNegative_neg hnan, hneg]; rfl
      rw [← abs_neg, eq_zero (x := -x) (by rwa [isZero_neg]) hpositive, habs]

theorem unpack_abs (x : Float) : x.abs.toModel.unpack = x.toModel.unpack.abs := by
  have habs : x.toModel.unpack.abs = x.toModel.unpack ∨
      x.toModel.unpack.abs = x.toModel.unpack.neg := by
    cases x.toModel.unpack with
    | notANumber => exact .inl rfl
    | infinity s | zero s | finite s =>
        cases s with
        | positive => exact .inl rfl
        | negative => exact .inr rfl
  change (Float.ofModel (Float.Model.pack x.toModel.unpack.abs)).toModel.unpack = _
  rcases habs with hsame | hneg
  · rw [hsame, pack_unpack]
  · rw [hneg]
    exact unpack_neg x

/-- Only zeros are not greater than zeros in size. -/
theorem isZero_of_abs_le {x y : Float} (h : x.abs ≤ y.abs) (hy : isZero y = true) :
    isZero x = true := by
  rw [abs_of_isZero hy] at h
  have hle : (x.abs.toModel.unpack.compare (.zero .positive)).any (·.isLE) = true :=
    of_decide_eq_true h
  rw [unpack_abs] at hle
  change (x.toModel.unpack.compare (.zero .positive) == some .eq) = true
  cases hx : x.toModel.unpack with
  | zero => rfl
  | notANumber | infinity | finite => rw [hx] at hle; cases hle

end Reckoner.Double
