import Reckoner.Proofs.Double.Product
import Reckoner.Proofs.Double.Value

/-!
# Quotients that overflow

A quotient of doubles is the exact quotient, rounded once. So it is finite exactly if the exact
quotient lies below the bound from which on rounding goes beyond the largest double.
-/

namespace Reckoner.Double

open Float.Model Float.Model.UnpackedFloat

/-! ## Mantissas with residual bits -/

/-- A value above a mantissa by less than one. The residual bits compare what it lies above with
one half. -/
structure Holds (em : ExtendedMantissa) (v : ℚ) : Prop where
  le : (em.mantissa : ℚ) ≤ v
  lt : v < em.mantissa + 1
  round : em.roundBit = true ↔ (em.mantissa : ℚ) + 1 / 2 ≤ v
  sticky : em.stickyBit = true ↔ v ≠ em.mantissa ∧ v ≠ em.mantissa + 1 / 2

theorem roundedMantissa_le (em : ExtendedMantissa) : em.roundedMantissa ≤ em.mantissa + 1 := by
  unfold ExtendedMantissa.roundedMantissa Accuracy.roundToNearestEven
  split <;> omega

/-- An odd mantissa is rounded up from the middle on. -/
theorem roundedMantissa_of_odd {em : ExtendedMantissa} (hodd : em.mantissa % 2 = 1) :
    em.roundedMantissa = em.mantissa + em.roundBit.toNat := by
  obtain ⟨m, round, sticky⟩ := em
  cases round <;> cases sticky
  · rfl
  · rfl
  · exact congrArg (m + ·) hodd
  · rfl

namespace Holds

variable {em : ExtendedMantissa} {v : ℚ}

theorem inexact_iff (h : Holds em v) : (em.roundBit || em.stickyBit) = true ↔ v ≠ em.mantissa := by
  rw [Bool.or_eq_true, h.round, h.sticky]
  constructor
  · rintro (hhalf | ⟨hne, -⟩)
    · intro heq
      linarith
    · exact hne
  · intro hne
    by_cases hhalf : v = em.mantissa + 1 / 2
    · exact .inl hhalf.ge
    · exact .inr ⟨hne, hhalf⟩

theorem shiftRightOne (h : Holds em v) : Holds em.shiftRightOne (v / 2) := by
  have hle := h.le
  have hlt := h.lt
  have hinexact := h.inexact_iff
  have hround : em.shiftRightOne.roundBit = (em.mantissa % 2 != 0) := rfl
  have hsticky : em.shiftRightOne.stickyBit = (em.roundBit || em.stickyBit) := rfl
  have hmantissa : em.shiftRightOne.mantissa = em.mantissa / 2 := rfl
  have hsplit : (em.mantissa : ℚ) = 2 * (em.mantissa / 2 : Nat) + (em.mantissa % 2 : Nat) := by
    exact_mod_cast (Nat.div_add_mod em.mantissa 2).symm
  -- the bit that is dropped becomes the round bit
  rcases Nat.mod_two_eq_zero_or_one em.mantissa with hbit | hbit <;> rw [hbit] at hsplit hround <;>
    push_cast at hsplit <;> refine ⟨?_, ?_, ?_, ?_⟩ <;> rw [hmantissa]
  · linarith
  · linarith
  · rw [hround]
    constructor
    · exact fun hfalse => by cases hfalse
    · intro hhalf
      linarith
  · rw [hsticky, hinexact]
    constructor
    · exact fun hne => ⟨fun heq => hne (by linarith), fun heq => by linarith⟩
    · exact fun hne heq => hne.1 (by linarith)
  · linarith
  · linarith
  · rw [hround]
    exact ⟨fun _ => by linarith, fun _ => rfl⟩
  · rw [hsticky, hinexact]
    constructor
    · exact fun hne => ⟨fun heq => by linarith, fun heq => hne (by linarith)⟩
    · exact fun hne heq => hne.2 (by linarith)

theorem shiftRight (h : Holds em v) (n : Nat) : Holds (em >>> n) (v / 2 ^ n) := by
  change Holds (n.repeat ExtendedMantissa.shiftRightOne em) _
  induction n with
  | zero => rwa [pow_zero, div_one]
  | succ n ih =>
      rw [pow_succ, ← div_div]
      exact ih.shiftRightOne

/-- A mantissa is rounded beyond an odd number exactly from the middle between that number and the
next one on. -/
theorem lt_roundedMantissa_iff (h : Holds em v) {k : Nat} (hodd : k % 2 = 1) :
    k < em.roundedMantissa ↔ (k : ℚ) + 1 / 2 ≤ v := by
  have hle := h.le
  have hlt := h.lt
  rcases Nat.lt_trichotomy k em.mantissa with hless | rfl | hmore
  · have hcast : (k : ℚ) + 1 ≤ em.mantissa := by exact_mod_cast hless
    exact iff_of_true (Nat.lt_of_lt_of_le hless (le_roundedMantissa em)) (by linarith)
  · rw [roundedMantissa_of_odd hodd, ← h.round]
    cases em.roundBit <;> simp
  · have hcast : (em.mantissa : ℚ) + 1 ≤ k := by exact_mod_cast hmore
    have hrounded := roundedMantissa_le em
    exact iff_of_false (by omega) (by linarith)

/-- What is left of a division is the fraction that the residual bits tell of. -/
theorem of_fraction {r d : Nat} (hrd : r < d) (hround : em.roundBit = true ↔ d ≤ 2 * r)
    (hsticky : em.stickyBit = true ↔ r ≠ 0 ∧ d ≠ 2 * r) : Holds em (em.mantissa + r / d) := by
  have hpos : (0 : ℚ) < d := by exact_mod_cast Nat.zero_lt_of_lt hrd
  have hlt : (r / d : ℚ) < 1 := by
    rw [div_lt_one hpos]
    exact_mod_cast hrd
  have hnonneg : (0 : ℚ) ≤ r / d := by positivity
  refine ⟨by linarith, by linarith, ?_, ?_⟩
  · rw [hround, add_le_add_iff_left, le_div_iff₀ hpos, ← @Nat.cast_le ℚ]
    push_cast
    constructor <;> intro h <;> linarith
  · have hhalf : (r / d : ℚ) = 1 / 2 ↔ d = 2 * r := by
      rw [div_eq_iff hpos.ne', ← @Nat.cast_inj ℚ]
      push_cast
      constructor <;> intro h <;> linarith
    rw [hsticky, ne_eq (_ + _ : ℚ), ne_eq (_ + _ : ℚ), add_eq_left, add_right_inj, hhalf,
      div_eq_zero_iff, or_iff_left hpos.ne', Nat.cast_eq_zero]

end Holds

/-- A quotient of whole numbers is held by its whole part. -/
theorem holds_ofMantissaAndAccuracy (n : Nat) {d : Nat} (hd : 0 < d) :
    Holds (.ofMantissaAndAccuracy (n / d) (accuracyOfFraction (n % d) d)) (n / d) := by
  have hpos : (0 : ℚ) < d := by exact_mod_cast hd
  have hvalue : (n / d : ℚ) = (n / d : Nat) + (n % d : Nat) / d := by
    rw [eq_comm, ← mul_div_cancel_right₀ ((n / d : Nat) : ℚ) hpos.ne', ← add_div]
    congr 1
    exact_mod_cast Nat.div_add_mod' n d
  have hrest := Nat.mod_lt n hd
  rw [hvalue, accuracyOfFraction]
  by_cases hexact : n % d = 0
  · rw [if_pos hexact]
    change Holds ⟨n / d, false, false⟩ _
    exact Holds.of_fraction hrest
      (iff_of_false Bool.false_ne_true (by omega)) (iff_of_false Bool.false_ne_true (by omega))
  · rw [if_neg hexact]
    cases hcompare : compare (2 * (n % d)) d with
    | lt =>
        have hless := Nat.compare_eq_lt.mp hcompare
        change Holds ⟨n / d, false, true⟩ _
        exact Holds.of_fraction hrest
          (iff_of_false Bool.false_ne_true (by omega)) (iff_of_true rfl (by omega))
    | eq =>
        have hhalf := Nat.compare_eq_eq.mp hcompare
        change Holds ⟨n / d, true, false⟩ _
        exact Holds.of_fraction hrest
          (iff_of_true rfl (by omega)) (iff_of_false Bool.false_ne_true (by omega))
    | gt =>
        have hmore := Nat.compare_eq_gt.mp hcompare
        change Holds ⟨n / d, true, true⟩ _
        exact Holds.of_fraction hrest
          (iff_of_true rfl (by omega)) (iff_of_true rfl (by omega))

/-! ## Rounding to infinity -/

/-- From here on values are rounded to infinity: the middle between the largest double and the next
power of two. -/
def overflow : ℚ := 2 ^ 1024 - 2 ^ 970

theorem isFinite_pack_zero (s : Sign) :
    (Float.ofModel (Float.Model.pack (.zero s))).isFinite = true := by
  cases s <;> decide

theorem isFinite_pack_infinity (s : Sign) :
    (Float.ofModel (Float.Model.pack (.infinity s))).isFinite = false := by
  cases s <;> decide

theorem isFinite_pack_notANumber :
    (Float.ofModel (Float.Model.pack .notANumber)).isFinite = false := by
  decide

/-- A finite value stays finite when it is packed, unless its exponent is too large. -/
theorem isFinite_pack_finite (s : Sign) {m : Nat} {e : Int} (h : 0 < m) :
    (Float.ofModel (Float.Model.pack (.finite s m e h))).isFinite = true ↔ e ≤ 971 := by
  let biased := (e + (1023 : Nat) + (52 : Nat)).toNat
  have hpack : UnpackedFloat.pack Format.binary64 (.finite s m e h) =
      if 2048 ≤ biased + 1 then packComponents Format.binary64 s (-1#11) 0#52
      else if m.log2 + 1 = 53 then
        packComponents Format.binary64 s (BitVec.ofNat 11 biased) (BitVec.ofNat 52 m)
      else packComponents Format.binary64 s 0#11 (BitVec.ofNat 52 m) := rfl
  change (UnpackedFloat.unpack Format.binary64
    (UnpackedFloat.pack Format.binary64 (.finite s m e h))).isFinite = true ↔ _
  rw [hpack]
  split
  case isTrue hwide =>
      rw [unpack_packComponents, isFinite_assemble]
      exact iff_of_false (fun hne => hne rfl) (by omega)
  case isFalse hnarrow =>
      split <;> rw [unpack_packComponents, isFinite_assemble, BitVec.toNat_ofNat] <;>
        exact iff_of_true (by omega) (by omega)

/-- A mantissa that is shifted to fit has at most 53 bits, and all of them unless the exponent is
the least one. -/
theorem exists_shiftToTargetExponent {m : Nat} {e : Int} (acc : Accuracy)
    (hfits : 2 ^ 52 ≤ m ∨ e ≤ -1074) :
    ∃ n : Nat, shiftToTargetExponent Format.binary64 m e acc =
        (ExtendedMantissa.ofMantissaAndAccuracy m acc >>> n, e + n) ∧
      -1074 ≤ e + n ∧ m / 2 ^ n < 2 ^ 53 ∧ (2 ^ 52 ≤ m / 2 ^ n ∨ e + n = -1074) := by
  let target : Int := max ((m.log2 : Int) + 1 + e - 53) (-1074)
  have hwide : 2 ^ 52 ≤ m → 52 ≤ m.log2 := fun h => (Nat.le_log2 (by omega)).mpr h
  have hexponent : e + ((target - e).toNat : Nat) = target := by omega
  refine ⟨(target - e).toNat, rfl, by omega, ?_, ?_⟩
  · rw [Nat.div_lt_iff_lt_mul (Nat.two_pow_pos _), ← Nat.pow_add]
    exact Nat.lt_of_lt_of_le Nat.lt_log2_self (Nat.pow_le_pow_right (by decide) (by omega))
  · rw [hexponent]
    by_cases hleast : target = -1074
    · exact .inr hleast
    · have hshift : 52 + (target - e).toNat = m.log2 := by omega
      refine .inl ?_
      rw [Nat.le_div_iff_mul_le (Nat.two_pow_pos _), ← Nat.pow_add, hshift]
      exact Nat.log2_self_le (by rintro rfl; change _ = 0 at hshift; omega)

/-- After rounding there is one carry at most. -/
theorem shiftToTargetExponent_carry {k : Nat} {t : Int} (hk : k ≤ 2 ^ 53) (ht : -1074 ≤ t)
    (hfull : 2 ^ 52 ≤ k ∨ t = -1074) {em : ExtendedMantissa} {e : Int}
    (h : shiftToTargetExponent Format.binary64 k t .exact = (em, e)) :
    (em.mantissa = 0 ↔ k = 0) ∧ e = if k < 2 ^ 53 then t else t + 1 := by
  obtain ⟨n, hshift, -, hlt, hleast⟩ :=
    exists_shiftToTargetExponent .exact (hfull.imp_right Int.le_of_eq)
  obtain ⟨rfl, rfl⟩ := Prod.mk.inj (hshift.symm.trans h)
  rw [mantissa_shiftRight]
  change (k / 2 ^ n = 0 ↔ k = 0) ∧ _
  have hhalf : ∀ j, j ≤ n → k / 2 ^ n ≤ k / 2 ^ j := fun j hj =>
    Nat.div_le_div_left (Nat.pow_le_pow_right (by decide) hj) (Nat.two_pow_pos j)
  split
  case isTrue hnarrow =>
      have hn : n = 0 := by
        by_contra hne
        have := hhalf 1 (by omega)
        omega
      subst hn
      simp
  case isFalse =>
      have hk : k = 2 ^ 53 := by omega
      subst hk
      have hn : n = 1 := by
        by_contra hne
        rcases Nat.eq_zero_or_pos n with rfl | hpos
        · omega
        · have := hhalf 2 (by omega)
          omega
      subst hn
      simp

theorem overflow_eq : overflow = (2 ^ 53 - 1 / 2) * 2 ^ (971 : Int) := by
  have hhigh : (2 : ℚ) ^ 1024 = 2 ^ 54 * 2 ^ 970 := (pow_add 2 54 970)
  have hunit : (2 : ℚ) ^ (971 : Int) = 2 * 2 ^ 970 := (zpow_natCast 2 971).trans (pow_succ' 2 970)
  rw [overflow, hhigh, hunit]
  generalize (2 : ℚ) ^ 970 = unit
  ring

/-- The bound for rounding, in units of the last of 53 bits. -/
theorem lt_overflow_iff {w : ℚ} {t : Int} (hlt : w < 2 ^ 53) (hfull : 2 ^ 52 ≤ w ∨ t = -1074) :
    w * 2 ^ t < overflow ↔ t ≤ 970 ∨ t = 971 ∧ w < 2 ^ 53 - 1 / 2 := by
  have hpos : (0 : ℚ) < 2 ^ t := by positivity
  rw [overflow_eq]
  rcases lt_trichotomy t 971 with hless | rfl | hmore
  · refine iff_of_true ?_ (.inl (by omega))
    have hpower : (2 : ℚ) * 2 ^ t ≤ 2 ^ (971 : Int) := by
      rw [← zpow_one_add₀ two_ne_zero]
      exact zpow_le_zpow_right₀ one_le_two (by omega)
    calc w * 2 ^ t < 2 ^ 53 * 2 ^ t := mul_lt_mul_of_pos_right hlt hpos
      _ ≤ (2 ^ 53 - 1 / 2) * (2 * 2 ^ t) := by linarith
      _ ≤ (2 ^ 53 - 1 / 2) * 2 ^ (971 : Int) :=
          mul_le_mul_of_nonneg_left hpower (by norm_num)
  · rw [mul_lt_mul_iff_left₀ hpos]
    simp
  · refine iff_of_false (not_lt.mpr ?_) (by omega)
    have hpower : (2 : ℚ) * 2 ^ (971 : Int) ≤ 2 ^ t := by
      rw [← zpow_one_add₀ two_ne_zero]
      exact zpow_le_zpow_right₀ one_le_two (by omega)
    have hwide : 2 ^ 52 ≤ w := hfull.resolve_right (by omega)
    have hunit : (0 : ℚ) < 2 ^ (971 : Int) := by positivity
    generalize (2 : ℚ) ^ (971 : Int) = unit at hpower hunit ⊢
    calc (2 ^ 53 - 1 / 2) * unit ≤ 2 ^ 52 * (2 * unit) := by linarith
      _ ≤ 2 ^ 52 * 2 ^ t := mul_le_mul_of_nonneg_left hpower (by norm_num)
      _ ≤ w * 2 ^ t := mul_le_mul_of_nonneg_right hwide hpos.le

/-- A mantissa is rounded to 53 bits exactly below the middle of the last one and the next power. -/
theorem Holds.roundedMantissa_lt_iff {em : ExtendedMantissa} {v : ℚ} (h : Holds em v) :
    em.roundedMantissa < 2 ^ 53 ↔ v < 2 ^ 53 - 1 / 2 := by
  have hodd := not_congr (h.lt_roundedMantissa_iff (k := 2 ^ 53 - 1) (by decide))
  have hcast : ((2 ^ 53 - 1 : Nat) : ℚ) + 1 / 2 = 2 ^ 53 - 1 / 2 := by norm_num
  rw [hcast, not_le] at hodd
  rw [← hodd]
  omega

/-- The first shift of a rounding leaves a mantissa that fits and holds the same value. -/
theorem Holds.exists_shifted {m : Nat} {e : Int} {acc : Accuracy} {v : ℚ}
    (h : Holds (.ofMantissaAndAccuracy m acc) v) (hfits : 2 ^ 52 ≤ m ∨ e ≤ -1074) :
    ∃ em t w, shiftToTargetExponent Format.binary64 m e acc = (em, t) ∧ Holds em w ∧
      v * 2 ^ e = w * 2 ^ t ∧ -1074 ≤ t ∧ em.mantissa < 2 ^ 53 ∧
      (2 ^ 52 ≤ em.mantissa ∨ t = -1074) := by
  obtain ⟨n, hfirst, hleast, hlt, hfull⟩ := exists_shiftToTargetExponent acc hfits
  have hmantissa : (ExtendedMantissa.ofMantissaAndAccuracy m acc >>> n).mantissa = m / 2 ^ n := by
    rw [mantissa_shiftRight]
    rcases acc with _ | (_ | _ | _) <;> rfl
  have hvalue : v * 2 ^ e = v / 2 ^ n * 2 ^ (e + n) := by
    rw [zpow_add₀ two_ne_zero, zpow_natCast]
    field_simp
  rw [← hmantissa] at hlt hfull
  exact ⟨_, _, _, hfirst, h.shiftRight n, hvalue, hleast, hlt, hfull⟩

/-- A rounded mantissa fits again, but for a carry. -/
theorem roundedMantissa_fits {em : ExtendedMantissa} {t : Int} (hlt : em.mantissa < 2 ^ 53)
    (hfull : 2 ^ 52 ≤ em.mantissa ∨ t = -1074) :
    em.roundedMantissa ≤ 2 ^ 53 ∧ (2 ^ 52 ≤ em.roundedMantissa ∨ t = -1074) :=
  ⟨Nat.le_trans (roundedMantissa_le em) hlt,
    hfull.imp_left fun hwide => Nat.le_trans hwide (le_roundedMantissa em)⟩

/-- What is rounded is finite exactly if its exponent is not too large behind the carry. -/
theorem isFinite_roundWithAccuracy_of_shift (s : Sign) {m : Nat} {e t : Int} {acc : Accuracy}
    {em : ExtendedMantissa} (hfirst : shiftToTargetExponent Format.binary64 m e acc = (em, t))
    (ht : -1074 ≤ t) (hlt : em.mantissa < 2 ^ 53) (hfull : 2 ^ 52 ≤ em.mantissa ∨ t = -1074) :
    (Float.ofModel (Float.Model.pack
      (roundWithAccuracy Format.binary64 s m e acc))).isFinite = true ↔
      (if em.roundedMantissa < 2 ^ 53 then t else t + 1) ≤ 971 := by
  obtain ⟨hk, hkfull⟩ := roundedMantissa_fits hlt hfull
  unfold roundWithAccuracy
  cases hsecond : shiftToTargetExponent Format.binary64 em.roundedMantissa t .exact with
  | mk final e' =>
  obtain ⟨hzero, rfl⟩ := shiftToTargetExponent_carry hk ht hkfull hsecond
  simp only [hfirst, hsecond]
  split
  case isTrue hnothing =>
      rw [hzero] at hnothing
      exact iff_of_true (isFinite_pack_zero s) (by omega)
  case isFalse => exact isFinite_pack_finite s _

/-- What is rounded is finite exactly if it lies below the bound. -/
theorem isFinite_roundWithAccuracy (s : Sign) {m : Nat} {e : Int} {acc : Accuracy} {v : ℚ}
    (h : Holds (.ofMantissaAndAccuracy m acc) v) (hfits : 2 ^ 52 ≤ m ∨ e ≤ -1074) :
    (Float.ofModel (Float.Model.pack
      (roundWithAccuracy Format.binary64 s m e acc))).isFinite = true ↔ v * 2 ^ e < overflow := by
  obtain ⟨em, t, w, hfirst, hholds, hvalue, hleast, hlt, hfull⟩ := h.exists_shifted hfits
  have hhigh : w < 2 ^ 53 := hholds.lt.trans_le (by exact_mod_cast hlt)
  have hfit : 2 ^ 52 ≤ w ∨ t = -1074 :=
    hfull.imp_left fun hwide => le_trans (by exact_mod_cast hwide) hholds.le
  rw [isFinite_roundWithAccuracy_of_shift s hfirst hleast hlt hfull, hvalue,
    lt_overflow_iff hhigh hfit, ← hholds.roundedMantissa_lt_iff]
  -- at the largest exponent it is the carry that takes a value over the bound
  split <;> omega

/-! ## Quotients -/

/-- A finite double is zero, or its magnitude is that of a mantissa and an exponent. -/
theorem unpack_of_isFinite {x : Float} (h : x.isFinite = true) :
    (∃ s, x.toModel.unpack = .zero s) ∧ (magnitude x).value = 0 ∨
      ∃ s m e hm, x.toModel.unpack = .finite s m e hm ∧ (magnitude x).value = m * 2 ^ e := by
  obtain ⟨e, f, he, hf, hx⟩ := unpack_eq x
  have hfinite := (isFinite_iff x).mp h
  rw [hx]
  unfold assemble Magnitude.value magnitude
  rw [← he] at hfinite ⊢
  rw [← hf, if_neg ((eq_neg_one_iff e).not.mpr hfinite)]
  by_cases hsmall : e.toNat = 0
  · rw [if_pos ((eq_zero_iff e).mpr hsmall), if_pos hsmall]
    split
    case isTrue hzero => exact .inl ⟨⟨_, rfl⟩, by simp [hzero]⟩
    case isFalse hne =>
        exact .inr ⟨_, _, _, Nat.pos_of_ne_zero ((eq_zero_iff f).not.mp hne), rfl, rfl⟩
  · rw [if_neg ((eq_zero_iff e).not.mpr hsmall), if_neg hsmall]
    refine .inr ⟨_, _, _, _, rfl, ?_⟩
    change ((f.toNat + 2 ^ 52 : Nat) : ℚ) * 2 ^ ((e.toNat : Int) - 1075) = _
    rw [toNat_one_append, Nat.add_comm]

/-- Only the magnitude of zeros is zero. -/
theorem unpack_of_isZero_eq_false {x : Float} (h : x.isFinite = true) (hzero : isZero x = false) :
    ∃ s m e hm, x.toModel.unpack = .finite s m e hm ∧ (magnitude x).value = m * 2 ^ e := by
  refine (unpack_of_isFinite h).resolve_left fun ⟨⟨s, hs⟩, _⟩ => ?_
  have hcompare : (x.toModel.unpack.compare (.zero .positive) == some .eq) = true := by
    rw [hs]
    rfl
  exact Bool.false_ne_true (hzero.symm.trans hcompare)

/-- The division of mantissas leaves enough bits to round the exact quotient. -/
theorem holds_divCore {m₁ m₂ : Nat} (h₁ : 0 < m₁) (h₂ : 0 < m₂) (e₁ e₂ : Int) {m : Nat} {e : Int}
    {acc : Accuracy} (h : divCore Format.binary64 m₁ e₁ m₂ e₂ = (m, e, acc)) :
    (2 ^ 52 ≤ m ∨ e ≤ -1074) ∧ ∃ v, Holds (.ofMantissaAndAccuracy m acc) v ∧
      v * 2 ^ e = m₁ * 2 ^ e₁ / (m₂ * 2 ^ e₂) := by
  let target : Int := min (e₁ - e₂)
    (max ((m₁.log2 : Int) + 1 + e₁ - ((m₂.log2 : Int) + 1 + e₂) - 53) (-1074))
  let shift := (e₁ - e₂ - target).toNat
  have hcore : divCore Format.binary64 m₁ e₁ m₂ e₂ = (m₁ <<< shift / m₂, target,
      accuracyOfFraction (m₁ <<< shift % m₂) m₂) := rfl
  obtain ⟨rfl, rfl, rfl⟩ : m₁ <<< shift / m₂ = m ∧ target = e ∧ _ = acc := by
    simpa using hcore.symm.trans h
  have hexponent : target + shift = e₁ - e₂ := by omega
  refine ⟨?_, _, holds_ofMantissaAndAccuracy _ h₂, ?_⟩
  · by_cases hleast : target ≤ -1074
    · exact .inr hleast
    · have hshift : 52 + (m₂.log2 + 1) ≤ m₁.log2 + shift := by omega
      refine .inl ((Nat.le_div_iff_mul_le h₂).mpr ?_)
      calc 2 ^ 52 * m₂ ≤ 2 ^ 52 * 2 ^ (m₂.log2 + 1) :=
            Nat.mul_le_mul_left _ (Nat.le_of_lt Nat.lt_log2_self)
        _ ≤ 2 ^ m₁.log2 * 2 ^ shift := by
            rw [← Nat.pow_add, ← Nat.pow_add]
            exact Nat.pow_le_pow_right (by decide) hshift
        _ ≤ m₁ <<< shift := by
            rw [Nat.shiftLeft_eq]
            exact Nat.mul_le_mul_right _ (Nat.log2_self_le (Nat.ne_of_gt h₁))
  · have hne : (m₂ : ℚ) ≠ 0 := by exact_mod_cast Nat.ne_of_gt h₂
    have hpower : (2 : ℚ) ^ shift * 2 ^ target = 2 ^ e₁ / 2 ^ e₂ := by
      rw [← zpow_natCast, ← zpow_add₀ two_ne_zero, ← zpow_sub₀ two_ne_zero, ← hexponent,
        add_comm]
    rw [Nat.shiftLeft_eq, Nat.cast_mul, Nat.cast_pow, Nat.cast_ofNat, div_mul_eq_mul_div, mul_assoc,
      hpower, mul_div_assoc', div_div, Rat.mul_comm (2 ^ e₂)]

/-- A quotient of finite doubles is finite exactly if the quotient of their magnitudes lies below
the bound. -/
theorem isFinite_div_of_isFinite {x y : Float} (hx : x.isFinite = true) (hy : y.isFinite = true)
    (hzero : isZero y = false) :
    (x / y).isFinite = true ↔ (magnitude x).value < overflow * (magnitude y).value := by
  change (Float.ofModel (Float.Model.pack (UnpackedFloat.div Format.binary64 x.toModel.unpack
    y.toModel.unpack))).isFinite = true ↔ _
  obtain ⟨s₂, m₂, e₂, h₂, hy, hvalue₂⟩ := unpack_of_isZero_eq_false hy hzero
  have hpos : (0 : ℚ) < m₂ * 2 ^ e₂ := by
    have : (0 : ℚ) < m₂ := by exact_mod_cast h₂
    positivity
  rw [hy, hvalue₂]
  rcases unpack_of_isFinite hx with ⟨⟨s₁, hx⟩, hvalue₁⟩ | ⟨s₁, m₁, e₁, h₁, hx, hvalue₁⟩
  · rw [hx, hvalue₁]
    refine iff_of_true (isFinite_pack_zero _) (mul_pos ?_ hpos)
    rw [overflow_eq]
    exact mul_pos (by norm_num) (by positivity)
  · rw [hx, hvalue₁, ← div_lt_iff₀ hpos]
    cases hcore : divCore Format.binary64 m₁ e₁ m₂ e₂ with
    | mk m rest =>
    obtain ⟨hfits, v, hv, hquotient⟩ := holds_divCore h₁ h₂ e₁ e₂ hcore
    rw [← hquotient, ← isFinite_roundWithAccuracy (s₁ / s₂) hv hfits, UnpackedFloat.div, hcore]

/-- A quotient by what is no zero is finite if the numerator is and the divisor is infinite, and for
a finite divisor exactly below the bound. -/
theorem isFinite_div {x y : Float} (hzero : isZero y = false) : (x / y).isFinite = true ↔
    x.isFinite = true ∧ (y.isInf = true ∨
      y.isFinite = true ∧ (magnitude x).value < overflow * (magnitude y).value) := by
  by_cases hfinite : x.isFinite = true ∧ y.isFinite = true
  · obtain ⟨hx, hy⟩ := hfinite
    rw [isFinite_div_of_isFinite hx hy hzero]
    simp [hx, hy, isInf_eq_false hy]
  · -- infinities and what is no number need no rounding
    change (Float.ofModel (Float.Model.pack (UnpackedFloat.div Format.binary64 x.toModel.unpack
      y.toModel.unpack))).isFinite = true ↔ x.toModel.unpack.isFinite = true ∧
        (y.toModel.unpack.isInf = true ∨ y.toModel.unpack.isFinite = true ∧ _)
    change ¬(x.toModel.unpack.isFinite = true ∧ y.toModel.unpack.isFinite = true) at hfinite
    generalize x.toModel.unpack = u at hfinite ⊢
    generalize y.toModel.unpack = w at hfinite ⊢
    cases u <;> cases w <;>
      simp [UnpackedFloat.div, UnpackedFloat.isFinite, UnpackedFloat.isInf, isFinite_pack_zero,
        isFinite_pack_infinity, isFinite_pack_notANumber] at hfinite ⊢

end Reckoner.Double
