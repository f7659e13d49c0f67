import Reckoner.Proofs.Double.Bits

/-!
# Products that are not zero

A product of doubles underflows to zero only where both factors are small: a factor that is greater
than one leaves no other factor but zero a product of zero.
-/

namespace Reckoner.Double

open Float.Model Float.Model.UnpackedFloat

/-! ## Shifting mantissas -/

theorem mantissa_shiftRight (em : ExtendedMantissa) (n : Nat) :
    (em >>> n).mantissa = em.mantissa / 2 ^ n := by
  change (n.repeat ExtendedMantissa.shiftRightOne em).mantissa = _
  induction n with
  | zero => rw [Nat.pow_zero, Nat.div_one]; rfl
  | succ n ih =>
      change (n.repeat ExtendedMantissa.shiftRightOne em).mantissa / 2 = _
      rw [ih, Nat.div_div_eq_div_mul, Nat.pow_succ]

theorem le_roundedMantissa (em : ExtendedMantissa) : em.mantissa ≤ em.roundedMantissa := by
  unfold ExtendedMantissa.roundedMantissa Accuracy.roundToNearestEven
  split
  case h_1 | h_2 => exact Nat.le_refl _
  case h_3 => exact Nat.le_add_right _ _
  case h_4 => exact Nat.le_succ _

theorem log2_div_two_pow {m n : Nat} (h : n ≤ m.log2) (hm : 0 < m) :
    0 < m / 2 ^ n ∧ (m / 2 ^ n).log2 = m.log2 - n := by
  obtain ⟨hlow, hhigh⟩ := (Nat.log2_eq_iff (Nat.ne_of_gt hm)).mp rfl
  have hsplit : 2 ^ m.log2 = 2 ^ (m.log2 - n) * 2 ^ n := by
    rw [← Nat.pow_add, Nat.sub_add_cancel h]
  have hquotient : 2 ^ (m.log2 - n) ≤ m / 2 ^ n := by
    rw [Nat.le_div_iff_mul_le (Nat.two_pow_pos n), ← hsplit]
    exact hlow
  have hpos : 0 < m / 2 ^ n := Nat.lt_of_lt_of_le (Nat.two_pow_pos _) hquotient
  refine ⟨hpos, (Nat.log2_eq_iff (Nat.ne_of_gt hpos)).mpr ⟨hquotient, ?_⟩⟩
  rw [Nat.div_lt_iff_lt_mul (Nat.two_pow_pos n), Nat.pow_succ, Nat.mul_right_comm, ← hsplit,
    ← Nat.pow_succ]
  exact hhigh

/-- A mantissa and an exponent whose value is not below the least double. -/
structure IsVisible (m : Nat) (e : Int) : Prop where
  pos : 0 < m
  large : -1074 ≤ e + m.log2

theorem IsVisible.mono {m n : Nat} {e : Int} (h : IsVisible m e) (hmn : m ≤ n) : IsVisible n e where
  pos := Nat.lt_of_lt_of_le h.pos hmn
  large := by
    have hlog : m.log2 ≤ n.log2 :=
      (Nat.le_log2 (Nat.ne_of_gt (Nat.lt_of_lt_of_le h.pos hmn))).mpr
        (Nat.le_trans (Nat.log2_self_le (Nat.ne_of_gt h.pos)) hmn)
    have := h.large
    omega

/-- A value that is visible stays so when its mantissa is shifted to fit, and fits then. -/
theorem IsVisible.shifted {m : Nat} {e : Int} (h : IsVisible m e) {em : ExtendedMantissa} {e' : Int}
    (hshift : shiftToTargetExponent Format.binary64 m e .exact = (em, e')) :
    IsVisible em.mantissa e' ∧ em.mantissa.log2 ≤ 52 ∧ -1074 ≤ e' := by
  have hlarge := h.large
  -- the target keeps 53 bits, unless that takes an exponent below the least one
  let target : Int := max ((m.log2 : Int) + 1 + e - 53) (-1074)
  have hparts : em.mantissa = m / 2 ^ (target - e).toNat ∧ e' = e + ((target - e).toNat : Nat) := by
    change (_, _) = (em, e') at hshift
    injection hshift with hem he
    rw [← hem, mantissa_shiftRight]
    exact ⟨rfl, he.symm⟩
  obtain ⟨hmantissa, rfl⟩ := hparts
  have hshort : (target - e).toNat ≤ m.log2 := by omega
  obtain ⟨hpos, hlog⟩ := log2_div_two_pow hshort h.pos
  rw [hmantissa]
  refine ⟨⟨hpos, ?_⟩, ?_, ?_⟩
  · rw [hlog]
    omega
  · rw [hlog]
    omega
  · omega

/-- What is visible is rounded to a double that is not zero. -/
theorem exists_roundWithAccuracy (s : Sign) {m : Nat} {e : Int} (h : IsVisible m e) :
    ∃ m' e' h', roundWithAccuracy Format.binary64 s m e .exact = .finite s m' e' h' ∧
      m'.log2 ≤ 52 ∧ -1074 ≤ e' := by
  unfold roundWithAccuracy
  cases hfirst : shiftToTargetExponent Format.binary64 m e .exact with
  | mk em e₁ =>
  have hrounded := (h.shifted hfirst).1.mono (le_roundedMantissa em)
  dsimp only
  cases hsecond : shiftToTargetExponent Format.binary64 em.roundedMantissa e₁ .exact with
  | mk final e₂ =>
  obtain ⟨hvisible, hlog, he⟩ := hrounded.shifted hsecond
  dsimp only
  rw [dif_neg (Nat.ne_of_gt hvisible.pos)]
  exact ⟨final.mantissa, e₂, hvisible.pos, rfl, hlog, he⟩

/-! ## Products -/

theorem isZero_ofModel_pack (u : UnpackedFloat) (s : Sign) (e : BitVec 11) (f : BitVec 52)
    (hpack : UnpackedFloat.pack Format.binary64 u = packComponents Format.binary64 s e f)
    (h : ¬(e.toNat = 0 ∧ f.toNat = 0)) : isZero (.ofModel (Float.Model.pack u)) = false := by
  rw [← Bool.not_eq_true]
  change ¬((UnpackedFloat.unpack Format.binary64 (UnpackedFloat.pack Format.binary64 u)).compare
    (.zero .positive) == some .eq) = true
  rw [hpack, unpack_packComponents, compare_zero_assemble]
  exact h

/-- A finite value that fits is packed as a double that is not zero. -/
theorem isZero_pack_finite (s : Sign) {m : Nat} {e : Int} (h : 0 < m) (hlog : m.log2 ≤ 52)
    (he : -1074 ≤ e) : isZero (.ofModel (Float.Model.pack (.finite s m e h))) = false := by
  by_cases hwide : 2047 ≤ (e + 1075).toNat
  · refine isZero_ofModel_pack _ s (-1#11) 0#52 ?_ (by decide)
    refine Eq.trans (if_pos ?_) rfl
    change 2048 ≤ (e + (1023 : Nat) + (52 : Nat)).toNat + 1
    omega
  · have hnarrow : ¬2 ^ Format.binary64.exponentBits ≤
        (e + Format.binary64.exponentBias +
          Format.binary64.mantissaBitsWithoutImplicit).toNat + 1 := by
      change ¬2048 ≤ (e + (1023 : Nat) + (52 : Nat)).toNat + 1
      omega
    by_cases hnormal : m.log2 = 52
    · obtain ⟨n, hn⟩ : ∃ n : Nat, e = (n : Int) - 1075 := ⟨(e + 1075).toNat, by omega⟩
      subst hn
      refine isZero_ofModel_pack _ s _ _ (pack_normal s h hnormal (by omega)) ?_
      rintro ⟨hexponent, -⟩
      rw [BitVec.toNat_ofNat] at hexponent
      omega
    · have hbits : ¬m.log2 + 1 = Format.binary64.mantissaBits := by
        change ¬m.log2 + 1 = 53
        omega
      refine isZero_ofModel_pack _ s 0#11 (BitVec.ofNat 52 m) ?_ ?_
      · exact (if_neg hnarrow).trans (if_neg hbits)
      · have hlt : m < 2 ^ 52 := (Nat.log2_lt (Nat.ne_of_gt h)).mp (by omega)
        rintro ⟨-, hfraction⟩
        rw [BitVec.toNat_ofNat] at hfraction
        omega

theorem isZero_pack_infinity (s : Sign) :
    isZero (.ofModel (Float.Model.pack (.infinity s))) = false :=
  isZero_ofModel_pack _ s (-1#11) 0#52 rfl (by decide)

theorem isZero_pack_notANumber : isZero (.ofModel (Float.Model.pack .notANumber)) = false := by
  decide

theorem log2_mul_le {m n : Nat} (hm : 0 < m) (hn : 0 < n) : m.log2 + n.log2 ≤ (m * n).log2 := by
  rw [Nat.le_log2 (Nat.ne_of_gt (Nat.mul_pos hm hn)), Nat.pow_add]
  exact Nat.mul_le_mul (Nat.log2_self_le (Nat.ne_of_gt hm)) (Nat.log2_self_le (Nat.ne_of_gt hn))

/-- What a double is put together to: not a number, infinite, zero, or finite with a mantissa and
an exponent of which only one can be small. -/
theorem assemble_cases (s : Sign) (e : BitVec 11) (f : BitVec 52) :
    assemble s e f = .notANumber ∨ assemble s e f = .infinity s ∨ assemble s e f = .zero s ∨
      ∃ m d hm, assemble s e f = .finite s m d hm ∧ -1074 ≤ d ∧ (d = -1074 ∨ m.log2 = 52) := by
  have hf := f.isLt
  unfold assemble
  split
  case isTrue =>
      split
      case isTrue => exact .inr (.inl rfl)
      case isFalse => exact .inl rfl
  case isFalse =>
      split
      case isTrue =>
          split
          case isTrue => exact .inr (.inr (.inl rfl))
          case isFalse hne =>
              have hpos : 0 < f.toNat := Nat.pos_of_ne_zero fun h => hne ((eq_zero_iff f).mpr h)
              exact .inr (.inr (.inr ⟨_, _, hpos, rfl, Int.le_refl _, .inl rfl⟩))
      case isFalse hzero =>
          have hpos : e.toNat ≠ 0 := fun h => hzero ((eq_zero_iff e).mpr h)
          have hmantissa : 0 < (1#1 ++ f).toNat := by rw [toNat_one_append]; omega
          refine .inr (.inr (.inr ⟨_, _, hmantissa, rfl, by omega, .inr ?_⟩))
          rw [toNat_one_append, Nat.log2_eq_iff (by omega)]
          omega

/-- A double beyond one is infinite, or its mantissa and exponent show that it is. -/
theorem unpack_of_one_lt {y : Float} (h : 1.0 < y) : y.toModel.unpack = .infinity .positive ∨
    ∃ m d hm, y.toModel.unpack = .finite .positive m d hm ∧ 0 ≤ d + m.log2 := by
  have hone : (1.0 : Float).toModel.unpack = .finite .positive (2 ^ 52) (-52) (by decide) := rfl
  have hlt : ((1.0 : Float).toModel.unpack.compare y.toModel.unpack == some .lt) = true :=
    of_decide_eq_true h
  obtain ⟨e, f, -, -, hy⟩ := unpack_eq y
  rw [hone, hy] at hlt
  rw [hy]
  rcases assemble_cases (if isNegative y then .negative else .positive) e f with
    hnan | hinfinity | hzero | ⟨m, d, hm, hfinite, hleast, hsmall⟩
  · rw [hnan] at hlt
    cases hlt
  · rw [hinfinity] at hlt ⊢
    split at hlt
    case isTrue => cases hlt
    case isFalse hpositive =>
        rw [if_neg hpositive]
        exact .inl rfl
  · rw [hzero] at hlt
    cases hlt
  · rw [hfinite] at hlt ⊢
    split at hlt
    case isTrue => cases hlt
    case isFalse hpositive =>
        have hexponent : (-52 : Int) ≤ d := by
          by_contra hsmaller
          have hgt : compare (-52 : Int) d = .gt := Int.compare_eq_gt.mpr (by omega)
          simp [UnpackedFloat.compare, hgt] at hlt
        rw [if_neg hpositive]
        exact .inr ⟨m, d, hm, rfl, by omega⟩

/-- A double that is no zero is no number, infinite, or finite. -/
theorem unpack_of_isZero {x : Float} (h : isZero x = false) : x.toModel.unpack = .notANumber ∨
    (∃ s, x.toModel.unpack = .infinity s) ∨
    ∃ s m d hm, x.toModel.unpack = .finite s m d hm ∧ -1074 ≤ d := by
  obtain ⟨e, f, -, -, hx⟩ := unpack_eq x
  rw [← Bool.not_eq_true] at h
  rw [hx]
  rcases assemble_cases (if isNegative x then .negative else .positive) e f with
    hnan | hinfinity | hzero | ⟨m, d, hm, hfinite, hleast, -⟩
  · exact .inl hnan
  · exact .inr (.inl ⟨_, hinfinity⟩)
  · refine absurd ?_ h
    change (x.toModel.unpack.compare (.zero .positive) == some .eq) = true
    rw [hx, hzero]
    rfl
  · exact .inr (.inr ⟨_, m, d, hm, hfinite, hleast⟩)

/-- A factor that is greater than one leaves no other factor but zero a product of zero. -/
theorem isZero_mul {x y : Float} (hx : isZero x = false) (hy : 1.0 < y) :
    isZero (x * y) = false := by
  change isZero (.ofModel (Float.Model.pack
    (UnpackedFloat.mul Format.binary64 x.toModel.unpack y.toModel.unpack))) = false
  rcases unpack_of_isZero hx with hx | ⟨s, hx⟩ | ⟨s, m, e, hm, hx, he⟩
  · rw [hx]
    exact isZero_pack_notANumber
  · rcases unpack_of_one_lt hy with hy | ⟨n, d, hn, hy, hd⟩
    · rw [hx, hy]
      exact isZero_pack_infinity _
    · rw [hx, hy]
      exact isZero_pack_infinity _
  · rcases unpack_of_one_lt hy with hy | ⟨n, d, hn, hy, hd⟩
    · rw [hx, hy]
      exact isZero_pack_infinity _
    · have hlog := log2_mul_le hm hn
      have hvisible : IsVisible (m * n) (e + d) := ⟨Nat.mul_pos hm hn, by omega⟩
      obtain ⟨_, _, hpos, hround, hfits, hleast⟩ :=
        exists_roundWithAccuracy (s * .positive) hvisible
      rw [hx, hy, UnpackedFloat.mul, hround]
      exact isZero_pack_finite _ hpos hfits hleast

theorem mul_comm (x y : Float) : x * y = y * x := by
  have hcomm (u v : UnpackedFloat) :
      UnpackedFloat.mul Format.binary64 u v = UnpackedFloat.mul Format.binary64 v u := by
    have hsign (s t : Sign) : s * t = t * s := by cases s <;> cases t <;> rfl
    cases u <;> cases v <;>
      simp only [UnpackedFloat.mul, hsign, Nat.mul_comm, Int.add_comm]
  change Float.ofModel (Float.Model.pack
    (UnpackedFloat.mul Format.binary64 x.toModel.unpack y.toModel.unpack)) = _
  rw [hcomm]
  rfl

end Reckoner.Double
