import Reckoner.Proofs.Failure
import Reckoner.Proofs.Scalar.Settled

/-!
# Faults of operators and functions

The values of expressions are doubles or pairs of doubles, never whole numbers. On such numbers
the operators have no faults at all, and of the functions only some: `Function.faults` lists them.
Nothing is known of the values of elementary functions, so the lists go by how results are passed
on, not by what they are.
-/

namespace Reckoner

namespace Scalar

variable {a b : Scalar} {p : Fault → Prop}

theorem exists_toComplex (h : a.IsFloating) : a.IsConvertible := by
  cases a with
  | whole => exact h.elim
  | real x => exact ⟨_, rfl⟩
  | complex z => exact ⟨z, rfl⟩

theorem IsFloating.neg (h : a.IsFloating) : a.neg.IsFloating := by
  cases a with
  | whole => exact h
  | real | complex => trivial

/-- Numbers made of doubles are lifted without faults. -/
theorem meets_lift {whole : Int → Int → Except Fault Scalar}
    {real : Float → Float → Except Fault Scalar}
    {complex : Complex → Complex → Except Fault Scalar}
    (hreal : ∀ x y, Meets IsFloating p (real x y))
    (hcomplex : ∀ z w, Meets IsFloating p (complex z w)) (ha : a.IsFloating) (hb : b.IsFloating) :
    Meets IsFloating p (lift whole real complex a b) := by
  cases a with
  | whole => exact ha.elim
  | real x =>
      cases b with
      | whole => exact hb.elim
      | real y => exact hreal x y
      | complex w => exact hcomplex _ w
  | complex z =>
      obtain ⟨w, hw⟩ := exists_toComplex hb
      rw [lift, hw]
      exact hcomplex z w

theorem meets_add (ha : a.IsFloating) (hb : b.IsFloating) : Meets IsFloating p (a.add b) :=
  meets_lift (fun _ _ => trivial) (fun _ _ => trivial) ha hb

theorem meets_sub (ha : a.IsFloating) (hb : b.IsFloating) : Meets IsFloating p (a.sub b) :=
  meets_lift (fun _ _ => trivial) (fun _ _ => trivial) ha hb

theorem meets_mul (ha : a.IsFloating) (hb : b.IsFloating) : Meets IsFloating p (a.mul b) :=
  meets_lift (fun _ _ => trivial) (fun _ _ => trivial) ha hb

theorem meets_settle (ha : a.IsFloating) : Meets IsSettled p a.settle := by
  cases a with
  | whole => exact ha.elim
  | real x => trivial
  | complex z =>
      rw [settle]
      split
      case isTrue => trivial
      case isFalse hz => exact hz

/-! ## Quotients -/

theorem meets_divide_complex (z w : Complex) :
    Meets (fun _ => True) (· = .divisionByZero) (z.divide w) := by
  unfold Complex.divide
  split
  case isTrue =>
      split
      case isTrue => rfl
      case isFalse => trivial
  case isFalse => split <;> trivial

theorem meets_div (ha : a.IsFloating) (hb : b.IsFloating) :
    Meets IsFloating (· = .divisionByZero) (a.div b) := by
  refine meets_lift (fun x y => ?_) (fun z w => ?_) ha hb
  · split
    case isTrue => rfl
    case isFalse => trivial
  · exact (meets_divide_complex z w).map fun _ _ => trivial

/-- A divisor that is not zero has no fault. -/
theorem meets_div_of_ne (ha : a.IsFloating) (hb : b.IsFloating) (hzero : b.isZero = false) :
    Meets IsFloating p (a.div b) := by
  have hcomplex (z w : Complex) (hw : w.isZero = false) :
      Meets IsFloating p (.complex <$> z.divide w) := by
    refine Meets.map (Q := fun _ => True) ?_ fun _ _ => trivial
    unfold Complex.divide
    split
    case isFalse => split <;> trivial
    case isTrue hle =>
        split
        case isFalse => trivial
        case isTrue hre =>
            have him : (w.im == 0.0) = true := Double.isZero_of_abs_le hle hre
            rw [Complex.isZero, hre, him] at hw
            cases hw
  have hreal (x : Float) (h : (Scalar.real x).isZero = false) :
      (Complex.ofFloat x).isZero = false := by
    rw [Complex.isZero, Bool.and_eq_false_iff]
    exact .inl h
  cases a with
  | whole => exact ha.elim
  | real x =>
      cases b with
      | whole => exact hb.elim
      | real y =>
          change Meets IsFloating p (if y == 0.0 then _ else _)
          rw [if_neg (Bool.not_eq_true _ ▸ hzero)]
          trivial
      | complex w => exact hcomplex _ w hzero
  | complex z =>
      cases b with
      | whole => exact hb.elim
      | real y => exact hcomplex z _ (hreal y hzero)
      | complex w => exact hcomplex z w hzero

/-- Division by zero has a value. -/
theorem meets_divide (ha : a.IsFloating) (hb : b.IsFloating) : Meets IsFloating p (a.divide b) := by
  have hdiv := meets_div ha hb
  unfold divide
  cases hfound : a.div b with
  | ok c =>
      rw [hfound] at hdiv
      exact hdiv
  | error fault =>
      rw [hfound] at hdiv
      obtain rfl : fault = .divisionByZero := hdiv
      obtain ⟨z, hz⟩ := exists_toComplex ha
      obtain ⟨w, hw⟩ := exists_toComplex hb
      simp only [hz, hw, bind_ok]
      split <;> trivial

/-! ## Operators -/

/-- A power out of range is infinite. -/
theorem failsOnly_power (hb : b.IsFloating) : FailsOnly p (power a b) := by
  unfold power
  split
  case h_1 => exact failsOnly_ok _
  case h_2 => exact failsOnly_ok _
  case h_3 =>
      cases b with
      | whole => exact hb.elim
      | real | complex => exact failsOnly_ok _

/-- Operators have no faults. -/
theorem meets_onScalars (op : Operator) (ha : a.IsFloating) (hb : b.IsFloating) :
    Meets IsSettled p (op.onScalars a b) := by
  cases op with
  | add => exact (meets_add ha hb).bind fun _ => meets_settle
  | subtract => exact (meets_sub ha hb).bind fun _ => meets_settle
  | multiply => exact (meets_mul ha hb).bind fun _ => meets_settle
  | divide => exact (meets_divide ha hb).bind fun _ => meets_settle
  | power => exact (failsOnly_power hb).meets fun _ => isSettled_power

end Scalar

/-! ## Complex functions -/

namespace Complex

/-- The faults of functions that have a pole or no limit somewhere. -/
def domainFaults : List Fault := [.outsideDomain]

/-- The faults of functions that besides grow without bound. -/
def growthFaults : List Fault := .outOfRange :: domainFaults

theorem failsOnly_grown {z w : Complex} {pole : Bool} : FailsOnly (· ∈ growthFaults)
    (if z.isFinite then if w.hasInfinity then .error .outOfRange else .ok w
      else if pole then .error .outsideDomain else .ok w : Except Fault Complex) := by
  split
  case isTrue => exact failsOnly_unless (by decide)
  case isFalse => exact failsOnly_unless (by decide)

theorem failsOnly_exp (z : Complex) : FailsOnly (· ∈ growthFaults) z.exp := failsOnly_grown

theorem failsOnly_cosh (z : Complex) : FailsOnly (· ∈ growthFaults) z.cosh := failsOnly_grown

theorem failsOnly_sinh (z : Complex) : FailsOnly (· ∈ growthFaults) z.sinh := failsOnly_grown

theorem failsOnly_cos (z : Complex) : FailsOnly (· ∈ growthFaults) z.cos := failsOnly_grown

theorem failsOnly_sin (z : Complex) : FailsOnly (· ∈ growthFaults) z.sin :=
  (failsOnly_sinh _).bind fun _ _ => failsOnly_pure _

theorem failsOnly_tanh (z : Complex) : FailsOnly (· ∈ domainFaults) z.tanh := by
  unfold tanh
  split
  case isTrue => exact failsOnly_error (by decide)
  case isFalse =>
      repeat' split
      all_goals exact failsOnly_ok _

theorem failsOnly_tan (z : Complex) : FailsOnly (· ∈ domainFaults) z.tan :=
  (failsOnly_tanh _).bind fun _ _ => failsOnly_pure _

/-- A pole inside of two other cases. -/
theorem failsOnly_pole {wide near pole : Prop} [Decidable wide] [Decidable near] [Decidable pole]
    {u v w : Complex} : FailsOnly (· ∈ domainFaults)
      (if wide then .ok u else if near then if pole then .error .outsideDomain else .ok v
        else .ok w : Except Fault Complex) := by
  split
  case isTrue => exact failsOnly_ok _
  case isFalse =>
      split
      case isFalse => exact failsOnly_ok _
      case isTrue => exact failsOnly_unless (by decide)

set_option maxRecDepth 4000 in
theorem failsOnly_atanh (z : Complex) : FailsOnly (· ∈ domainFaults) z.atanh := by
  unfold atanh
  split
  case isTrue => exact failsOnly_ok _
  case isFalse =>
      split
      case isTrue => exact FailsOnly.bind failsOnly_pole fun _ _ => failsOnly_pure _
      case isFalse => exact failsOnly_pole

theorem failsOnly_atan (z : Complex) : FailsOnly (· ∈ domainFaults) z.atan :=
  (failsOnly_atanh _).bind fun _ _ => failsOnly_pure _

theorem failsOnly_log (z : Complex) : FailsOnly (· ∈ domainFaults) z.log := by
  unfold log
  exact failsOnly_unless (by decide)

theorem failsOnly_log10 (z : Complex) : FailsOnly (· ∈ domainFaults) z.log10 :=
  (failsOnly_log z).bind fun _ _ => failsOnly_pure _

theorem failsOnly_log2 (z : Complex) :
    FailsOnly (fun fault => fault = .outsideDomain ∨ fault = .divisionByZero) z.log2 := by
  have hlog := (failsOnly_log z).mono fun fault (h : fault ∈ domainFaults) =>
    Or.inl (b := fault = .divisionByZero) (List.mem_singleton.mp h)
  exact hlog.bind fun w _ => (Scalar.meets_divide_complex w _).failsOnly.mono fun _ => .inr

/-- Dividing by three has no fault. -/
theorem exists_third (z : Complex) : ∃ w, z.divide (ofFloat 3.0) = .ok w := by
  have hleft : (ofFloat 3.0).im.abs ≤ (ofFloat 3.0).re.abs := by decide
  have hzero : ¬(ofFloat 3.0).re == 0.0 := by decide
  rw [divide, if_pos hleft, if_neg hzero]
  exact ⟨_, rfl⟩

theorem failsOnly_cbrt (z : Complex) : FailsOnly (· ∈ growthFaults) z.cbrt := by
  have hlog : FailsOnly (· ∈ growthFaults) z.log :=
    (failsOnly_log z).mono fun _ => List.mem_cons_of_mem _
  refine hlog.bind fun w _ => ?_
  obtain ⟨third, hthird⟩ := exists_third w
  rw [hthird]
  exact failsOnly_exp third

end Complex

/-! ## Functions that continue into the plane -/

namespace Analytic

open Scalar

variable {f : Analytic} {p : Fault → Prop}

/-- In the plane a function passes on where it is outside of its domain; on the line it passes on
every other fault of the plane. -/
theorem meets_apply {a : Scalar} (ha : a.IsFloating)
    (hplane : ∀ z, a = .complex z → FailsOnly (fun fault => fault = .outsideDomain → p fault)
      (f.inPlane z))
    (hline : ∀ z, FailsOnly (fun fault => fault = .outsideDomain ∨ p fault) (f.inPlane z)) :
    Meets IsFloating p (f.apply a) := by
  cases a with
  | whole => exact ha.elim
  | complex z =>
      rw [apply]
      split
      case h_1 => trivial
      case h_2 h => exact hplane z rfl _ h rfl
      case h_3 => trivial
  | real x =>
      rw [apply]
      · split
        case h_1 => trivial
        case h_2 =>
            have hz : (real x).toComplex = pure (.ofFloat x) := rfl
            rw [hz, pure_bind]
            split
            case h_1 => trivial
            case h_2 result hnot =>
                cases hresult : f.inPlane (.ofFloat x) with
                | ok w => trivial
                | error fault =>
                    refine (hline _ fault hresult).resolve_left ?_
                    rintro rfl
                    exact hnot hresult
        case h_3 => split <;> trivial
      · intro z h
        cases h

/-- In the plane a number in normal form is not zero. -/
theorem log_of_isSettled {z : Complex} (h : IsSettled (.complex z)) : ∃ w, z.log = .ok w := by
  unfold Complex.log
  split
  case isFalse => exact ⟨_, rfl⟩
  case isTrue hzero =>
      obtain ⟨-, him⟩ := Bool.and_eq_true_iff.mp hzero
      have hsmall : z.im.abs < negligible := by
        rw [Double.abs_of_isZero him]
        decide
      exact absurd hsmall h

theorem meets_apply_of_plane {a : Scalar} (ha : a.IsFloating)
    (h : ∀ z, FailsOnly p (f.inPlane z)) : Meets IsFloating p (f.apply a) :=
  meets_apply ha (fun z _ => (h z).mono fun _ hp _ => hp) fun z => (h z).mono fun _ => .inr

/-- A function that goes through the logarithm, which has no faults for numbers in normal form. -/
theorem meets_apply_of_log {a : Scalar} (ha : a.IsSettled)
    (hplane : ∀ z w, z.log = .ok w → FailsOnly p (f.inPlane z))
    (hline : ∀ z, FailsOnly (fun fault => fault = .outsideDomain ∨ p fault) (f.inPlane z)) :
    Meets IsFloating p (f.apply a) := by
  refine meets_apply ha.isFloating ?_ hline
  rintro z rfl
  obtain ⟨w, hw⟩ := log_of_isSettled ha
  exact (hplane z w hw).mono fun _ h _ => h

theorem meets_naturalLog {a : Scalar} (ha : a.IsSettled) :
    Meets IsFloating p (naturalLog.apply a) := by
  refine meets_apply_of_log ha (fun z w hw => ?_) fun z => ?_
  · change FailsOnly p z.log
    rw [hw]
    exact failsOnly_ok w
  · exact (Complex.failsOnly_log z).mono fun _ h => .inl (List.mem_singleton.mp h)

end Analytic

/-! ## Functions -/

namespace Scalar

variable {a : Scalar} {rest : List Scalar} {p : Fault → Prop}

theorem isFloating_foldl {choose : Scalar → Scalar → Scalar}
    (hchoose : ∀ x y, choose x y = x ∨ choose x y = y) (ha : a.IsFloating)
    (hrest : ∀ b ∈ rest, b.IsFloating) : (rest.foldl choose a).IsFloating := by
  induction rest generalizing a with
  | nil => exact ha
  | cons b rest ih =>
      obtain ⟨hb, hrest⟩ := List.forall_mem_cons.mp hrest
      refine ih ?_ hrest
      rcases hchoose a b with h | h
      · rwa [h]
      · rwa [h]

theorem isFloating_minimum (ha : a.IsFloating) (hrest : ∀ b ∈ rest, b.IsFloating) :
    (minimum a rest).IsFloating := by
  refine isFloating_foldl (fun x y => ?_) ha hrest
  split
  case isTrue => exact .inr rfl
  case isFalse => exact .inl rfl

theorem isFloating_maximum (ha : a.IsFloating) (hrest : ∀ b ∈ rest, b.IsFloating) :
    (maximum a rest).IsFloating := by
  refine isFloating_foldl (fun x y => ?_) ha hrest
  split
  case isTrue => exact .inr rfl
  case isFalse => exact .inl rfl

theorem isFloating_sign (ha : a.IsFloating) : a.sign.IsFloating := by
  unfold sign
  repeat' split
  all_goals first | exact ha | trivial

theorem meets_toIntegral (round : Float → Int) (ha : a.IsFloating) :
    Meets IsFloating p (toIntegral round a) := by
  cases a with
  | whole => exact ha.elim
  | real x => trivial
  | complex z => trivial

theorem meets_logarithm {base : Option Scalar} (ha : a.IsSettled)
    (hbase : ∀ b, base = some b → b.IsSettled) : Meets IsFloating p (logarithm a base) := by
  refine (Analytic.meets_naturalLog ha).bind fun power hpower => ?_
  cases base with
  | none => exact hpower
  | some b =>
      refine (Analytic.meets_naturalLog (hbase b rfl)).bind fun divisor hdivisor => ?_
      refine (meets_divide hpower hdivisor).bind fun quotient hquotient => ?_
      exact (meets_settle hquotient).mono_answer fun _ => IsSettled.isFloating

/-- A double. -/
def IsReal (a : Scalar) : Prop := ∃ x, a = .real x

theorem IsReal.isFloating (h : a.IsReal) : a.IsFloating := by
  obtain ⟨x, rfl⟩ := h
  trivial

theorem meets_abs (ha : a.IsFloating) : Meets IsReal (· = .magnitudeTooLarge) a.abs := by
  cases a with
  | whole => exact ha.elim
  | real x => exact ⟨_, rfl⟩
  | complex z =>
      refine Meets.map (Q := fun _ => True) ?_ fun x _ => ⟨x, rfl⟩
      unfold Complex.magnitude
      dsimp only
      split
      case isTrue => rfl
      case isFalse => trivial

end Scalar

namespace Function

open Scalar Reckoner.Complex

/-- The faults that a function may have for numbers in normal form. -/
def faults : Function → List Fault
  | .sin | .cos | .sinh | .cosh | .exp | .cbrt => growthFaults
  | .tan | .tanh | .atan | .atanh => domainFaults
  | .log2 => [.divisionByZero]
  | .abs => [.magnitudeTooLarge]
  | .arg => [.outOfRange]
  | _ => []

theorem length_of_admits {count n : Nat} (h : (⟨n, some n⟩ : Arity).admits count = true) :
    count = n := by
  rw [Arity.admits, Bool.and_eq_true, decide_eq_true_eq, Option.all_some, decide_eq_true_eq] at h
  exact Nat.le_antisymm h.2 h.1

theorem meets_phase (z : Complex) : Meets (fun _ => True) (· = .outOfRange) z.phase := by
  unfold Complex.phase
  dsimp only
  split
  case isTrue => rfl
  case isFalse => trivial

theorem onScalars_of_analytic {f : Function} {analytic : Analytic} (a : Scalar)
    (h : Analytic.ofFunction? f = some analytic) : f.onScalars [a] = analytic.apply a := by
  cases f <;> cases h <;> rfl

theorem meets_onScalars_one {f : Function} {a : Scalar} (hf : f.arity = ⟨1, some 1⟩)
    (ha : a.IsSettled) :
    Meets IsFloating (· ∈ f.faults) (f.onScalars [a]) := by
  have hfloating := ha.isFloating
  have hscale (x : Float) {p : Fault → Prop} :
      Meets IsFloating p (Operator.multiply.onScalars a (.real x)) :=
    (meets_onScalars (b := .real x) .multiply hfloating trivial).mono_answer
      fun _ => IsSettled.isFloating
  cases f with
  | atan2 | log | pow | min | max | clamp | lerp => cases hf
  | sin => exact Analytic.meets_apply_of_plane hfloating failsOnly_sin
  | cos => exact Analytic.meets_apply_of_plane hfloating failsOnly_cos
  | tan => exact Analytic.meets_apply_of_plane hfloating failsOnly_tan
  | sinh => exact Analytic.meets_apply_of_plane hfloating failsOnly_sinh
  | cosh => exact Analytic.meets_apply_of_plane hfloating failsOnly_cosh
  | tanh => exact Analytic.meets_apply_of_plane hfloating failsOnly_tanh
  | exp => exact Analytic.meets_apply_of_plane hfloating failsOnly_exp
  | cbrt => exact Analytic.meets_apply_of_plane hfloating failsOnly_cbrt
  | atan => exact Analytic.meets_apply_of_plane hfloating failsOnly_atan
  | atanh => exact Analytic.meets_apply_of_plane hfloating failsOnly_atanh
  | asin | acos | asinh | acosh | sqrt =>
      rw [onScalars_of_analytic a rfl]
      exact Analytic.meets_apply_of_plane hfloating fun _ => failsOnly_ok _
  | ln => exact Analytic.meets_naturalLog ha
  | log10 =>
      refine Analytic.meets_apply_of_log ha (fun z w hw => ?_) fun z => ?_
      · change FailsOnly _ (z.log >>= _)
        rw [hw]
        exact failsOnly_ok _
      · exact (failsOnly_log10 z).mono fun _ h => .inl (List.mem_singleton.mp h)
  | log2 =>
      refine Analytic.meets_apply_of_log ha (fun z w hw => ?_) fun z => ?_
      · change FailsOnly _ (z.log >>= _)
        rw [hw]
        exact (meets_divide_complex w _).failsOnly.mono fun _ => List.mem_singleton.mpr
      · exact (failsOnly_log2 z).mono fun _ => Or.imp_right List.mem_singleton.mpr
  | abs =>
      exact (meets_abs hfloating).mono (fun _ => IsReal.isFloating)
        fun _ => List.mem_singleton.mpr
  | sign => exact isFloating_sign hfloating
  | floor | ceil | round | trunc => exact meets_toIntegral _ hfloating
  | rad => exact hscale radiansPerDegree
  | deg => exact hscale degreesPerRadian
  | re | im | conj => cases a with
    | whole => exact hfloating
    | real | complex => trivial
  | arg =>
      obtain ⟨z, hz⟩ := exists_toComplex hfloating
      change Meets IsFloating _ (a.toComplex >>= fun z => do return .real (← z.phase))
      rw [hz, bind_ok]
      exact Meets.bind ((meets_phase z).mono_error fun _ => List.mem_singleton.mpr)
        fun _ _ => trivial

/-- A function has no faults but those of its list, and its values are made of doubles. -/
theorem meets_onScalars {f : Function} {args : List Scalar} (hargs : ∀ a ∈ args, a.IsSettled)
    (hadmits : f.arity.admits args.length = true) :
    Meets IsFloating (· ∈ f.faults) (f.onScalars args) := by
  have hfloating : ∀ a ∈ args, a.IsFloating := fun a ha => (hargs a ha).isFloating
  by_cases hone : f.arity = ⟨1, some 1⟩
  · rw [hone] at hadmits
    obtain ⟨a, rfl⟩ := List.length_eq_one_iff.mp (length_of_admits hadmits)
    exact meets_onScalars_one hone (hargs a List.mem_cons_self)
  · cases f with
    | atan2 =>
        obtain ⟨y, x, rfl⟩ := List.length_eq_two.mp (length_of_admits hadmits)
        obtain ⟨z, hz⟩ := exists_toComplex (hfloating y (by simp))
        obtain ⟨w, hw⟩ := exists_toComplex (hfloating x (by simp))
        change Meets IsFloating _
          (y.toComplex >>= fun z => x.toComplex >>= fun w => pure (.real (z.re.atan2 w.re)))
        rw [hz, hw]
        trivial
    | log =>
        match args with
        | [] => cases hadmits
        | [a] =>
            change Meets IsFloating _ (logarithm a none)
            exact meets_logarithm (hargs a (by simp)) fun _ h => by cases h
        | [a, b] =>
            change Meets IsFloating _ (logarithm a (some b))
            exact meets_logarithm (hargs a (by simp)) fun _ h => by cases h; exact hargs b (by simp)
        | _ :: _ :: _ :: _ =>
            simp [Arity.admits, arity] at hadmits
    | pow =>
        obtain ⟨a, b, rfl⟩ := List.length_eq_two.mp (length_of_admits hadmits)
        refine (failsOnly_power (hfloating b (by simp))).meets fun _ h => ?_
        exact (isSettled_power h).isFloating
    | min =>
        match args with
        | [] => cases hadmits
        | a :: rest =>
            obtain ⟨ha, hrest⟩ := List.forall_mem_cons.mp hfloating
            exact isFloating_minimum ha hrest
    | max =>
        match args with
        | [] => cases hadmits
        | a :: rest =>
            obtain ⟨ha, hrest⟩ := List.forall_mem_cons.mp hfloating
            exact isFloating_maximum ha hrest
    | clamp =>
        obtain ⟨a, low, high, rfl⟩ := List.length_eq_three.mp (length_of_admits hadmits)
        have hmost : (maximum a [low]).IsFloating :=
          isFloating_maximum (hfloating a (by simp)) fun b hb => hfloating b (by simp_all)
        exact isFloating_minimum hmost fun b hb => hfloating b (by simp_all)
    | lerp =>
        obtain ⟨a, b, t, rfl⟩ := List.length_eq_three.mp (length_of_admits hadmits)
        have ha := hfloating a (by simp)
        have hb := hfloating b (by simp)
        have ht := hfloating t (by simp)
        refine (Scalar.meets_onScalars .subtract hb ha).bind fun span hspan => ?_
        refine (Scalar.meets_onScalars .multiply hspan.isFloating ht).bind fun part hpart => ?_
        exact (Scalar.meets_onScalars .add ha hpart.isFloating).mono_answer
          fun _ => IsSettled.isFloating
    | _ => exact absurd rfl hone

end Function

end Reckoner
