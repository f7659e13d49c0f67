import Reckoner.Proofs.Double.Product
import Reckoner.Proofs.Expr.Accidents
import Reckoner.Proofs.Solve.Collection
import Reckoner.Solve.Basic

/-!
# Accidents of solving

An equation that has been read is solved with numbers made of doubles, and the arithmetic on them
divides by nothing but numbers that have been found not to be zero, or that cannot be zero. So
besides the faults of functions that are called only those remain of taking the size of a complex
number and of squaring it.
-/

namespace Reckoner

open Reckoner.Action Scalar

/-- The faults of taking the size of a number and of squaring it. -/
def sizeFaults : List Fault := [.magnitudeTooLarge, .squareTooLarge]

/-- A fault of one of certain functions, or of a size. -/
inductive SolvingFault (allowed : Function → Prop) : Cause → Prop
  | function {cause : Cause} : FaultOf allowed cause → SolvingFault allowed cause
  | size {fault : Fault} : fault ∈ sizeFaults → SolvingFault allowed (.arithmetic fault)

/-- The errors of solving. -/
abbrev SolvingError (allowed : Function → Prop) : Error → Prop :=
  Error.IsCodedOr (SolvingFault allowed)

variable {σ : Type} {inv : σ → Prop} {allowed : Function → Prop} {a b x : Scalar}

theorem FaultOf.solvingError (err : Error) (h : err.IsCodedOr (FaultOf allowed)) :
    SolvingError allowed err := h.mono fun _ => .function

theorem solvingError_of_size (fault : Fault) (h : fault ∈ sizeFaults) :
    SolvingError allowed fault.toError := .inr (.size h)

/-! ## Sizes -/

namespace Scalar

theorem meets_size (ha : a.IsFloating) : Meets IsReal (· ∈ sizeFaults) a.abs :=
  (meets_abs ha).mono_error fun _ h => h ▸ List.mem_cons_self

theorem meets_isFinite {p : Fault → Prop} (ha : a.IsFloating) :
    Meets (fun _ => True) p a.isFinite := by
  cases a with
  | whole => exact ha.elim
  | real | complex => trivial

theorem isFloating_greater (ha : a.IsFloating) (hb : b.IsFloating) :
    (Numeric.greater a b).IsFloating := by
  unfold Numeric.greater
  split
  case isTrue => exact hb
  case isFalse => exact ha

theorem meets_close (ha : a.IsFloating) (hb : b.IsFloating) :
    Meets (fun _ => True) (· ∈ sizeFaults) (Numeric.close a b) := by
  refine (meets_sub ha hb).bind fun _ hgap => ?_
  refine (meets_size hgap).bind fun _ _ => ?_
  refine (meets_size ha).bind fun _ hsizeA => ?_
  refine (meets_size hb).bind fun _ hsizeB => ?_
  have hscale := isFloating_greater (isFloating_greater (a := .real 1.0) trivial hsizeA.isFloating)
    hsizeB.isFloating
  exact (meets_mul (a := .real 1e-9) trivial hscale).bind fun _ _ => trivial

theorem ends_size (ha : a.IsFloating) :
    Ends inv IsReal (SolvingError allowed) (ofFault (Numeric.abs a) : Action σ Scalar) :=
  ends_ofFault ((meets_size ha).mono_error solvingError_of_size)

theorem ends_isFinite {p : Error → Prop} (ha : a.IsFloating) :
    Ends inv (fun _ => True) p (ofFault (Numeric.isFinite a) : Action σ Bool) :=
  ends_ofFault (meets_isFinite ha)

theorem ends_isSmall (ha : a.IsFloating) :
    Ends inv (fun _ => True) (SolvingError allowed)
      (ofFault (Newton.isSmall a b) : Action σ Bool) :=
  ends_ofFault (((meets_size ha).mono_error solvingError_of_size).bind fun _ _ => trivial)

end Scalar

/-! ## Newton's iteration -/

theorem Scalar.lt_of_less {x y : Float} (h : less (.real x) (.real y) = true) : x < y := by
  unfold less order at h
  dsimp only at h
  split at h
  case isTrue hlt => exact hlt
  case isFalse =>
      split at h
      case isTrue => cases h
      case isFalse => split at h <;> cases h

/-- All numbers of the step are made of doubles. -/
structure NewtonStep.IsFloating (s : NewtonStep Scalar) : Prop where
  estimate : s.estimate.IsFloating
  residual : s.residual.IsFloating
  slope : s.slope.IsFloating
  next : s.next.IsFloating

/-- The same, but for a whole number that the step starts from. -/
structure NewtonStep.IsShowable (s : NewtonStep Scalar) : Prop where
  estimate : s.estimate.IsConvertible
  residual : s.residual.IsFloating
  slope : s.slope.IsFloating
  next : s.next.IsFloating

theorem NewtonStep.IsFloating.isShowable {s : NewtonStep Scalar} (h : s.IsFloating) :
    s.IsShowable := ⟨exists_toComplex h.estimate, h.residual, h.slope, h.next⟩

/-- A number that the iteration ends at, and its residual, are made of doubles. -/
def Ending.IsFloating : Ending Scalar → Prop
  | .converged x _ residual => x.IsFloating ∧ residual.IsFloating
  | _ => True

namespace Newton

/-- The interval of the difference quotient is never zero. -/
theorem exists_interval (s : Float) :
    ∃ y, Numeric.mul (Arithmetic.number relativeStep : Scalar)
        (Numeric.greater (Arithmetic.number 1.0) (.real s)) = .ok (.real y) ∧
      Double.isZero y = false := by
  have hstep : Double.isZero relativeStep = false := by decide
  unfold Numeric.greater
  split
  case isTrue hless => exact ⟨relativeStep * s, rfl, Double.isZero_mul hstep (lt_of_less hless)⟩
  case isFalse => exact ⟨relativeStep * 1.0, rfl, by decide⟩

/-- So the quotient has no fault of its own. -/
theorem ends_differenceQuotient {f : Scalar → Action σ Scalar}
    (hf : ∀ x, x.IsFloating → Ends inv Scalar.IsFloating (SolvingError allowed) (f x))
    (hx : x.IsFloating) :
    Ends inv Scalar.IsFloating (SolvingError allowed) (differenceQuotient f x) := by
  unfold differenceQuotient
  refine (ends_size hx).bind fun size hsize => ?_
  obtain ⟨s, rfl⟩ := hsize
  obtain ⟨y, hy, hzero⟩ := exists_interval s
  rw [hy]
  refine ends_pure_bind (b := Scalar.real y) ?_
  refine (ends_ofFault (meets_add (b := .real y) hx trivial)).bind fun above habove => ?_
  refine (hf above habove).bind fun above habove => ?_
  refine (ends_ofFault (meets_sub (b := .real y) hx trivial)).bind fun below hbelow => ?_
  refine (hf below hbelow).bind fun below hbelow => ?_
  refine ends_ofFault ((meets_sub habove hbelow).bind fun difference hdifference => ?_)
  refine meets_div_of_ne hdifference (b := .real (2.0 * y)) trivial ?_
  change Double.isZero (2.0 * y) = false
  rw [Double.mul_comm]
  exact Double.isZero_mul hzero (by decide)

/-- The function answers with numbers made of doubles and fails as solving may fail, and so does its
derivative if there is one; how often they are evaluated is not limited. -/
structure IsRegular (inv : σ → Prop) (allowed : Function → Prop) (n : Newton σ Scalar) : Prop where
  value : ∀ x, x.IsFloating → Ends inv Scalar.IsFloating (SolvingError allowed) (n.value x)
  derivative : ∀ d, n.derivative? = some d → ∀ x, x.IsFloating →
    Ends inv Scalar.IsFloating (SolvingError allowed) (d x)
  note : ∀ s : NewtonStep Scalar, s.IsFloating →
    Ends inv (fun _ => True) (SolvingError allowed) (n.note s)
  evaluations : n.limits.evaluations = .null

variable {n : Newton σ Scalar}

theorem ends_slopeAt (h : n.IsRegular inv allowed) (hx : x.IsFloating) :
    Ends inv Scalar.IsFloating (SolvingError allowed) (n.slopeAt x) := by
  unfold slopeAt
  split
  case h_1 d hd => exact h.derivative d hd x hx
  case h_2 => exact ends_differenceQuotient h.value hx

/-- By induction on the steps that are left. -/
theorem ends_iterate (h : n.IsRegular inv allowed) (left done evaluations : Nat)
    (hx : x.IsFloating) :
    Ends inv Ending.IsFloating (SolvingError allowed) (n.iterate left done evaluations x) := by
  induction left using Nat.strongRecOn generalizing done evaluations x with
  | ind left ih =>
      rw [iterate]
      refine (h.value x hx).bind fun residual hresidual => ?_
      refine (ends_isFinite hresidual).bind fun finite _ => ?_
      split
      case isTrue => exact ends_pure trivial
      case isFalse =>
      refine (ends_size hresidual).bind fun size hsize => ?_
      split
      case isTrue => exact ends_pure ⟨hx, hsize.isFloating⟩
      case isFalse =>
      cases left with
      | zero => exact ends_pure trivial
      | succ left =>
      rw [Limits.exceededBy, h.evaluations]
      refine Ends.andThen (ends_pure trivial) fun exceeded => ?_
      split
      case isTrue => exact ends_pure trivial
      case isFalse =>
      refine (ends_slopeAt h hx).bind fun slope hslope => ?_
      dsimp only
      split
      case isTrue => exact ends_pure trivial
      case isFalse hzero =>
      refine (ends_isFinite hslope).bind fun finite _ => ?_
      split
      case isTrue => exact ends_pure trivial
      case isFalse =>
      -- the slope is no zero here
      have hdiv := meets_div_of_ne (p := fun fault => SolvingError allowed fault.toError)
        hresidual hslope ((Bool.not_eq_true _).mp hzero)
      refine (ends_ofFault hdiv).bind fun step hstep => ?_
      refine (ends_ofFault (meets_sub hx hstep)).bind fun next hnext => ?_
      refine (h.note _ ⟨hx, hresidual, hslope, hnext⟩).bind fun _ _ => ?_
      refine (ends_isFinite hnext).bind fun finite _ => ?_
      split
      case isTrue => exact ends_pure trivial
      case isFalse =>
      refine (ends_isSmall hstep).bind fun small _ => ?_
      split
      case isFalse => exact ih left (Nat.lt_succ_self left) _ _ hnext
      case isTrue =>
      refine (h.value next hnext).bind fun last hlast => ?_
      refine (ends_isFinite hlast).bind fun finite _ => ?_
      split
      case isFalse => exact ih left (Nat.lt_succ_self left) _ _ hnext
      case isTrue =>
      exact (ends_size hlast).bind fun size hsize => ends_pure ⟨hnext, hsize.isFloating⟩

end Newton

/-! ## Linear forms -/

namespace LinearForm

/-- The factor and the constant are made of doubles. -/
structure IsFloating (f : LinearForm Scalar) : Prop where
  factor : f.factor.IsFloating
  constant : f.constant.IsFloating

variable {f g : LinearForm Scalar} {accident : Cause → Prop}

theorem isFloating_ofConstant (ha : a.IsFloating) : (ofConstant a).IsFloating := ⟨trivial, ha⟩

theorem IsFloating.negate (h : f.IsFloating) : f.negate.IsFloating :=
  ⟨h.factor.neg, h.constant.neg⟩

theorem meets_operate {p : Cause → Prop} (op : Operator) (ha : a.IsFloating) (hb : b.IsFloating) :
    Meets Scalar.IsFloating p (Arithmetic.operate op a b) :=
  ((meets_onScalars op ha hb).mono_answer fun _ => IsSettled.isFloating).mapError

theorem meets_form {p : Cause → Prop} {factor constant : Except Cause Scalar}
    (hfactor : Meets Scalar.IsFloating p factor) (hconstant : Meets Scalar.IsFloating p constant) :
    Meets IsFloating p (do let x ← factor; return ⟨x, ← constant⟩) :=
  hfactor.bind fun _ hx => hconstant.bind fun _ hy => ⟨hx, hy⟩

theorem meets_combine (op : String) (hf : f.IsFloating) (hg : g.IsFloating) :
    Meets IsFloating (Cause.IsCodedOr accident) (combine op f g) := by
  unfold combine
  split
  case h_1 | h_2 =>
      exact meets_form (meets_operate _ hf.factor hg.factor)
        (meets_operate _ hf.constant hg.constant)
  case h_3 =>
      have hconstant := meets_operate (p := Cause.IsCodedOr accident) .multiply
        hf.constant hg.constant
      unfold multiply
      split
      case isTrue => exact .inl rfl
      case isFalse =>
          dsimp only
          split
          case isTrue => exact meets_form (meets_operate _ hf.constant hg.factor) hconstant
          case isFalse => exact meets_form (meets_operate _ hf.factor hg.constant) hconstant
  case h_4 =>
      unfold divide
      split
      case isTrue => exact .inl rfl
      case isFalse =>
          exact meets_form (meets_operate _ hf.factor hg.constant)
            (meets_operate _ hf.constant hg.constant)
  case h_5 => exact .inl rfl

/-- The sample points are one apart. -/
theorem meets_agrees {y z : Scalar} (hf : f.IsFloating) (hy : y.IsFloating) (hz : z.IsFloating) :
    Meets (fun _ => True) (· ∈ sizeFaults)
      (f.agrees (Arithmetic.number Unknown.samplePoints.1) y
        (Arithmetic.number Unknown.samplePoints.2) z) := by
  unfold agrees
  refine (meets_sub hz hy).bind fun rise hrise => ?_
  refine Meets.bind (Q := (· = Scalar.real (2.0 - 1.0))) rfl fun run hrun => ?_
  subst hrun
  refine (meets_div_of_ne (b := .real (2.0 - 1.0)) hrise trivial (by decide)).bind
    fun slope hslope => ?_
  refine (meets_close hslope hf.factor).bind fun close _ => ?_
  split
  case isFalse => trivial
  case isTrue =>
  refine Meets.bind ?_ fun value hvalue => meets_close hy hvalue
  exact (meets_mul (b := .real 1.0) hf.factor trivial).bind fun _ hproduct =>
    meets_add hproduct hf.constant

theorem meets_root (hf : f.IsFloating) (hfactor : f.factor.isZero = false) :
    Meets Scalar.IsFloating (Cause.IsCodedOr accident) f.root := by
  unfold root
  refine ((meets_div_of_ne hf.constant.neg hf.factor hfactor).mapError).bind fun x hx => ?_
  exact ((meets_settle hx).mono_answer fun _ => IsSettled.isFloating).mapError

end LinearForm

/-! ## Collecting -/

namespace Expr

variable {bindings : Table (Binding Scalar)}

mutual

/-- The search for a variable only fails at what is no expression. -/
theorem failsOnly_mentions {p : Cause → Prop} (name : String) :
    ∀ e : Expr, e.Everywhere (IsRegular allowed) → FailsOnly p (e.mentions name)
  | .negate e, h => failsOnly_mentions name e h.2
  | .binary _ l r, h => by
      rw [mentions]
      refine (failsOnly_mentions name l h.2.1).bind fun found _ => ?_
      split
      case isTrue => exact failsOnly_pure _
      case isFalse => exact failsOnly_mentions name r h.2.2
  | .call _ args, h => failsOnly_mentionsAny name args h.2
  | .number _, _ | .imaginary _, _ | .constant _, _ | .var _, _ => failsOnly_ok _
  | .blank, h | .foreign .., h => h.elim

theorem failsOnly_mentionsAny {p : Cause → Prop} (name : String) :
    ∀ es : List Expr, EverywhereAll (IsRegular allowed) es → FailsOnly p (mentionsAny name es)
  | [], _ => failsOnly_ok _
  | e :: rest, h => by
      rw [mentionsAny]
      refine (failsOnly_mentions name e h.1).bind fun found _ => ?_
      split
      case isTrue => exact failsOnly_pure _
      case isFalse => exact failsOnly_mentionsAny name rest h.2

end

section Forms

variable {values : String → Except Error Scalar} {name : String}

/-- The form of names in normal form is made of doubles. -/
theorem isFloating_constantFormWith (hvalues : ∀ {name v}, values name = .ok v → v.IsSettled)
    {e : Expr} {form : LinearForm Scalar} (h : e.constantFormWith values = .ok form) :
    form.IsFloating := by
  obtain ⟨v, hv, h⟩ := exists_of_bind_eq_ok h
  cases h
  exact LinearForm.isFloating_ofConstant (isSettled_outcomeWith hvalues hv).isFloating

theorem isFloating_formWith (hvalues : ∀ {name v}, values name = .ok v → v.IsSettled) (e : Expr)
    {form : LinearForm Scalar} (h : e.formWith values name = .ok form) : form.IsFloating := by
  refine of_formWith (p := fun _ form => form.IsFloating)
    (fun _ _ => isFloating_constantFormWith hvalues) ⟨trivial, trivial⟩ (fun _ _ hf => hf.negate)
    (fun op _ _ f g form hf hg h => ?_) e h
  have hmeets : Meets LinearForm.IsFloating (Cause.IsCodedOr fun _ => True)
      (LinearForm.combine op f g) := LinearForm.meets_combine op hf hg
  rwa [h] at hmeets

theorem isFloating_of_collect {e : Expr} {form : LinearForm Scalar}
    (h : e.collect bindings name = .ok form) : form.IsFloating := by
  rw [collect_eq_formWith] at h
  exact isFloating_formWith isSettled_meaningWithin e h

end Forms

theorem meets_constantFormWith (h : AreRegular allowed bindings) {e : Expr}
    (he : e.Everywhere (IsRegular allowed)) :
    Meets LinearForm.IsFloating (Error.IsCodedOr (FaultOf allowed))
      (e.constantFormWith (meaning bindings)) :=
  (meets_outcomeWith (meets_meaning h) e he).bind fun _ hv =>
    LinearForm.isFloating_ofConstant hv.isFloating

theorem meets_soleFormWith (h : AreRegular allowed bindings) (name : String)
    (why : Nonlinearity) {e : Expr} (he : e.Everywhere (IsRegular allowed)) :
    Meets LinearForm.IsFloating (Error.IsCodedOr (FaultOf allowed))
      (e.soleFormWith (meaning bindings) name why) := by
  have hmentions : FailsOnly (Cause.IsCodedOr (FaultOf allowed)) (e.mentions name) :=
    failsOnly_mentions name e he
  refine Meets.andThen hmentions.meets_true.ofCause fun mentioned => ?_
  cases mentioned with
  | true => exact .inl rfl
  | false => exact meets_constantFormWith h he

/-- By induction on the tree, one case for each node. -/
theorem meets_formWith (h : AreRegular allowed bindings) (name : String) :
    ∀ e : Expr, e.Everywhere (IsRegular allowed) →
      Meets LinearForm.IsFloating (Error.IsCodedOr (FaultOf allowed))
        (e.formWith (meaning bindings) name)
  | .var other, he => by
      rw [formWith]
      split
      case isTrue => exact ⟨trivial, trivial⟩
      case isFalse => exact meets_constantFormWith h he
  | .negate e, he => by
      rw [formWith]
      exact (meets_formWith h name e he.2).bind fun _ hf => hf.negate
  | .binary op l r, he => by
      rw [formWith]
      split
      case isTrue => exact meets_soleFormWith h name _ he
      case isFalse =>
          refine (meets_formWith h name l he.2.1).bind fun f hf => ?_
          refine (meets_formWith h name r he.2.2).bind fun g hg => ?_
          exact (LinearForm.meets_combine op hf hg).ofCause
  | .call f args, he => meets_soleFormWith h name _ he
  | .number x, he => meets_constantFormWith h (e := .number x) he
  | .imaginary x, he => meets_constantFormWith h (e := .imaginary x) he
  | .constant c, he => meets_constantFormWith h (e := .constant c) he
  | .blank, he | .foreign .., he => he.elim

theorem meets_collect (h : AreRegular allowed bindings) (name : String) {e : Expr}
    (he : e.Everywhere (IsRegular allowed)) :
    Meets LinearForm.IsFloating (Error.IsCodedOr (FaultOf allowed)) (e.collect bindings name) := by
  rw [collect_eq_formWith]
  exact meets_formWith h name e he

end Expr

/-! ## One equation -/

theorem areRegular_without {bindings : Table (Binding Scalar)} (h : AreRegular allowed bindings)
    (names : List String) : AreRegular allowed (bindings.without names) := by
  intro name binding hfind
  rw [Table.find?_without] at hfind
  split at hfind
  case isTrue => cases hfind
  case isFalse => exact h name binding hfind

theorem areRegular_insert {bindings : Table (Binding Scalar)} (h : AreRegular allowed bindings)
    (name : String) {binding : Binding Scalar} (hbinding : binding.IsRegular allowed) :
    AreRegular allowed (bindings.insert name binding) := by
  intro other found hfind
  rw [Table.find?_insert] at hfind
  split at hfind
  case isTrue => cases hfind; exact hbinding
  case isFalse => exact h other found hfind

/-- What the observer is told, if it is made of doubles, it takes note of. -/
structure Observer.IsRegular (inv : σ → Prop) (observer : Observer σ Scalar) : Prop where
  form : ∀ f, Gives inv (observer.form f) (.ok ())
  rejected : ∀ why, Gives inv (observer.rejected why) (.ok ())
  root : ∀ f x, f.IsFloating → x.IsFloating → Gives inv (observer.root f x) (.ok ())
  step : ∀ s : NewtonStep Scalar, s.IsFloating → Gives inv (observer.step s) (.ok ())

namespace Unknown

/-- An equation that calls none but certain functions, with bindings of this kind, no derivative, a
first estimate made of doubles and no limit on evaluations. -/
structure IsRegular (allowed : Function → Prop) (u : Unknown Scalar) : Prop where
  residual : u.residual.Everywhere (Expr.IsRegular allowed)
  bindings : AreRegular allowed u.bindings
  derivative : u.derivative? = none
  start : Meets Scalar.IsFloating (Cause.IsCodedOr (SolvingFault allowed)) u.start
  evaluations : u.limits.evaluations = .null

variable {u : Unknown Scalar} {observer : Observer σ Scalar}

theorem IsRegular.bind (h : u.IsRegular allowed) (hx : x.IsFloating) :
    AreRegular allowed (u.bind x) :=
  areRegular_insert (areRegular_without h.bindings _) _ hx

theorem meets_function (h : u.IsRegular allowed) {p : Program Scalar}
    (hp : Program.ofExpr u.codegen u.residual = .ok p) (hx : x.IsFloating) :
    Meets Scalar.IsFloating (SolvingError allowed) (u.function p x) := by
  rw [function, Program.run_of_ofExpr hp]
  exact (Expr.meets_evaluate (h.bind hx) h.residual).mono (fun _ => IsSettled.isFloating)
    FaultOf.solvingError

/-- The values of a solution are made of doubles. -/
def AreFloating (s : Solution Scalar) : Prop := ∀ entry ∈ s.values, entry.2.IsFloating

theorem ends_solveLinear (h : u.IsRegular allowed) (hobserver : observer.IsRegular inv)
    {f : Scalar → Except Error Scalar}
    (hf : ∀ x, x.IsFloating → Meets Scalar.IsFloating (SolvingError allowed) (f x)) :
    Ends inv AreFloating (SolvingError allowed) (u.solveLinear observer f) := by
  unfold solveLinear
  have hcollect := Expr.meets_collect (areRegular_without h.bindings [u.name]) u.name h.residual
  refine (ends_ofExcept (hcollect.mono_error FaultOf.solvingError)).bind
    fun form hform => ?_
  refine (ends_ofExcept (hf (.real samplePoints.1) trivial)).bind fun y1 hy1 => ?_
  refine (ends_ofExcept (hf (.real samplePoints.2) trivial)).bind fun y2 hy2 => ?_
  have hagrees := LinearForm.meets_agrees hform hy1 hy2
  refine (ends_ofFault (hagrees.mono_error solvingError_of_size)).bind fun agrees _ => ?_
  split
  case isTrue => exact ends_fail (.inl rfl)
  case isFalse =>
  refine Ends.andThen ((hobserver.form form).ends trivial) fun _ => ?_
  split
  case isTrue =>
      refine (ends_isSmall hform.constant).bind fun small _ => ?_
      split <;> exact ends_fail (.inl rfl)
  case isFalse hfactor =>
      have hroot : Meets Scalar.IsFloating (Cause.IsCodedOr (SolvingFault allowed)) form.root :=
        LinearForm.meets_root hform ((Bool.not_eq_true _).mp hfactor)
      refine (ends_ofCause hroot).bind fun x hx => ?_
      refine Ends.andThen ((hobserver.root form x hform hx).ends trivial) fun _ => ?_
      refine (ends_ofExcept (hf x hx)).bind fun residual hresidual => ?_
      refine (ends_size hresidual).bind fun size _ => ?_
      exact ends_pure (List.forall_mem_singleton.mpr hx)

theorem ends_solveNewton (h : u.IsRegular allowed) (hobserver : observer.IsRegular inv)
    {p : Program Scalar} (hp : Program.ofExpr u.codegen u.residual = .ok p) :
    Ends inv Ending.IsFloating (SolvingError allowed) (u.solveNewton observer p) := by
  unfold solveNewton derivativeProgram
  rw [h.derivative]
  refine ends_pure_bind (b := none) ?_
  refine (ends_ofCause h.start).bind fun start hstart => ?_
  refine Newton.ends_iterate ?_ _ _ _ hstart
  exact {
    value := fun x hx => ends_ofExcept (meets_function h hp hx)
    derivative := fun _ hd => by cases hd
    note := fun s hs => (hobserver.step s hs).ends trivial
    evaluations := h.evaluations }

/-- A solution by a linear form, or the end of Newton's iteration. -/
theorem ends_solve (h : u.IsRegular allowed) (hobserver : observer.IsRegular inv) :
    Ends inv (Sum.elim AreFloating Ending.IsFloating) (SolvingError allowed)
      (u.solve observer) := by
  have hprogram := (Program.failsOnly_ofExpr u.codegen h.residual).mono FaultOf.solvingError
  unfold solve solveOr
  refine (ends_ofExcept (hprogram.meets fun _ hp => hp)).bind fun p hp => ?_
  have hlinear := ends_solveLinear h hobserver fun x => meets_function h hp
  refine (hlinear.map (f := Sum.inl) (R := Sum.elim AreFloating Ending.IsFloating)
    fun _ hs => hs).tryCatch fun err herr => ?_
  split
  case h_1 why _ =>
      refine Ends.andThen ((hobserver.rejected _).ends trivial) fun _ => ?_
      exact (ends_solveNewton h hobserver hp).map fun _ hending => hending
  case h_2 => exact ends_ofExcept herr

end Unknown

/-! ## Checking -/

namespace Check

theorem meets_powerReal (x y : Float) :
    Meets Scalar.IsFloating (fun _ => True) (Scalar.powerReal x y) := by
  have hfinite {negative : Bool} {p : Float} : Meets Scalar.IsFloating (fun _ => True)
      (if p.isInf then .error Fault.outOfRange else .ok (.real (if negative then -p else p))) := by
    split <;> trivial
  unfold Scalar.powerReal
  repeat' split
  all_goals first
    | trivial
    | exact hfinite
    | exact Meets.map (Q := fun _ => True) (by cases Complex.power _ _ <;> trivial)
        fun _ _ => trivial

theorem meets_squareSize (ha : a.IsFloating) :
    Meets Scalar.IsFloating (· ∈ sizeFaults) (squareSize a) := by
  refine (meets_size ha).bind fun size hsize => ?_
  obtain ⟨y, rfl⟩ := hsize
  refine Meets.mapError (p := fun fault => fault ∈ sizeFaults) ?_
  exact (meets_powerReal y 2.0).mono_error fun _ _ => by decide

theorem wholeToFloat_zero : wholeToFloat 0 = .ok 0.0 := by decide

/-- A sum of squares: none yet, or a number made of doubles. -/
def IsSum (a : Scalar) : Prop := a = .whole 0 ∨ a.IsFloating

theorem meets_add_square {p : Fault → Prop} {sum : Scalar} (hsum : IsSum sum) (hb : b.IsFloating) :
    Meets Scalar.IsFloating p (sum.add b) := by
  rcases hsum with rfl | hsum
  case inr => exact meets_add hsum hb
  case inl =>
      cases b with
      | whole => exact hb.elim
      | real y =>
          change Meets _ _ (wholeToFloat 0 >>= fun x => .ok (Scalar.real (x + y)))
          rw [wholeToFloat_zero]
          trivial
      | complex w =>
          change Meets _ _
            (Complex.ofFloat <$> wholeToFloat 0 >>= fun z => .ok (Scalar.complex (z + w)))
          rw [wholeToFloat_zero]
          trivial

theorem meets_sumOfSquares {sum : Scalar} {values : List Scalar} (hsum : IsSum sum)
    (hvalues : ∀ v ∈ values, v.IsFloating) :
    Meets IsSum (· ∈ sizeFaults) (sumOfSquares sum values) := by
  induction values generalizing sum with
  | nil => exact hsum
  | cons v values ih =>
      obtain ⟨hv, hvalues⟩ := List.forall_mem_cons.mp hvalues
      refine (meets_squareSize hv).bind fun square hsquare => ?_
      exact (meets_add_square hsum hsquare).bind fun _ hnext => ih (.inr hnext) hvalues

theorem meets_norm {values : List Scalar} (hvalues : ∀ v ∈ values, v.IsFloating) :
    Meets (fun _ => True) (· ∈ sizeFaults) (norm values) := by
  refine (meets_sumOfSquares (.inl rfl) hvalues).bind fun sum hsum => ?_
  have hcomplex : ∃ z, sum.toComplex = .ok z := by
    rcases hsum with rfl | hsum
    · exact ⟨Complex.ofFloat 0.0, by rw [toComplex, wholeToFloat_zero]; rfl⟩
    · exact exists_toComplex hsum
  obtain ⟨z, hz⟩ := hcomplex
  rw [hz]
  trivial

/-- A check names no values. -/
theorem meets_run {bindings : Table (Binding Scalar)} (h : AreRegular allowed bindings)
    {residuals : List Expr} (hresiduals : Expr.EverywhereAll (Expr.IsRegular allowed) residuals)
    (tolerance : Float) :
    Meets (fun s => s.values = []) (SolvingError allowed) (run bindings residuals tolerance) := by
  unfold run
  rw [Expr.evaluateAllWith_eq_outcomesWith]
  have hvalues := (Expr.meets_outcomesWith (meets_meaning h) residuals hresiduals).mono
    (fun _ h => h) FaultOf.solvingError
  refine hvalues.bind fun values hvalues => ?_
  have hnorm := meets_norm fun v hv => (hvalues v hv).isFloating
  exact Meets.bind (hnorm.mono_error solvingError_of_size).mapError fun _ _ => rfl

end Check

/-! ## Events -/

/-- What an event tells of a step is made of doubles. -/
def SolveEvent.IsFloating : SolveEvent → Prop
  | .root _ f x => f.IsFloating ∧ x.IsFloating
  | .step _ _ s => s.IsFloating
  | _ => True

/-- The same, but for a whole number that a step starts from. -/
def SolveEvent.IsShowable : SolveEvent → Prop
  | .root _ f x => f.IsFloating ∧ x.IsFloating
  | .step _ _ s => s.IsShowable
  | _ => True

theorem SolveEvent.IsFloating.isShowable {event : SolveEvent} (h : event.IsFloating) :
    event.IsShowable := by
  cases event with
  | root => exact h
  | step _ _ s => exact NewtonStep.IsFloating.isShowable h
  | _ => trivial

/-- All events tell of doubles. -/
def AreTold (events : List SolveEvent) : Prop := ∀ event ∈ events, event.IsFloating

theorem Solving.gives_report {event : SolveEvent} (h : event.IsFloating) :
    Gives AreTold (Solving.report event) (.ok ()) :=
  gives_update fun _ hevents => List.forall_mem_cons.mpr ⟨h, hevents⟩

theorem Solve.isRegular_observer (name : String) (estimate : Nat → Scalar → Estimate) :
    (Solve.observer name estimate).IsRegular AreTold where
  form _ := Solving.gives_report trivial
  rejected _ := Solving.gives_report trivial
  root _ _ hf hx := Solving.gives_report ⟨hf, hx⟩
  step _ hs := Solving.gives_report hs

theorem Solving.ends_within {β : Type} {good : β → Prop} {accident : Cause → Prop} {a : Solving β}
    (h : Ends AreTold good (Error.IsCodedOr accident) a) (text : String) :
    Ends AreTold good (Error.IsCodedOr accident) (Solving.within text a) := by
  intro events hevents
  obtain ⟨htold, hmeets⟩ := h events hevents
  exact ⟨htold, (hmeets.mono_error fun _ herr => herr.within text).mapError⟩

/-! ## Solutions -/

namespace Options

/-- The options that no caller and no settings file has changed. -/
def standard : Options where
  solveFor := .null
  guess := .number (.real 1.0)
  tolerance := 1e-10
  maxIterations := 100
  stepTolerance := 1e-10
  maxEvaluations := .null
  derivative := .null

theorem build_defaults : build (.ok Settings.defaults) [] [] = .ok standard := by
  have hnames : unknownNames [] = [] := List.mergeSort_nil
  have hmerge : merge [] [] = .ok [] := by
    unfold merge
    rw [hnames]
    rfl
  unfold build
  rw [hmerge]
  rfl

end Options

namespace Solve

/-- All values are numbers made of doubles. -/
def AreNumbers (s : Solution Datum) : Prop :=
  ∀ entry ∈ s.values, ∃ x : Scalar, entry.2 = .number x ∧ x.IsFloating

theorem areNumbers_inData {s : Solution Scalar} (h : Unknown.AreFloating s) :
    AreNumbers (inData s) := by
  intro entry hentry
  obtain ⟨⟨name, x⟩, hx, rfl⟩ := List.mem_map.mp hentry
  exact ⟨x, rfl, h _ hx⟩

theorem meets_concluded {name : String} {ending : Ending Scalar} (h : ending.IsFloating) :
    Meets AreNumbers (Cause.IsCodedOr (SolvingFault allowed))
      (concluded name Options.standard.estimateAt ending) := by
  unfold concluded
  split
  case h_1 x steps residual =>
      have hestimate : Options.standard.estimateAt steps x = .number x := by
        cases steps <;> rfl
      rw [hestimate]
      exact List.forall_mem_singleton.mpr ⟨x, rfl, h.1⟩
  all_goals exact .inl rfl

variable {known : Table Datum}

theorem ends_parsed {e : Equation} (hknown : AreRegular allowed (Binding.ofData known))
    (he : e.residual.Everywhere (Expr.IsRegular allowed)) :
    Ends AreTold AreNumbers (SolvingError allowed)
      (parsed (.ok Settings.defaults) Options.standard known e) := by
  unfold parsed
  have hunknown : FailsOnly (SolvingError allowed)
      (unknownOf e.residual known Options.standard.solveFor) := by
    unfold unknownOf Options.standard
    dsimp only
    split
    case h_1 | h_2 => exact failsOnly_ok _
    case h_3 => exact failsOnly_error (.inl rfl)
  refine (ends_ofExcept hunknown.meets_true).andThen fun name? => ?_
  cases name? with
  | none =>
      have hresiduals : Expr.EverywhereAll (Expr.IsRegular allowed) [e.residual] := ⟨he, trivial⟩
      refine (ends_ofExcept (Check.meets_run hknown hresiduals _)).map fun s hs => ?_
      refine areNumbers_inData fun entry hentry => ?_
      rw [hs] at hentry
      cases hentry
  | some name =>
      refine ends_pure_bind (b := true) ?_
      refine Ends.bind (p := SolvingError allowed)
        (Unknown.ends_solve ?_ (isRegular_observer name _)) fun answer hanswer => ?_
      · exact ⟨he, hknown, rfl, trivial, rfl⟩
      · cases answer with
        | inl s => exact ends_pure (areNumbers_inData hanswer)
        | inr ending => exact ends_ofCause (meets_concluded hanswer)

/-- A text is solved as an equation with the standard options; where it is none it has no
accidents. -/
theorem ends_equation {accident : Cause → Prop} {text : String}
    (hknown : AreRegular allowed (Binding.ofData known))
    (htext : ∀ e, Equation.ofText text = .ok e → e.residual.Everywhere (Expr.IsRegular allowed))
    (haccident : ∀ e, Equation.ofText text = .ok e →
      ∀ cause, SolvingFault allowed cause → accident cause) :
    Ends AreTold AreNumbers (Error.IsCodedOr accident)
      (equation (.ok Settings.defaults) (.text text) known [] []) := by
  unfold equation
  rw [Options.build_defaults]
  refine ends_pure_bind (b := Options.standard) ?_
  refine Solving.ends_within ?_ text
  refine (ends_ofExcept ((Equation.failsOnly_ofText text).meets fun _ h => h)).bind fun e he => ?_
  exact (ends_parsed hknown (htext e he)).mono_error
    fun _ herr => herr.mono (haccident e he)

end Solve

end Reckoner
