import Reckoner.Proofs.Solve.Collection
import Reckoner.Proofs.Solve.Course
import Reckoner.Proofs.Solve.Forms

/-!
# Numbers of opposite signs

In exact arithmetic a linear form and its opposite agree with opposite values and have the same
root. An iteration for a function and one for the function with the opposite sign go through the
same estimates: the residuals and the slopes are opposite, and so the steps, which are their
quotients, are the same.
-/

namespace Reckoner

open Reckoner.Action ExactField

/-- The exact arithmetic of a field in which no number can be divided by zero, sizes do not depend
on the sign, and no operator or function fails as collecting a linear form does. -/
class EvenField (K : Type) [Field K] [Numeric K] : Prop extends ExactField K where
  operate_divide_zero (x : K) : ∃ cause, Arithmetic.operate .divide x 0 = .error cause
  div_by_zero (x : K) : ∃ fault, Numeric.div x 0 = .error fault
  abs_even (x : K) : Numeric.abs (-x) = Numeric.abs x
  isFinite_even (x : K) : Numeric.isFinite (-x) = Numeric.isFinite x
  operate_final (op : Operator) (x y : K) :
    FailsOnly (fun cause => (Error.of cause).IsFinal) (Arithmetic.operate op x y)
  apply_final (f : Function) (xs : List K) :
    FailsOnly (fun cause => (Error.of cause).IsFinal) (Arithmetic.apply f xs)

open EvenField

section Even

variable {K : Type} [Field K] [Numeric K] [EvenField K]

theorem isZero_neg (x : K) : Numeric.isZero (-x) = Numeric.isZero x := by
  rw [Bool.eq_iff_iff, isZero_iff, isZero_iff, neg_eq_zero]

theorem ne_zero_of_isZero {x : K} (h : Numeric.isZero x = false) : x ≠ 0 := by
  rintro rfl
  cases h.symm.trans ((isZero_iff (0 : K)).mpr rfl)

theorem div_neg_of_ok {x y q : K} (h : Numeric.div x y = .ok q) :
    Numeric.div (-x) y = .ok (-q) := by
  have hy : y ≠ 0 := by
    rintro rfl
    obtain ⟨fault, hfault⟩ := div_by_zero x
    cases h.symm.trans hfault
  rw [div_eq x hy] at h
  cases h
  rw [div_eq (-x) hy, neg_div]

theorem div_neg_neg (x : K) {y : K} (hy : y ≠ 0) :
    Numeric.div (-x) (-y) = Numeric.div x y := by
  rw [div_eq _ (neg_ne_zero.mpr hy), div_eq x hy, neg_div_neg_eq]

theorem close_neg (x y : K) : Numeric.close (-x) (-y) = Numeric.close x y := by
  have hgap : -x - -y = -(x - y) := by ring
  rw [Numeric.close, Numeric.close, sub_eq, sub_eq, hgap]
  simp only [bind_ok, abs_even]

namespace LinearForm

variable {f : LinearForm K}

theorem agrees_negate {x1 y1 x2 y2 : K} {found : Bool} (h : f.agrees x1 y1 x2 y2 = .ok found) :
    f.negate.agrees x1 (-y1) x2 (-y2) = .ok found := by
  have hrise : -y2 - -y1 = -(y2 - y1) := by ring
  have hfactor : f.negate.factor = -f.factor := negate_eq _
  have hvalue : f.negate.valueAt x1 = -f.valueAt x1 := by rw [valueAt_negate, negate_eq]
  rw [agrees, sub_eq, sub_eq, bind_ok, bind_ok] at h
  obtain ⟨slope, hslope, h⟩ := exists_of_bind_eq_ok h
  rw [agrees, sub_eq, sub_eq, bind_ok, bind_ok, hrise, div_neg_of_ok hslope, bind_ok, hfactor,
    close_neg, value_eq, hvalue, bind_ok, close_neg]
  rwa [value_eq, bind_ok] at h

theorem root_negate (h : Numeric.isZero f.factor = false) : f.negate.root = f.root := by
  rw [root, root, negate]
  simp only [negate_eq]
  rw [div_neg_neg _ (ne_zero_of_isZero h)]

end LinearForm

/-! ## Newton's iteration -/

namespace Newton

variable {σ : Type} {g h : K → Action σ K} {n m : Newton σ K}

theorem carries_differenceQuotient (hvalue : ∀ x, Carries Neg.neg (g x) (h x)) (x : K) :
    Carries Neg.neg (differenceQuotient g x) (differenceQuotient h x) := by
  unfold differenceQuotient
  refine carries_same fun size _ => carries_same fun width _ => ?_
  refine carries_same fun _ _ => (hvalue _).bind fun above _ => ?_
  refine carries_same fun _ _ => (hvalue _).bind fun below _ => ?_
  refine carries_ofFault fun q hq => ?_
  have hrise : -above - -below = -(above - below) := by ring
  rw [sub_eq, bind_ok] at hq ⊢
  obtain ⟨span, hspan, hq⟩ := exists_of_bind_eq_ok hq
  rw [hspan, bind_ok, hrise, div_neg_of_ok hq]

/-- Two functions whose values have opposite signs, neither with a derivative, within the same
limits, and the steps of the second one are taken notice of. -/
structure Opposes (n m : Newton σ K) : Prop where
  value : ∀ x, Carries Neg.neg (n.value x) (m.value x)
  derivative : n.derivative? = none
  otherDerivative : m.derivative? = none
  note : ∀ s, Gives (fun _ => True) (m.note s) (.ok ())
  limits : m.limits = n.limits

theorem Opposes.slopeAt (ho : n.Opposes m) (x : K) :
    Carries Neg.neg (n.slopeAt x) (m.slopeAt x) := by
  rw [Newton.slopeAt, Newton.slopeAt, ho.derivative, ho.otherDerivative]
  exact carries_differenceQuotient ho.value x

omit [Numeric K] [EvenField K] in
theorem Opposes.slopeCost (ho : n.Opposes m) : m.slopeCost = n.slopeCost := by
  rw [Newton.slopeCost, Newton.slopeCost, ho.derivative, ho.otherDerivative]

theorem Opposes.arrive (ho : n.Opposes m) {left done evaluations : Nat} {step next : K}
    (hiterate : ∀ evaluations, Carries id (n.iterate left done evaluations next)
      (m.iterate left done evaluations next)) :
    Carries id (n.arrive left done evaluations step next)
      (m.arrive left done evaluations step next) := by
  unfold Newton.arrive
  rw [ho.limits]
  refine carries_same fun finite _ => carries_ite (fun _ => carries_pure _) fun _ => ?_
  refine carries_same fun short _ => carries_ite (fun _ => ?_) fun _ => hiterate _
  refine (ho.value next).bind fun last _ => ?_
  rw [isFinite_even]
  refine carries_same fun finite _ => carries_ite (fun _ => ?_) fun _ => hiterate _
  rw [abs_even]
  exact carries_same fun size _ => carries_pure _

theorem Opposes.move (ho : n.Opposes m) {left done evaluations : Nat} {x residual : K}
    (hiterate : ∀ rest done evaluations x, left = rest + 1 →
      Carries id (n.iterate rest done evaluations x) (m.iterate rest done evaluations x)) :
    Carries id (n.move left done evaluations x residual)
      (m.move left done evaluations x (-residual)) := by
  cases left with
  | zero => exact carries_pure _
  | succ rest =>
  unfold Newton.move
  rw [ho.limits, ho.slopeCost]
  refine carries_same fun exceeded _ => carries_ite (fun _ => carries_pure _) fun _ => ?_
  refine (ho.slopeAt x).bind fun slope _ => ?_
  rw [isZero_neg, isFinite_even]
  refine carries_ite (fun _ => carries_pure _) fun hzero => ?_
  refine carries_same fun finite _ => carries_ite (fun _ => carries_pure _) fun _ => ?_
  rw [div_neg_neg _ (ne_zero_of_isZero hzero)]
  refine carries_same fun step _ => carries_same fun next _ => ?_
  refine (carries_of_gives (ho.note _) _).bind fun _ _ => ?_
  exact ho.arrive fun evaluations => hiterate rest _ evaluations next rfl

/-- By induction on the steps that are left: the estimates are the same in every round. -/
theorem Opposes.iterate (ho : n.Opposes m) (left done evaluations : Nat) (x : K) :
    Carries id (n.iterate left done evaluations x) (m.iterate left done evaluations x) := by
  induction left using Nat.strongRecOn generalizing done evaluations x with
  | ind left ih =>
      rw [iterate_eq, iterate_eq, ho.limits]
      refine (ho.value x).bind fun residual _ => ?_
      rw [isFinite_even, abs_even]
      refine carries_same fun finite _ => carries_ite (fun _ => carries_pure _) fun _ => ?_
      refine carries_same fun size _ => carries_ite (fun _ => carries_pure _) fun _ => ?_
      exact ho.move fun rest done evaluations x hrest =>
        ih rest (hrest ▸ Nat.lt_succ_self rest) done evaluations x

theorem Opposes.run (ho : n.Opposes m) (start : K) : Carries id (n.run start) (m.run start) := by
  rw [Newton.run, Newton.run, ho.limits]
  exact ho.iterate _ _ _ _

end Newton

end Even

end Reckoner
