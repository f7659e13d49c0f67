import Reckoner.Proofs.Expr.Everywhere
import Reckoner.Proofs.Program.Compilation
import Reckoner.Proofs.Scope.Override
import Reckoner.Proofs.Solve.Collection
import Reckoner.Proofs.Solve.Forms
import Reckoner.Proofs.Solve.Unknown
import Reckoner.Solve.Basic

/-!
# Linear forms of expressions

In exact arithmetic the form that is collected of an expression has the value of the expression
wherever the unknown is, by induction on the expression: a product has a factor zero on one side,
a quotient one in its divisor, whether the unknown does not occur there or has cancelled. So an
equation with a form is settled by the form: the form agrees with the equation, its root is the only
solution, and without a factor the equation does not depend on the unknown.
-/

namespace Reckoner

open Reckoner.Action ExactNumeric

variable {K : Type} [Field K] [LinearOrder K] [IsStrictOrderedRing K] [ExactNumeric K]

/-! ## Forms of expressions -/

namespace Expr

variable {bound : Table (Binding K)} {name : String}

/-- The node is no quotient whose divisor can be zero where the name is bound to a number. -/
def DividesByNonzero (bound : Table (Binding K)) (name : String) (e : Expr) : Prop :=
  ∀ l r, e = binary "/" l r → ∀ v, r.evaluate (bound.insert name (.number v)) ≠ .ok 0

/-- The expression has the values of the form where the name is bound to a number. -/
def HasForm (bound : Table (Binding K)) (name : String) (e : Expr) (form : LinearForm K) : Prop :=
  ∀ v, e.evaluate (bound.insert name (.number v)) = .ok (form.valueAt v)

/-- What is evaluated while the name is not bound is a constant. -/
theorem hasForm_of_constantFormWith (hunbound : bound.find? name = none) {e : Expr}
    {form : LinearForm K} (h : e.constantFormWith (meaning bound) = .ok form) :
    e.HasForm bound name form := by
  obtain ⟨value, rfl, hvalue⟩ := exists_value_of_constantFormWith hunbound h
  intro v
  rw [LinearForm.valueAt_ofConstant]
  exact hvalue _

theorem hasForm_of_negate {e : Expr} {f : LinearForm K} (h : e.HasForm bound name f) :
    (negate e).HasForm bound name f.negate := by
  intro v
  have he := h v
  rw [LinearForm.valueAt_negate]
  rw [evaluate_eq_outcomeWith] at he ⊢
  rw [outcomeWith, he, bind_ok]

theorem hasForm_of_combine {op : String} {l r : Expr} {f g form : LinearForm K}
    (hdivides : DividesByNonzero bound name (.binary op l r)) (hl : l.HasForm bound name f)
    (hr : r.HasForm bound name g) (h : LinearForm.combine op f g = .ok form) :
    (binary op l r).HasForm bound name form := by
  intro v
  have hleft := hl v
  have hright := hr v
  have hdivisor : op = "/" → g.valueAt v ≠ 0 := by
    rintro rfl hzero
    exact hdivides l r rfl v (hright.trans (congrArg _ hzero))
  have hcombined := LinearForm.evaluate_valueAt_of_combine hdivisor h
  rw [evaluate_eq_outcomeWith] at hleft hright ⊢
  rw [outcomeWith, hleft, bind_ok, hright, bind_ok, hcombined]
  rfl

/-- The form that is collected of an expression has the values of the expression. -/
theorem hasForm_of_formWith (hunbound : bound.find? name = none)
    (hname : Constant.isName name = false) (e : Expr) {form : LinearForm K}
    (hdivides : e.Everywhere (DividesByNonzero bound name))
    (h : e.formWith (meaning bound) name = .ok form) : e.HasForm bound name form := by
  have hunknown : (var name).HasForm bound name LinearForm.unknown := by
    intro v
    rw [LinearForm.valueAt_unknown]
    exact evaluate_var hname ((Table.find?_insert ..).trans (if_pos rfl)) (adopt_eq v)
  refine of_formWith (p := fun e form => e.Everywhere (DividesByNonzero bound name) →
    e.HasForm bound name form) (fun _ _ h _ => hasForm_of_constantFormWith hunbound h)
    (fun _ => hunknown) (fun _ _ he hdivides => hasForm_of_negate (he hdivides.2))
    (fun _ _ _ _ _ _ hl hr h hdivides => ?_) e h hdivides
  exact hasForm_of_combine hdivides.1 (hl hdivides.2.1) (hr hdivides.2.2) h

/-- `collect` finds the values of an expression in exact arithmetic. -/
theorem hasForm_of_collect {e : Expr} {bindings : Table (Binding K)} {form : LinearForm K}
    (hname : Constant.isName name = false)
    (hdivides : e.Everywhere (DividesByNonzero (bindings.without [name]) name))
    (h : e.collect (bindings.without [name]) name = .ok form) :
    e.HasForm (bindings.without [name]) name form := by
  have hunbound : (bindings.without [name]).find? name = none :=
    (Table.find?_without ..).trans (if_pos (List.mem_singleton_self name))
  rw [collect_eq_formWith] at h
  exact hasForm_of_formWith hunbound hname e hdivides h

end Expr

/-! ## Equations -/

/-- What the observer is told of forms and their roots, it takes note of without failing. -/
structure Observer.Accepts {σ : Type} (observer : Observer σ K) : Prop where
  form : ∀ f, Gives (fun _ => True) (observer.form f) (.ok ())
  root : ∀ f x, Gives (fun _ => True) (observer.root f x) (.ok ())

theorem Solve.accepts_observer (name : String) (estimate : Nat → Scalar → Estimate) :
    (Solve.observer name estimate).Accepts :=
  ⟨fun _ => gives_update fun _ h => h, fun _ _ => gives_update fun _ h => h⟩

namespace Unknown

variable {σ : Type} {u : Unknown K} {observer : Observer σ K} {form : LinearForm K}

/-- The solution that a form with a factor has. -/
def solutionOf (u : Unknown K) (form : LinearForm K) : Solution K :=
  ⟨[(u.name, -form.constant / form.factor)], .linear, 0, 0, none⟩

/-- What is said of an equation whose form has no factor. -/
def refusalOf (u : Unknown K) (form : LinearForm K) : Cause :=
  if |form.constant| < u.limits.tolerance then .infiniteSolutions else .noSolution

/-- What the linear form of an equation comes to. -/
def settledBy (u : Unknown K) (form : LinearForm K) : Except Error (Solution K) :=
  if form.factor = 0 then .error (.of (u.refusalOf form)) else .ok (u.solutionOf form)

omit [IsStrictOrderedRing K] [ExactNumeric K] in
theorem settledBy_eq_infiniteSolutions_iff : u.settledBy form = .error (.of .infiniteSolutions) ↔
    form.factor = 0 ∧ |form.constant| < u.limits.tolerance := by
  by_cases hfactor : form.factor = 0
  · by_cases hsmall : |form.constant| < u.limits.tolerance <;>
      simp [settledBy, refusalOf, hfactor, hsmall, Error.of]
  · simp [settledBy, hfactor]

omit [IsStrictOrderedRing K] [ExactNumeric K] in
theorem settledBy_eq_noSolution_iff : u.settledBy form = .error (.of .noSolution) ↔
    form.factor = 0 ∧ u.limits.tolerance ≤ |form.constant| := by
  by_cases hfactor : form.factor = 0
  · by_cases hsmall : |form.constant| < u.limits.tolerance
    · simp [settledBy, refusalOf, hfactor, hsmall, Error.of]
    · simp [settledBy, refusalOf, hfactor, not_lt.mp hsmall, Error.of]
  · simp [settledBy, hfactor]

/-- The unknown matters if the form has a factor. -/
theorem independent_iff (hvalues : ∀ v, u.residual.evaluate (u.bind v) = .ok (form.valueAt v)) :
    (∀ v w, u.residual.evaluate (u.bind v) = u.residual.evaluate (u.bind w)) ↔
      form.factor = 0 := by
  simp only [hvalues, Except.ok.injEq, LinearForm.valueAt]
  constructor
  · intro h
    simpa using h 1 0
  · intro hfactor v w
    rw [hfactor, zero_mul, zero_mul]

theorem gives_solveLinear (hobserver : observer.Accepts)
    (hcollect : u.residual.collect (u.bindings.without [u.name]) u.name = .ok form)
    {f : K → Except Error K} (hf : ∀ v, f v = .ok (form.valueAt v)) :
    Gives (fun _ => True) (u.solveLinear observer f) (u.settledBy form) := by
  refine (gives_of_eq hcollect).after ((gives_of_eq (hf _)).after ((gives_of_eq (hf _)).after ?_))
  refine (gives_ofFault form.agrees_valueAt).after ((hobserver.form form).after ?_)
  rw [settledBy, isZero_eq]
  by_cases hfactor : form.factor = 0
  · have hsmall : Newton.isSmall form.constant u.limits.tolerance =
        .ok (decide (|form.constant| < u.limits.tolerance)) := by
      rw [Newton.isSmall, ExactNumeric.abs_eq, ← less_eq]
      rfl
    rw [if_pos (decide_eq_true hfactor), if_pos hfactor, refusalOf]
    refine (gives_ofFault hsmall).after ?_
    simp only [decide_eq_true_eq]
    split
    case isTrue => exact gives_ofExcept _
    case isFalse => exact gives_ofExcept _
  · have hroot : form.valueAt (-form.constant / form.factor) = 0 :=
      (form.valueAt_eq_zero_iff hfactor _).mpr rfl
    have hsize : Numeric.abs (0 : K) = .ok 0 := by
      rw [ExactNumeric.abs_eq, abs_zero]
    rw [if_neg (by simpa using hfactor), if_neg hfactor]
    refine (gives_ofCause (form.root_eq hfactor)).after ((hobserver.root form _).after ?_)
    refine (gives_of_eq ((hf _).trans (congrArg _ hroot))).after ?_
    exact (gives_ofFault hsize).after (gives_pure _)

/-- The equation is settled by its linear form; no other way is tried. -/
theorem gives_solve (hobserver : observer.Accepts) (hvalid : u.residual.isValid = true)
    (hcollect : u.residual.collect (u.bindings.without [u.name]) u.name = .ok form)
    (hform : u.residual.HasForm (u.bindings.without [u.name]) u.name form) :
    Gives (fun _ => True) (u.solve observer) (Sum.inl <$> u.settledBy form) := by
  obtain ⟨p, hp⟩ := Program.exists_ofExpr u.codegen hvalid (hform 0)
  have hlinear : Gives (fun _ => True) (Sum.inl <$> u.solveLinear observer (u.function p))
      (Sum.inl (β := Ending K) <$> u.settledBy form) :=
    (gives_solveLinear hobserver hcollect fun v => (function_eq hp v).trans (hform v)).map
  refine (gives_of_eq hp).after ?_
  have hsettled : tryCatch (Sum.inl (β := Ending K) <$> u.settledBy form) Except.error =
      Sum.inl <$> u.settledBy form := by
    cases u.settledBy form <;> rfl
  rw [← hsettled]
  refine hlinear.tryCatch fun err herr => ?_
  -- neither refusal speaks of a form that is missing
  have hcause : err = .of (u.refusalOf form) := by
    rw [settledBy] at herr
    split at herr <;> cases herr
    rfl
  rw [hcause, refusalOf]
  by_cases hsmall : |form.constant| < u.limits.tolerance
  · rw [if_pos hsmall]
    exact gives_ofExcept _
  · rw [if_neg hsmall]
    exact gives_ofExcept _

/-- Solving an equation with a linear form, in exact arithmetic: the form has the values of the
residual, so the comparison at two points does not reject it. With a factor the root that is
answered is the one and only one, and the equation is called indefinite or contradictory exactly if
its residual does not depend on the unknown and is small or is not. -/
theorem solve_of_linear (hobserver : observer.Accepts) (hvalid : u.residual.isValid = true)
    (hname : Constant.isName u.name = false)
    (hdivides : u.residual.Everywhere (Expr.DividesByNonzero (u.bindings.without [u.name]) u.name))
    (hcollect : u.residual.collect (u.bindings.without [u.name]) u.name = .ok form) :
    (∀ v, u.residual.evaluate (u.bind v) = .ok (form.factor * v + form.constant)) ∧
    (∀ x1 x2 y1 y2, x1 = Arithmetic.number samplePoints.1 → x2 = Arithmetic.number samplePoints.2 →
      u.residual.evaluate (u.bind x1) = .ok y1 → u.residual.evaluate (u.bind x2) = .ok y2 →
      form.agrees x1 y1 x2 y2 = .ok true) ∧
    (form.factor ≠ 0 →
      (∀ s, ((u.solve observer).runFrom s).1 = .ok (.inl (u.solutionOf form))) ∧
      ∀ v, u.residual.evaluate (u.bind v) = .ok 0 ↔ v = -form.constant / form.factor) ∧
    ∀ s,
      (((u.solve observer).runFrom s).1 = .error (.of .infiniteSolutions) ↔
        (∀ v w, u.residual.evaluate (u.bind v) = u.residual.evaluate (u.bind w)) ∧
          |form.constant| < u.limits.tolerance) ∧
      (((u.solve observer).runFrom s).1 = .error (.of .noSolution) ↔
        (∀ v w, u.residual.evaluate (u.bind v) = u.residual.evaluate (u.bind w)) ∧
          u.limits.tolerance ≤ |form.constant|) := by
  have hform := Expr.hasForm_of_collect hname hdivides hcollect
  have hvalues : ∀ v, u.residual.evaluate (u.bind v) = .ok (form.valueAt v) := hform
  have hsolve : ∀ s, ((u.solve observer).runFrom s).1 = Sum.inl <$> u.settledBy form :=
    fun s => (gives_solve hobserver hvalid hcollect hform s trivial).1
  refine ⟨hform, ?_, fun hfactor => ⟨fun s => ?_, fun v => ?_⟩, fun s => ?_⟩
  · rintro x1 x2 y1 y2 rfl rfl h1 h2
    cases (hvalues _).symm.trans h1
    cases (hvalues _).symm.trans h2
    exact form.agrees_valueAt
  · rw [hsolve, settledBy, if_neg hfactor]
    rfl
  · rw [hvalues, ← form.valueAt_eq_zero_iff hfactor, Except.ok.injEq]
  · have hmap : ∀ err, (Sum.inl (β := Ending K) <$> u.settledBy form) = .error err ↔
        u.settledBy form = .error err := by
      intro err
      cases u.settledBy form <;> simp
    rw [hsolve, hmap, hmap, settledBy_eq_infiniteSolutions_iff, settledBy_eq_noSolution_iff,
      independent_iff hvalues]
    exact ⟨Iff.rfl, Iff.rfl⟩

/-- Powers with whole exponents. -/
private def wholePower (x y : ℚ) : Except Cause ℚ := .ok (x ^ y.num)

/-- Rational numbers with whole powers and without functions. -/
local instance : ExactNumeric ℚ := rationals wholePower fun f _ => .error (.unknownFunction f.name)

/-- `(x - x) * x + (2 * x - k ^ 2) / (x - x + 2)` with a known `k`: the unknown cancels in a factor
and in a divisor, and does not occur in the power. -/
private def cancelling : Unknown ℚ where
  residual :=
    let x := Expr.var "x"
    let nothing := Expr.binary "-" x x
    .binary "+" (.binary "*" nothing x)
      (.binary "/" (.binary "-" (.binary "*" (.number 2.0) x) (.binary "^" (.var "k") (.number 2.0)))
        (.binary "+" nothing (.number 2.0)))
  name := "x"
  bindings := [("k", .number 3)]
  codegen := true
  limits := ⟨1 / 1000, 1 / 1000, 50, .null⟩
  derivative? := none
  start := .ok 0

/-- Takes notice of nothing. -/
private def silent : Observer Unit ℚ where
  form _ := pure ()
  rejected _ := pure ()
  root _ _ := pure ()
  step _ := pure ()

private theorem divides_cancelling : cancelling.residual.Everywhere
    (Expr.DividesByNonzero (cancelling.bindings.without [cancelling.name]) cancelling.name) := by
  have hdivisor : ∀ v, (Expr.binary "+" (.binary "-" (.var "x") (.var "x")) (.number 2.0)).evaluate
      (cancelling.bind v) ≠ .ok 0 := by
    intro v hzero
    have hvalue : v - v + Double.exact 2.0 = 0 := Except.ok.inj hzero
    rw [Double.exact_two, sub_self] at hvalue
    norm_num at hvalue
  simpa [Expr.Everywhere, Expr.DividesByNonzero, cancelling, bind] using hdivisor

theorem solve_of_linear_cancelling :
    (∀ v, cancelling.residual.evaluate (cancelling.bind v) = .ok 0 ↔ v = 9 / 2) ∧
    ∀ s, ((cancelling.solve silent).runFrom s).1 =
      .ok (.inl ⟨[("x", 9 / 2)], .linear, 0, 0, none⟩) := by
  have hfound : (cancelling.residual.collect (cancelling.bindings.without [cancelling.name])
      cancelling.name).toOption.map (fun form => (form.factor, form.constant)) =
      some (1, -9 / 2) := by decide +kernel
  obtain ⟨form, hcollect, hparts⟩ := Option.map_eq_some_iff.mp hfound
  obtain ⟨hfactor, hconstant⟩ := Prod.mk.inj hparts
  have hroot : -form.constant / form.factor = 9 / 2 := by
    rw [hfactor, hconstant]
    norm_num
  have hsilent : silent.Accepts := ⟨fun _ => gives_pure _, fun _ _ => gives_pure _⟩
  obtain ⟨-, -, hsolved, -⟩ := solve_of_linear (u := cancelling) hsilent (by decide) (by decide)
    divides_cancelling (eq_ok_of_toOption hcollect)
  obtain ⟨hsolution, hzero⟩ := hsolved (by rw [hfactor]; norm_num)
  rw [hroot] at hzero
  refine ⟨hzero, fun s => (hsolution s).trans ?_⟩
  rw [solutionOf, hroot]
  rfl

end Unknown

end Reckoner
