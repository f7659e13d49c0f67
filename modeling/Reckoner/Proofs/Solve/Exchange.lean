import Reckoner.Proofs.Program.Compilation
import Reckoner.Proofs.Scope.Failure
import Reckoner.Proofs.Solve.Linear
import Reckoner.Proofs.Solve.Occurrence
import Reckoner.Proofs.Solve.Opposite
import Reckoner.Proofs.Solve.Unbound

/-!
# Exchanged sides

If the sides of an equation change places, every number that solving comes by on the way to an
answer has the opposite sign: the residual at each point, the linear form, the slopes. In exact
arithmetic the root of the form and the steps of the iteration are quotients of two such numbers,
and everything else depends on sizes only, so both equations have the same answers.

Errors need not be the same, since the sides are evaluated and collected in the other order. But
where the residual has a value somewhere, the other order can only refuse to collect a form because
of a place where the unknown occurs, and then the iteration is tried in both cases.
-/

namespace Reckoner

open Reckoner.Action ExactField EvenField

section Even

variable {K : Type} [Field K] [Numeric K] [EvenField K]

/-! ## Residuals -/

namespace Expr

variable {bindings : Table (Binding K)} {name : String} {l r : Expr}

theorem evaluate_exchange {y : K} (h : (binary "-" l r).evaluate bindings = .ok y) :
    (binary "-" r l).evaluate bindings = .ok (-y) := by
  have hminus (a b : K) : (Operator.evaluate "-" a b).mapError Error.of = .ok (a - b) := by
    change (Arithmetic.operate .subtract a b).mapError Error.of = _
    rw [operate_subtract]
    rfl
  rw [evaluate_eq_outcomeWith, outcomeWith] at h ⊢
  obtain ⟨a, hl, h⟩ := exists_of_bind_eq_ok h
  obtain ⟨b, hr, h⟩ := exists_of_bind_eq_ok h
  rw [hminus] at h
  cases h
  rw [hr, hl, bind_ok, bind_ok, hminus, neg_sub]

theorem collect_exchange {form : LinearForm K}
    (h : (binary "-" l r).collect bindings name = .ok form) :
    (binary "-" r l).collect bindings name = .ok form.negate := by
  have hpower : ¬("-" : String) = "^" := by decide
  rw [collect_eq_formWith, formWith, if_neg hpower] at h ⊢
  obtain ⟨f, hf, h⟩ := exists_of_bind_eq_ok h
  obtain ⟨g, hg, h⟩ := exists_of_bind_eq_ok h
  rw [LinearForm.combine_subtract] at h
  cases h
  rw [hg, hf, bind_ok, bind_ok, LinearForm.combine_subtract, LinearForm.negate, negate_eq,
    negate_eq, neg_sub, neg_sub]
  rfl

theorem isValid_exchange (h : (binary "-" l r).isValid = true) :
    (binary "-" r l).isValid = true := by
  rw [isValid_iff] at h ⊢
  exact ⟨h.1, h.2.2, h.2.1⟩

omit [Field K] [EvenField K] in
theorem isValid_of_ofExpr {e : Expr} {codegen : Bool} {p : Program K}
    (h : Program.ofExpr codegen e = .ok p) : e.isValid = true := by
  obtain ⟨_, hvalid, -⟩ := exists_of_bind_eq_ok h
  unfold validate at hvalid
  split at hvalid
  case h_1 => cases hvalid
  case h_2 hdefect => rw [isValid, hdefect]; rfl

theorem exists_ofExpr_exchange {codegen : Bool} {p : Program K} {y : K}
    (hp : Program.ofExpr codegen (binary "-" l r) = .ok p)
    (h : (binary "-" l r).evaluate bindings = .ok y) :
    ∃ q : Program K, Program.ofExpr codegen (binary "-" r l) = .ok q :=
  Program.exists_ofExpr codegen (isValid_exchange (isValid_of_ofExpr hp)) (evaluate_exchange h)

end Expr

theorem Program.run_exchange {codegen : Bool} {l r : Expr} {p q : Program K}
    (hp : ofExpr codegen (.binary "-" l r) = .ok p) (hq : ofExpr codegen (.binary "-" r l) = .ok q)
    {bindings : Table (Binding K)} {y : K} (h : p.run bindings = .ok y) :
    q.run bindings = .ok (-y) := by
  rw [run_of_ofExpr hp] at h
  rw [run_of_ofExpr hq]
  exact Expr.evaluate_exchange h

/-! ## Numeric bindings -/

/-- All that is bound is a number. -/
def AreNumeric {α : Type} (bindings : Table (Binding α)) : Prop :=
  ∀ name binding, bindings.find? name = some binding → ∃ x, binding = .number x

theorem AreNumeric.without {α : Type} {bindings : Table (Binding α)} (h : AreNumeric bindings)
    (names : List String) : AreNumeric (bindings.without names) := by
  intro name binding hfind
  rw [Table.find?_without] at hfind
  split at hfind
  case isTrue => cases hfind
  case isFalse => exact h name binding hfind

theorem AreNumeric.insert {α : Type} {bindings : Table (Binding α)} (h : AreNumeric bindings)
    (name : String) (x : α) : AreNumeric (bindings.insert name (.number x)) := by
  intro other binding hfind
  rw [Table.find?_insert] at hfind
  split at hfind
  case isTrue => cases hfind; exact ⟨x, rfl⟩
  case isFalse => exact h other binding hfind

theorem AreNumeric.meaning_insert {α : Type} [Arithmetic α] {bindings : Table (Binding α)}
    (h : AreNumeric bindings) {name other : String} (hne : other ≠ name) (binding : Binding α) :
    meaning (bindings.insert name binding) other = meaning bindings other := by
  have hfind : (bindings.insert name binding).find? other = bindings.find? other := by
    rw [Table.find?_insert, if_neg fun heq => hne heq.symm]
  cases hfound : bindings.find? other with
  | none =>
      exact (meaningWithin_none (hfind.trans hfound) _ _).trans (meaningWithin_none hfound _ _).symm
  | some found =>
      obtain ⟨x, rfl⟩ := h other found hfound
      exact (meaningWithin_number (hfind.trans hfound) _ _).trans
        (meaningWithin_number hfound _ _).symm

/-- Where an expression has a value with the unknown bound to whatever it may be, its form is
refused for nothing but the places where the unknown occurs. -/
theorem Expr.failsOnly_collect_of_value {bindings : Table (Binding K)}
    (hnumeric : AreNumeric bindings) {name : String} {binding : Binding K} {e : Expr} {y : K}
    (h : e.evaluate (bindings.insert name binding) = .ok y) :
    FailsOnly Error.IsNonlinear (e.collect bindings name) := by
  rw [collect_eq_formWith]
  rw [evaluate_eq_outcomeWith] at h
  obtain ⟨w, hw⟩ : ∃ w, ∀ v,
      (var name).outcomeWith (meaning (bindings.insert name binding)) = .ok v → v = w := by
    cases (var name).outcomeWith (meaning (bindings.insert name binding)) with
    | error => exact ⟨0, fun _ hv => by cases hv⟩
    | ok w => exact ⟨w, fun _ hv => by cases hv; rfl⟩
  exact (meets_formWith_of_value operate_divide_zero
    (fun other hne => hnumeric.meaning_insert hne binding) hw e h).failsOnly

/-- No node of an expression fails as collecting a linear form does. -/
theorem evaluationFailsOnly_isFinal : EvaluationFailsOnly K Error.IsFinal where
  nodes := {
    constant := fun _ _ h => by cases h
    operator := fun op a b => by
      refine FailsOnly.mapError ?_
      unfold Operator.evaluate
      split
      case h_1 known _ => exact operate_final known a b
      case h_2 => exact failsOnly_error fun _ h => by cases h
    call := fun name values => by
      refine FailsOnly.mapError ?_
      unfold Function.evaluateNamed Function.evaluate
      split
      case h_2 => exact failsOnly_error fun _ h => by cases h
      case h_1 known _ =>
          split
          case isTrue => exact apply_final known values
          case isFalse => exact failsOnly_error fun _ h => by cases h
    blank := fun _ h => by cases h
    foreign := fun _ _ h => by cases h }
  adopt value := by
    rw [adopt_eq]
    exact failsOnly_ok value
  undefined _ _ h := by cases h
  circular _ _ h := by cases h

theorem AreNumeric.isFinal_evaluate {bindings : Table (Binding K)} (h : AreNumeric bindings)
    (e : Expr) : FailsOnly Error.IsFinal (e.evaluate bindings) := by
  refine evaluationFailsOnly_isFinal.failsOnly_evaluate (fun name binding hfind => ?_) e
  obtain ⟨x, rfl⟩ := h name binding hfind
  exact failsOnly_error fun _ h => by cases h

/-! ## Linear forms of equations -/

/-- The form agrees with the values of a function at the points where they are compared. -/
def LinearForm.fits {α : Type} [Numeric α] (form : LinearForm α) (f : α → Except Error α) :
    Except Error Bool := do
  let x1 : α := Arithmetic.number Unknown.samplePoints.1
  let x2 : α := Arithmetic.number Unknown.samplePoints.2
  let y1 ← f x1
  let y2 ← f x2
  (form.agrees x1 y1 x2 y2).mapError Fault.toError

section Functions

variable {f g : K → Except Error K} {form : LinearForm K}

theorem LinearForm.fits_negate (hvalue : ∀ x y, f x = .ok y → g x = .ok (-y)) {found : Bool}
    (h : form.fits f = .ok found) : form.negate.fits g = .ok found := by
  obtain ⟨y1, hy1, h⟩ := exists_of_bind_eq_ok h
  obtain ⟨y2, hy2, h⟩ := exists_of_bind_eq_ok h
  have hagrees := agrees_negate (mapError_eq_ok h)
  rw [fits, hvalue _ _ hy1, bind_ok, hvalue _ _ hy2, bind_ok, hagrees]
  rfl

omit [Field K] [EvenField K] in
theorem LinearForm.failsOnly_fits (hfinal : ∀ x, FailsOnly Error.IsFinal (f x)) :
    FailsOnly Error.IsFinal (form.fits f) :=
  (hfinal _).bind fun _ _ => (hfinal _).bind fun _ _ =>
    FailsOnly.mapError fun fault _ why h => by cases h

end Functions

namespace Unknown

section Parts

variable {σ α : Type} [Numeric α]

/-- The linear form of the equation, if it agrees with the equation where they are compared. -/
def confirmed (u : Unknown α) (f : α → Except Error α) : Except Error (LinearForm α) := do
  let form ← u.residual.collect (u.bindings.without [u.name]) u.name
  if !(← form.fits f) then .error (.of (.nonlinear .sampleMismatch)) else .ok form

/-- The solution of a linear form that agrees with the equation. -/
def solveForm (u : Unknown α) (observer : Observer σ α) (f : α → Except Error α)
    (form : LinearForm α) : Action σ (Solution α) := do
  observer.form form
  if Numeric.isZero form.factor then
    if ← Action.ofFault (Newton.isSmall form.constant u.limits.tolerance) then
      Action.fail .infiniteSolutions
    else Action.fail .noSolution
  else do
    let x ← Action.ofCause form.root
    observer.root form x
    let residual ← Action.ofExcept (f x)
    return ⟨[(u.name, x)], .linear, 0, ← Action.ofFault (Numeric.abs residual), none⟩

theorem solveLinear_eq (u : Unknown α) (observer : Observer σ α) (f : α → Except Error α) :
    u.solveLinear observer f =
      Action.ofExcept (u.confirmed f) >>= fun form => u.solveForm observer f form := by
  simp only [solveLinear, confirmed, LinearForm.fits, ofExcept_bind, bind_assoc]
  refine bind_congr fun form => bind_congr fun y1 => bind_congr fun y2 => bind_congr fun fits => ?_
  cases fits <;> rfl

/-- The equation with another difference of sides. -/
def withResidual (u : Unknown α) (residual : Expr) : Unknown α := { u with residual := residual }

end Parts

variable {σ : Type} {u : Unknown K} {observer : Observer σ K} {l r : Expr}
  {f g : K → Except Error K} {form : LinearForm K}

theorem confirmed_exchange (hresidual : u.residual = .binary "-" l r)
    (hvalue : ∀ x y, f x = .ok y → g x = .ok (-y)) (h : u.confirmed f = .ok form) :
    (u.withResidual (.binary "-" r l)).confirmed g = .ok form.negate := by
  obtain ⟨found, hfound, h⟩ := exists_of_bind_eq_ok h
  obtain ⟨fits, hfits, h⟩ := exists_of_bind_eq_ok h
  rw [hresidual] at hfound
  cases fits with
  | false => cases h
  | true =>
      cases h
      unfold confirmed withResidual
      dsimp only
      rw [Expr.collect_exchange hfound, bind_ok, LinearForm.fits_negate hvalue hfits]
      rfl

/-- If there is no linear form, there is none for the exchanged sides either, as long as the
residual has a value somewhere. -/
theorem confirmed_refuses (hresidual : u.residual = .binary "-" l r)
    (hnumeric : AreNumeric u.bindings)
    (hvalue : ∀ x y, f x = .ok y → g x = .ok (-y)) (hfinal : ∀ x, FailsOnly Error.IsFinal (f x))
    {binding : Binding K} {y : K}
    (hy : u.residual.evaluate ((u.bindings.without [u.name]).insert u.name binding) = .ok y)
    {err : Error} (h : u.confirmed f = .error err) (hnonlinear : err.IsNonlinear) :
    ∃ other, (u.withResidual (.binary "-" r l)).confirmed g = .error other ∧
      other.IsNonlinear := by
  obtain ⟨why, hwhy⟩ := hnonlinear
  unfold confirmed at h ⊢
  rw [hresidual] at h hy
  unfold withResidual
  dsimp only
  cases hfound : (Expr.binary "-" l r).collect (u.bindings.without [u.name]) u.name with
  | error =>
      -- a form of the exchanged sides would be one of the sides as they are
      cases hother : (Expr.binary "-" r l).collect (u.bindings.without [u.name]) u.name with
      | ok =>
          rw [Expr.collect_exchange hother] at hfound
          cases hfound
      | error other =>
          exact ⟨other, rfl, Expr.failsOnly_collect_of_value (hnumeric.without _)
            (Expr.evaluate_exchange hy) other hother⟩
  | ok form =>
      rw [hfound, bind_ok] at h
      rw [Expr.collect_exchange hfound, bind_ok]
      cases hfits : form.fits f with
      | error =>
          rw [hfits] at h
          cases h
          exact absurd hwhy (LinearForm.failsOnly_fits hfinal err hfits why)
      | ok fits =>
          rw [hfits] at h
          rw [LinearForm.fits_negate hvalue hfits]
          cases fits with
          | true => cases h
          | false => exact ⟨_, rfl, _, rfl⟩

theorem carries_solveForm (hobserver : observer.Accepts)
    (hvalue : ∀ x y, f x = .ok y → g x = .ok (-y)) (form : LinearForm K) (residual : Expr) :
    Carries id (u.solveForm observer f form)
      ((u.withResidual residual).solveForm observer g form.negate) := by
  have hfactor : Numeric.isZero form.negate.factor = Numeric.isZero form.factor := by
    rw [LinearForm.negate, negate_eq, isZero_neg]
  unfold solveForm
  refine (carries_of_gives (hobserver.form _) _).bind fun _ _ => ?_
  rw [hfactor]
  refine carries_ite (fun _ => ?_) fun hzero => ?_
  · refine carries_of_not_returns fun v hv => ?_
    obtain ⟨small, -, hv⟩ := exists_of_returns_bind hv
    cases small <;> exact not_returns_fail hv
  · rw [LinearForm.root_negate hzero]
    refine carries_same fun x _ => (carries_of_gives (hobserver.root _ _) _).bind fun _ _ => ?_
    refine Carries.bind (carries_ofExcept (hvalue x)) fun residual _ => ?_
    rw [abs_even]
    exact carries_same fun size _ => carries_pure _

theorem errs_of_gives {p : Error → Prop} {a : Action σ Unit}
    (h : Gives (fun _ => True) a (.ok ())) : Errs p a := h.ends trivial

theorem errs_solveForm (hobserver : observer.Accepts) (hfinal : ∀ x, FailsOnly Error.IsFinal (f x))
    (form : LinearForm K) : Errs Error.IsFinal (u.solveForm observer f form) := by
  have hfault {β : Type} (outcome : Except Fault β) :
      Errs Error.IsFinal (Action.ofFault outcome : Action σ β) :=
    errs_ofExcept (FailsOnly.mapError fun fault _ why h => by cases h)
  unfold solveForm
  refine (errs_of_gives (hobserver.form form)).andThen fun _ => ?_
  split
  case isTrue =>
      refine (hfault _).andThen fun small => ?_
      split <;> exact ends_fail fun why h => by cases h
  case isFalse =>
      have hroot : FailsOnly (fun cause => (Error.of cause).IsFinal) form.root := by
        refine FailsOnly.bind (FailsOnly.mapError fun fault _ why h => by cases h) fun x _ => ?_
        rw [adopt_eq]
        exact failsOnly_ok x
      refine (errs_ofCause hroot).andThen fun x => ?_
      refine (errs_of_gives (hobserver.root form x)).andThen fun _ => ?_
      refine (errs_ofExcept (hfinal x)).andThen fun residual => ?_
      exact (hfault _).andThen fun size => errs_pure _

/-! ## Both ways to solve an equation -/

section Ways

variable {β : Type} {a b : Action σ β} {other another : String → Action σ β}

theorem carries_orElseNonlinear (ha : Errs Error.IsFinal a) (h : Carries id a b) :
    Carries id (orElseNonlinear a other) (orElseNonlinear b another) := by
  have hanswer {s : σ} {v : β} (hv : ((orElseNonlinear a other).runFrom s).1 = .ok v) :
      Returns a v := by
    have hmeets := (ha s trivial).2
    rw [orElseNonlinear, runFrom_tryCatch] at hv
    cases hrun : a.runFrom s with
    | mk found t =>
        rw [hrun] at hv hmeets
        cases found with
        | ok w => exact ⟨s, by rw [hrun]; exact hv⟩
        | error err =>
            dsimp only at hv
            split at hv
            case h_1 why hwhy => exact absurd hwhy (hmeets why)
            case h_2 => cases hv
  rintro v ⟨s, hv⟩ t
  have hb := h v (hanswer hv) t
  rw [orElseNonlinear, runFrom_tryCatch]
  cases hrun : b.runFrom t with
  | mk found s =>
      rw [hrun] at hb
      cases hb
      rfl

theorem exists_orElseNonlinear {err : Error} (h : err.IsNonlinear) :
    ∃ message, ∀ other : String → Action σ β,
      orElseNonlinear (Action.ofExcept (.error err)) other = other message := by
  obtain ⟨why, hwhy⟩ := h
  refine ⟨why.message, fun other => ?_⟩
  rw [orElseNonlinear, tryCatch_ofExcept_error]
  split
  case h_1 found hfound => cases hwhy.symm.trans hfound; rfl
  case h_2 hnot => exact absurd hwhy (hnot why)

end Ways

section Programs

variable {α β : Type} [Numeric α] {u : Unknown α} {observer : Observer σ α} {p : Program α}
  {other : Program α → Action σ β}

theorem solveOr_of_ofExpr (hp : Program.ofExpr u.codegen u.residual = .ok p) :
    u.solveOr observer other = orElseNonlinear
      (Sum.inl <$> (Action.ofExcept (u.confirmed (u.function p)) >>= fun form =>
        u.solveForm observer (u.function p) form))
      (fun why => do
        observer.rejected why
        Sum.inr <$> other p) := by
  rw [solveOr, hp, ofExcept_ok_bind, solveLinear_eq]

theorem solveOr_of_confirmed (hp : Program.ofExpr u.codegen u.residual = .ok p)
    {form : LinearForm α} (h : u.confirmed (u.function p) = .ok form) :
    u.solveOr observer other = orElseNonlinear
      (Sum.inl <$> u.solveForm observer (u.function p) form)
      (fun why => do
        observer.rejected why
        Sum.inr <$> other p) := by
  rw [solveOr_of_ofExpr hp, h, ofExcept_ok_bind]

theorem exists_solveOr_of_refused (hp : Program.ofExpr u.codegen u.residual = .ok p) {err : Error}
    (h : u.confirmed (u.function p) = .error err) (hnonlinear : err.IsNonlinear) :
    ∃ message, u.solveOr observer other = (do
      observer.rejected message
      Sum.inr <$> other p) := by
  obtain ⟨message, hmessage⟩ := exists_orElseNonlinear (σ := σ) (β := Solution α ⊕ β) hnonlinear
  refine ⟨message, ?_⟩
  rw [solveOr_of_ofExpr hp, h]
  exact hmessage _

theorem solveOr_of_isFinal (hp : Program.ofExpr u.codegen u.residual = .ok p) {err : Error}
    (h : u.confirmed (u.function p) = .error err) (hfinal : err.IsFinal) :
    u.solveOr observer other = Action.ofExcept (.error err) := by
  rw [solveOr_of_ofExpr hp, h]
  exact orElseNonlinear_of_error hfinal

end Programs

end Unknown

/-- The observer takes notice of everything. -/
structure Observer.AcceptsAll {σ : Type} (observer : Observer σ K) : Prop extends
    observer.Accepts where
  rejected : ∀ why, Gives (fun _ => True) (observer.rejected why) (.ok ())
  step : ∀ s, Gives (fun _ => True) (observer.step s) (.ok ())

namespace Unknown

variable {σ β : Type} {u : Unknown K} {observer : Observer σ K} {l r : Expr} {p : Program K}

theorem function_exchange (hresidual : u.residual = .binary "-" l r)
    (hp : Program.ofExpr u.codegen u.residual = .ok p) {q : Program K}
    (hq : Program.ofExpr u.codegen (.binary "-" r l) = .ok q) (x y : K)
    (h : u.function p x = .ok y) : (u.withResidual (.binary "-" r l)).function q x = .ok (-y) := by
  rw [hresidual] at hp
  exact Program.run_exchange hp hq h

theorem exists_program_exchange (hresidual : u.residual = .binary "-" l r)
    (hp : Program.ofExpr u.codegen u.residual = .ok p) {bindings : Table (Binding K)} {y : K}
    (hy : u.residual.evaluate bindings = .ok y) :
    ∃ q : Program K, Program.ofExpr u.codegen (.binary "-" r l) = .ok q := by
  rw [hresidual] at hp hy
  exact Expr.exists_ofExpr_exchange hp hy

theorem carries_solveOr_of_form {other another : Program K → Action σ β}
    (hobserver : observer.Accepts) (hresidual : u.residual = .binary "-" l r)
    (hp : Program.ofExpr u.codegen u.residual = .ok p)
    (hfinal : ∀ x, FailsOnly Error.IsFinal (u.function p x)) {form : LinearForm K}
    (hconfirmed : u.confirmed (u.function p) = .ok form) :
    Carries id (u.solveOr observer other)
      ((u.withResidual (.binary "-" r l)).solveOr observer another) := by
  -- the form is only confirmed where the residual has values, so the other order has a program
  obtain ⟨_, -, hrest⟩ := exists_of_bind_eq_ok hconfirmed
  obtain ⟨_, hfits, -⟩ := exists_of_bind_eq_ok hrest
  obtain ⟨y, hy, -⟩ := exists_of_bind_eq_ok hfits
  rw [function_eq hp] at hy
  obtain ⟨q, hq⟩ := exists_program_exchange hresidual hp hy
  have hvalue := function_exchange hresidual hp hq
  have hexchanged := confirmed_exchange hresidual hvalue hconfirmed
  have hforms : Carries id (u.solveForm observer (u.function p) form)
      ((u.withResidual (.binary "-" r l)).solveForm observer
        ((u.withResidual (.binary "-" r l)).function q) form.negate) :=
    carries_solveForm hobserver hvalue form _
  have herrs : Errs Error.IsFinal (Sum.inl (β := β) <$>
      u.solveForm observer (u.function p) form) :=
    (errs_solveForm hobserver hfinal form).map fun _ _ => trivial
  rw [solveOr_of_confirmed hp hconfirmed, solveOr_of_confirmed hq hexchanged]
  exact carries_orElseNonlinear herrs (hforms.map Sum.inl)

theorem carries_solveOr_of_refused {other another : Program K → Action σ β}
    (hobserver : observer.AcceptsAll) (hnumeric : AreNumeric u.bindings)
    (hresidual : u.residual = .binary "-" l r)
    (hp : Program.ofExpr u.codegen u.residual = .ok p)
    (hfinal : ∀ x, FailsOnly Error.IsFinal (u.function p x))
    (hplace : ∀ answer, Returns (other p) answer → ∃ binding y,
      u.residual.evaluate ((u.bindings.without [u.name]).insert u.name binding) = .ok y)
    (hother : ∀ q, Program.ofExpr u.codegen (.binary "-" r l) = .ok q →
      Carries id (other p) (another q))
    {err : Error} (hconfirmed : u.confirmed (u.function p) = .error err)
    (hnonlinear : err.IsNonlinear) :
    Carries id (u.solveOr observer other)
      ((u.withResidual (.binary "-" r l)).solveOr observer another) := by
  intro answer h t
  obtain ⟨message, hrefused⟩ : ∃ message, u.solveOr observer other = (do
      observer.rejected message
      Sum.inr <$> other p) := exists_solveOr_of_refused hp hconfirmed hnonlinear
  rw [hrefused] at h
  obtain ⟨_, -, hanswer⟩ := exists_of_returns_bind h
  obtain ⟨found, hfound, -⟩ := exists_of_returns_map hanswer
  obtain ⟨binding, y, hy⟩ := hplace found hfound
  obtain ⟨q, hq⟩ := exists_program_exchange hresidual hp hy
  have hvalue := function_exchange hresidual hp hq
  obtain ⟨refusal, hrefusal, hexchanged⟩ :=
    confirmed_refuses hresidual hnumeric hvalue hfinal hy hconfirmed hnonlinear
  obtain ⟨text, htext⟩ : ∃ text,
      (u.withResidual (.binary "-" r l)).solveOr observer another = (do
        observer.rejected text
        Sum.inr <$> another q) := exists_solveOr_of_refused hq hrefusal hexchanged
  rw [htext]
  exact (carries_of_gives (hobserver.rejected text) _).bind
    (fun _ _ => (hother q hq).map Sum.inr) answer h t

/-- Solving for exchanged sides answers as before if the other way does, provided that the other way
evaluates the residual somewhere. -/
theorem carries_solveOr {other another : Program K → Action σ β}
    (hobserver : observer.AcceptsAll) (hnumeric : AreNumeric u.bindings)
    (hresidual : u.residual = .binary "-" l r)
    (hplace : ∀ p answer, Program.ofExpr u.codegen u.residual = .ok p → Returns (other p) answer →
      ∃ binding y,
        u.residual.evaluate ((u.bindings.without [u.name]).insert u.name binding) = .ok y)
    (hother : ∀ p q, Program.ofExpr u.codegen u.residual = .ok p →
      Program.ofExpr u.codegen (.binary "-" r l) = .ok q → Carries id (other p) (another q)) :
    Carries id (u.solveOr observer other)
      ((u.withResidual (.binary "-" r l)).solveOr observer another) := by
  intro answer h
  obtain ⟨p, hp, -⟩ := exists_of_returns_bind h
  replace hp := ok_of_returns hp
  have hfinal (x : K) : FailsOnly Error.IsFinal (u.function p x) := by
    rw [function_eq hp]
    exact ((hnumeric.without _).insert _ x).isFinal_evaluate _
  cases hconfirmed : u.confirmed (u.function p) with
  | ok form =>
      exact carries_solveOr_of_form hobserver.toAccepts hresidual hp hfinal hconfirmed answer h
  | error err =>
      by_cases hnonlinear : err.IsNonlinear
      · exact carries_solveOr_of_refused hobserver hnumeric hresidual hp hfinal
          (fun found => hplace p found hp) (fun q => hother p q hp) hconfirmed hnonlinear answer h
      · rw [solveOr_of_isFinal hp hconfirmed fun why hwhy => hnonlinear ⟨why, hwhy⟩] at h
        cases ok_of_returns h

/-! ## The iteration -/

theorem carries_solveNewton (hobserver : observer.AcceptsAll) (hderivative : u.derivative? = none)
    {residual : Expr} {q : Program K}
    (hvalue : ∀ x y, u.function p x = .ok y → (u.withResidual residual).function q x = .ok (-y)) :
    Carries id (u.solveNewton observer p) ((u.withResidual residual).solveNewton observer q) := by
  have hprogram : u.derivativeProgram = .ok none := by rw [derivativeProgram, hderivative]
  have hexchanged : (u.withResidual residual).derivativeProgram = .ok none := hprogram
  rw [solveNewton, solveNewton, hprogram, hexchanged, ofExcept_ok_bind, ofExcept_ok_bind]
  refine carries_same fun start _ => Newton.Opposes.run ?_ start
  exact {
    value := fun x => carries_ofExcept (hvalue x)
    derivative := rfl
    otherDerivative := rfl
    note := hobserver.step
    limits := rfl }

omit [Field K] [EvenField K] in
theorem exists_value_of_solveNewton {ending : Ending K}
    (h : Returns (u.solveNewton observer p) ending) : ∃ x y, u.function p x = .ok y := by
  obtain ⟨_, -, h⟩ := exists_of_returns_bind h
  obtain ⟨start, -, h⟩ := exists_of_returns_bind h
  rw [Newton.run, Newton.iterate_eq] at h
  obtain ⟨y, hy, -⟩ := exists_of_returns_bind h
  exact ⟨start, y, ok_of_returns hy⟩

/-- An equation with exchanged sides has the same solution by a linear form, or the same end of the
iteration. -/
theorem carries_solve (hobserver : observer.AcceptsAll) (hnumeric : AreNumeric u.bindings)
    (hderivative : u.derivative? = none) (hresidual : u.residual = .binary "-" l r) :
    Carries id (u.solve observer) ((u.withResidual (.binary "-" r l)).solve observer) := by
  refine carries_solveOr hobserver hnumeric hresidual (fun p ending hp hending => ?_)
    fun p q hp hq => carries_solveNewton hobserver hderivative (function_exchange hresidual hp hq)
  obtain ⟨x, y, hy⟩ := exists_value_of_solveNewton hending
  rw [function_eq hp] at hy
  exact ⟨.number x, y, hy⟩

end Unknown

end Even

end Reckoner
