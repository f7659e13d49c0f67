import Reckoner.Proofs.Scope.Failure
import Reckoner.Proofs.Solve.Accidents
import Reckoner.Proofs.Solve.Collection
import Reckoner.Proofs.Solve.Errors
import Reckoner.Proofs.Solve.Together

/-!
# Reports of solving

What solving reports does not depend on what has been reported before. An equation in one unknown
reports its linear form and the root, or that there is no form and then the steps of the iteration;
if the value at the root cannot be found, no other way is tried. What is reported are numbers made
of doubles, but for a whole number as the first estimate.
-/

namespace Reckoner

open Reckoner.Action

/-! ## Reports -/

namespace Solving

variable {β γ : Type} {R : Except Error β → List SolveEvent → Prop}
  {S : Except Error γ → List SolveEvent → Prop}

/-- The computation has one outcome and reports the same events whatever has been reported before,
and the relation holds of them. -/
def Reports (R : Except Error β → List SolveEvent → Prop) (a : Solving β) : Prop :=
  ∃ outcome events, R outcome events ∧ ∀ past, a.runFrom past = (outcome, events.reverse ++ past)

theorem Reports.run {a : Solving β} (h : Reports R a) : R a.run.1 a.run.2 := by
  obtain ⟨outcome, events, hR, hrun⟩ := h
  rw [Solving.run, hrun]
  simpa using hR

theorem Reports.mono {P : Except Error β → List SolveEvent → Prop} {a : Solving β}
    (h : Reports P a) (hR : ∀ outcome events, P outcome events → R outcome events) :
    Reports R a := by
  obtain ⟨outcome, events, hP, hrun⟩ := h
  exact ⟨outcome, events, hR outcome events hP, hrun⟩

theorem reports_ofExcept {outcome : Except Error β} (h : R outcome []) :
    Reports R (Action.ofExcept outcome) := ⟨outcome, [], h, fun _ => rfl⟩

theorem reports_pure {v : β} (h : R (.ok v) []) : Reports R (pure v) := reports_ofExcept h

/-- What comes behind an answer is reported behind the events that led to the answer. -/
theorem Reports.bind {P : Except Error β → List SolveEvent → Prop} {a : Solving β}
    {f : β → Solving γ} (h : Reports P a)
    (hok : ∀ v events, P (.ok v) events →
      Reports (fun outcome more => S outcome (events ++ more)) (f v))
    (herror : ∀ err events, P (.error err) events → S (.error err) events) :
    Reports S (a >>= f) := by
  obtain ⟨outcome, events, hP, hrun⟩ := h
  cases outcome with
  | error err =>
      refine ⟨.error err, events, herror err events hP, fun past => ?_⟩
      rw [runFrom_bind, hrun]
  | ok v =>
      obtain ⟨final, more, hS, hmore⟩ := hok v events hP
      refine ⟨final, events ++ more, hS, fun past => ?_⟩
      rw [runFrom_bind, hrun]
      simp [hmore]

theorem reports_ofExcept_bind {outcome : Except Error β} {f : β → Solving γ}
    (herror : FailsOnly (fun err => S (.error err) []) outcome)
    (hok : ∀ v, outcome = .ok v → Reports S (f v)) :
    Reports S (Action.ofExcept outcome >>= f) := by
  cases outcome with
  | error err => exact reports_ofExcept (herror err rfl)
  | ok v => exact hok v rfl

theorem reports_report_bind {event : SolveEvent} {f : Unit → Solving γ}
    (h : Reports (fun outcome more => S outcome (event :: more)) (f ())) :
    Reports S (report event >>= f) := by
  obtain ⟨outcome, more, hS, hmore⟩ := h
  refine ⟨outcome, event :: more, hS, fun past => ?_⟩
  have hreport : (report event).runFrom past = (.ok (), event :: past) := rfl
  rw [runFrom_bind, hreport]
  simp [hmore]

/-- What comes of the outcome alone reports nothing further. -/
theorem Reports.bind_ofExcept {P : Except Error β → List SolveEvent → Prop} {a : Solving β}
    {f : β → Solving γ} {g : β → Except Error γ} (h : Reports P a)
    (hf : ∀ v, f v = Action.ofExcept (g v))
    (hS : ∀ outcome events, P outcome events → S (outcome >>= g) events) :
    Reports S (a >>= f) := by
  refine h.bind (fun v events hv => ?_) fun err events herr => hS _ _ herr
  rw [hf]
  refine reports_ofExcept ?_
  rw [List.append_nil]
  exact hS _ _ hv

theorem Reports.map {P : Except Error β → List SolveEvent → Prop} {a : Solving β} {f : β → γ}
    (h : Reports P a) (hS : ∀ outcome events, P outcome events → S (f <$> outcome) events) :
    Reports S (f <$> a) := by
  rw [← bind_pure_comp]
  refine h.bind_ofExcept (fun _ => rfl) fun outcome events hP => ?_
  have hmap := hS outcome events hP
  rwa [← bind_pure_comp] at hmap

/-- Another way is reported behind the events of the first one. -/
theorem Reports.tryCatch {P : Except Error β → List SolveEvent → Prop} {a : Solving β}
    {handle : Error → Solving β} (h : Reports P a)
    (hok : ∀ v events, P (.ok v) events → R (.ok v) events)
    (herror : ∀ err events, P (.error err) events →
      Reports (fun outcome more => R outcome (events ++ more)) (handle err)) :
    Reports R (tryCatch a handle) := by
  obtain ⟨outcome, events, hP, hrun⟩ := h
  cases outcome with
  | ok v =>
      refine ⟨.ok v, events, hok v events hP, fun past => ?_⟩
      rw [runFrom_tryCatch, hrun]
  | error err =>
      obtain ⟨final, more, hR, hmore⟩ := herror err events hP
      refine ⟨final, events ++ more, hR, fun past => ?_⟩
      rw [runFrom_tryCatch, hrun]
      simp [hmore]

theorem Reports.within {a : Solving β} {text : String}
    (h : Reports (fun outcome events => R (outcome.mapError (·.within text)) events) a) :
    Reports R (within text a) := by
  obtain ⟨outcome, events, hR, hrun⟩ := h
  refine ⟨_, events, hR, fun past => ?_⟩
  change ((a.runFrom past).1.mapError _, (a.runFrom past).2) = _
  rw [hrun]

/-- A row of steps that are reported one after the other, and an outcome. -/
theorem reports_forM {α : Type} {steps : List α} {event : α → SolveEvent}
    {outcome : Except Error β} (h : R outcome (steps.map event)) :
    Reports R (do forM steps fun s => report (event s); Action.ofExcept outcome) := by
  induction steps generalizing R with
  | nil => exact reports_ofExcept h
  | cons s steps ih =>
      rw [List.forM_cons, bind_assoc]
      exact reports_report_bind (ih h)

end Solving

/-! ## Errors that are final -/

theorem isFinal_of_isOfEvaluation {err : Error} (h : err.IsOfEvaluation) : err.IsFinal := by
  intro why hcause
  rw [Error.IsOfEvaluation, hcause] at h
  cases h with
  | node hnode => exact hnode
  | syntactic hkind => rcases hkind with h | h <;> cases h

theorem isFinal_fault (fault : Fault) : fault.toError.IsFinal :=
  isFinal_of_isOfEvaluation (.node trivial : (Cause.arithmetic fault).IsOfEvaluation)

theorem LinearForm.isFinal_root (f : LinearForm Scalar) :
    FailsOnly (fun cause => (Error.of cause).IsFinal) f.root := by
  unfold root
  refine FailsOnly.bind (FailsOnly.mapError fun fault _ => isFinal_fault fault) fun x _ => ?_
  exact Scalar.failsOnly_faulty isFinal_fault _

/-! ## One equation -/

namespace Unknown

open Solving

variable {u : Unknown Scalar} {estimate : Nat → Scalar → Estimate} {β : Type}

/-- The root of a form of doubles that has a factor. -/
structure IsRoot (form : LinearForm Scalar) (x : Scalar) : Prop where
  floating : form.IsFloating
  factor : form.factor.isZero = false
  root : form.root = .ok x

theorem IsRoot.isFloating {form : LinearForm Scalar} {x : Scalar} (h : IsRoot form x) :
    x.IsFloating := by
  have hmeets : Meets Scalar.IsFloating (Cause.IsCodedOr fun _ => True) form.root :=
    LinearForm.meets_root h.floating h.factor
  rwa [h.root] at hmeets

/-- What solving by a linear form reports, by its outcome: a form that agrees with the equation, and
the root. -/
inductive ReportsForm (name : String) : Except Error (Solution Scalar) → List SolveEvent → Prop
  | missing (err : Error) : ReportsForm name (.error err) []
  | indefinite {form : LinearForm Scalar} {err : Error} (final : err.IsFinal) :
    ReportsForm name (.error err) [.form name form]
  | failed {form : LinearForm Scalar} {x : Scalar} {err : Error} (root : IsRoot form x)
      (final : err.IsFinal) : ReportsForm name (.error err) [.form name form, .root name form x]
  | solved {form : LinearForm Scalar} {x size : Scalar} (root : IsRoot form x) :
    ReportsForm name (.ok ⟨[(name, x)], .linear, 0, size, none⟩)
      [.form name form, .root name form x]

theorem reports_solveLinear {f : Scalar → Except Error Scalar}
    (hf : ∀ x, FailsOnly Error.IsFinal (f x)) :
    Reports (ReportsForm u.name) (u.solveLinear (Solve.observer u.name estimate) f) := by
  have hmissing {γ : Type} (outcome : Except Error γ) :
      FailsOnly (fun err => ReportsForm u.name (.error err) []) outcome :=
    fun err _ => .missing err
  have hfault {γ : Type} (outcome : Except Fault γ) :
      FailsOnly Error.IsFinal (outcome.mapError Fault.toError) :=
    FailsOnly.mapError fun fault _ => isFinal_fault fault
  unfold solveLinear
  refine reports_ofExcept_bind (hmissing _) fun form hform => ?_
  refine reports_ofExcept_bind (hmissing _) fun y1 _ => ?_
  refine reports_ofExcept_bind (hmissing _) fun y2 _ => ?_
  refine reports_ofExcept_bind (hmissing _) fun agrees _ => ?_
  split
  case isTrue => exact reports_ofExcept (.missing _)
  case isFalse =>
  refine reports_report_bind ?_
  split
  case isTrue =>
      refine reports_ofExcept_bind ((hfault _).mono fun _ => .indefinite) fun small _ => ?_
      split <;> exact reports_ofExcept (.indefinite nofun)
  case isFalse hfactor =>
      refine reports_ofExcept_bind (form.isFinal_root.mapError.mono fun _ => .indefinite)
        fun x hx => ?_
      have hroot : IsRoot form x :=
        ⟨Expr.isFloating_of_collect hform, Bool.eq_false_iff.mpr hfactor, mapError_eq_ok hx⟩
      refine reports_report_bind ?_
      refine reports_ofExcept_bind ((hf x).mono fun _ => .failed hroot) fun value _ => ?_
      refine reports_ofExcept_bind ((hfault _).mono fun _ => .failed hroot) fun size _ => ?_
      exact reports_pure (.solved hroot)

/-- What solving by a linear form or by another way reports: the other way is taken where the form
is missing, after this has been reported. -/
inductive ReportsWays (name : String) (P : Except Error β → List SolveEvent → Prop) :
    Except Error (Solution Scalar ⊕ β) → List SolveEvent → Prop
  | form {outcome : Except Error (Solution Scalar)} {events : List SolveEvent}
      (reports : ReportsForm name outcome events) : ReportsWays name P (Sum.inl <$> outcome) events
  | other {outcome : Except Error β} {events : List SolveEvent} (why : String)
      (reports : P outcome events) :
    ReportsWays name P (Sum.inr <$> outcome) (.rejected why :: events)

theorem reports_solveOr {P : Except Error β → List SolveEvent → Prop}
    {other : Program Scalar → Solving β}
    (hother : ∀ p, Program.ofExpr u.codegen u.residual = .ok p → Reports P (other p)) :
    Reports (ReportsWays u.name P) (u.solveOr (Solve.observer u.name estimate) other) := by
  have hmissing (err : Error) : ReportsWays u.name P (.error err) [] := .form (.missing err)
  unfold solveOr
  refine reports_ofExcept_bind (fun err _ => hmissing err) fun p hp => ?_
  have hvalue (x : Scalar) : FailsOnly Error.IsFinal (u.function p x) := by
    rw [function_eq hp]
    exact (Expr.isOfEvaluation_evaluate _ _).mono fun _ => isFinal_of_isOfEvaluation
  have hlinear : Reports (fun outcome events =>
      ∃ found, outcome = Sum.inl (β := β) <$> found ∧ ReportsForm u.name found events)
      (Sum.inl <$> u.solveLinear (Solve.observer u.name estimate) (u.function p)) :=
    (reports_solveLinear hvalue).map fun outcome events h => ⟨outcome, rfl, h⟩
  refine hlinear.tryCatch ?_ ?_
  · rintro answer events ⟨found, hfound, hreports⟩
    exact hfound ▸ .form hreports
  · rintro err events ⟨found, hfound, hreports⟩
    obtain rfl : found = .error err := by
      cases found with
      | error => cases hfound; rfl
      | ok => cases hfound
    split
    case h_1 why hwhy =>
        cases hreports with
        | indefinite hfinal | failed _ hfinal => exact absurd hwhy (hfinal why)
        | missing =>
            refine reports_report_bind ?_
            exact (hother p hp).map fun outcome more h => .other _ h
    case h_2 =>
        refine reports_ofExcept ?_
        rw [List.append_nil]
        exact .form hreports

end Unknown

/-! ## Newton's iteration -/

namespace Newton.Objective

variable {o : Objective Scalar}

/-- The interval is a multiple of a double, and so is the divisor. -/
theorem isFloating_of_centralDifference {x slope : Scalar} (h : o.centralDifference x = .ok slope) :
    slope.IsFloating := by
  unfold centralDifference at h
  obtain ⟨size, -, h⟩ := exists_of_bind_eq_ok h
  obtain ⟨interval, -, h⟩ := exists_of_bind_eq_ok h
  obtain ⟨_, -, h⟩ := exists_of_bind_eq_ok h
  obtain ⟨above, -, h⟩ := exists_of_bind_eq_ok h
  obtain ⟨_, -, h⟩ := exists_of_bind_eq_ok h
  obtain ⟨below, -, h⟩ := exists_of_bind_eq_ok h
  obtain ⟨difference, -, h⟩ := exists_of_bind_eq_ok (mapError_eq_ok h)
  obtain ⟨width, hwidth, hquotient⟩ := exists_of_bind_eq_ok h
  have hfloating : width.IsFloating := Scalar.isFloating_of_mul (a := .real 2.0) (.inl trivial) hwidth
  exact Scalar.isFloating_of_div (.inr hfloating) hquotient

/-- Where the residual has a value, doubles can be made of the estimate. -/
structure IsShowable (o : Objective Scalar) : Prop where
  estimate : ∀ {x v}, o.value x = .ok v → x.IsConvertible
  value : ∀ {x v}, o.value x = .ok v → v.IsFloating
  derivative : ∀ d ∈ o.derivative?, ∀ {x v}, d x = .ok v → v.IsFloating

theorem IsShowable.slope (h : o.IsShowable) {x slope : Scalar} (hslope : o.slope x = .ok slope) :
    slope.IsFloating := by
  unfold Objective.slope at hslope
  split at hslope
  case h_1 d hd => exact h.derivative d hd hslope
  case h_2 => exact isFloating_of_centralDifference hslope

theorem IsShowable.step (h : o.IsShowable) {steps : List (NewtonStep Scalar)} {x : Scalar}
    {s : NewtonStep Scalar} (hadvances : o.Advances steps x s) : s.IsShowable := by
  obtain ⟨size, hmeasures, -⟩ := hadvances.large
  obtain ⟨step, hstep, hnext⟩ := hadvances.next
  have hslope := h.slope hadvances.slope
  exact {
    estimate := hadvances.estimate ▸ h.estimate hmeasures.value
    residual := h.value hmeasures.value
    slope := hslope
    next := Scalar.isFloating_of_sub (.inr (Scalar.isFloating_of_div (.inr hslope) hstep)) hnext }

/-- By induction on the row of the steps. -/
theorem IsShowable.path (h : o.IsShowable) {steps : List (NewtonStep Scalar)} {first x : Scalar}
    (hpath : o.Path first steps x) : ∀ s ∈ steps, s.IsShowable := by
  induction hpath with
  | start => exact List.forall_mem_nil _
  | step _ hadvances ih =>
      exact List.forall_mem_append.mpr ⟨ih, List.forall_mem_singleton.mpr (h.step hadvances)⟩

end Newton.Objective

namespace Unknown

open Solving

variable {u : Unknown Scalar} {estimate : Nat → Scalar → Estimate}

/-- An equation that has a value where its unknown is bound to a number has evaluated the number. -/
theorem isConvertible_of_evaluate (hfree : u.residual.IsFree u.name) {x v : Scalar}
    (h : u.residual.evaluate (u.bind x) = .ok v) : x.IsConvertible := by
  rw [Expr.evaluate_eq_outcomeWith] at h
  obtain ⟨w, hw⟩ := Expr.exists_of_outcomeWith u.residual h u.name hfree.1 hfree.2
  have hfind : (u.bind x).find? u.name = some (.number x) :=
    (Table.find?_insert ..).trans (if_pos rfl)
  rw [meaning, meaningWithin_number hfind] at hw
  exact Scalar.isConvertible_of_settle (mapError_eq_ok (mapError_eq_ok hw))

theorem isShowable_objective (hfree : u.residual.IsFree u.name) {p : Program Scalar}
    (hp : Program.ofExpr u.codegen u.residual = .ok p) {derivative? : Option (Program Scalar)}
    (hderivative : u.derivativeProgram = .ok derivative?) :
    (u.objective p derivative?).IsShowable where
  estimate h := isConvertible_of_evaluate hfree ((function_eq hp _).symm.trans h)
  value h := (Expr.isSettled_evaluate ((function_eq hp _).symm.trans h)).isFloating
  derivative := by
    intro d hd x v hv
    obtain ⟨code, hcode, rfl⟩ := Option.map_eq_some_iff.mp hd
    obtain ⟨e, he⟩ := exists_ofExpr_of_derivativeProgram hderivative code hcode
    rw [function, Program.run_of_ofExpr he] at hv
    exact (Expr.isSettled_evaluate hv).isFloating

/-- What the iteration reports, by its end: one step after the other. -/
inductive ReportsNewton (u : Unknown Scalar) (estimate : Nat → Scalar → Estimate) :
    Except Error (Ending Scalar) → List SolveEvent → Prop
  | unstarted (err : Error) : ReportsNewton u estimate (.error err) []
  | course {o : Newton.Objective Scalar} {first x : Scalar} {steps : List (NewtonStep Scalar)}
      {outcome : Except Error (Ending Scalar)} (start : u.start = .ok first)
      (showable : o.IsShowable) (path : o.Path first steps x) (stops : o.Stops steps x outcome) :
    ReportsNewton u estimate outcome
      (steps.map fun s => .step u.name (estimate (s.iteration - 1) s.estimate) s)

theorem reports_solveNewton (hfree : u.residual.IsFree u.name) {p : Program Scalar}
    (hp : Program.ofExpr u.codegen u.residual = .ok p) :
    Reports (ReportsNewton u estimate) (u.solveNewton (Solve.observer u.name estimate) p) := by
  rw [solveNewton_eq]
  refine reports_ofExcept_bind (fun err _ => .unstarted err) fun derivative? hderivative => ?_
  refine reports_ofExcept_bind (fun err _ => .unstarted err) fun first hfirst => ?_
  obtain ⟨steps, x, outcome, hrun, hpath, hstops⟩ := (u.objective p derivative?).exists_course
    (Solve.observer u.name estimate).step first
  rw [hrun]
  exact reports_forM (.course (mapError_eq_ok hfirst) (isShowable_objective hfree hp hderivative)
    hpath hstops)

/-- An expression in place of a first estimate is the solution or none; there are no steps. -/
inductive ReportsOpening (name : String) (start : Datum) :
    Except Error (Solution Datum) → List SolveEvent → Prop
  | failed (err : Error) : ReportsOpening name start (.error err) []
  | solved (size : Datum) :
    ReportsOpening name start (.ok ⟨[(name, start)], .newton, 0, size, none⟩) []

theorem reports_leave {derivative? : Option (Program Scalar)} {start : Datum}
    {shown : Estimate} {residual : Scalar} :
    Reports (fun _ events => events = []) (u.leave derivative? start shown residual) := by
  unfold leave
  split
  case h_1 => exact reports_pure rfl
  case h_2 =>
      refine reports_ofExcept_bind (fun _ _ => rfl) fun slope _ => ?_
      split
      case isTrue => exact reports_pure rfl
      case isFalse =>
      refine reports_ofExcept_bind (fun _ _ => rfl) fun finite _ => ?_
      split
      case isTrue => exact reports_pure rfl
      case isFalse => exact reports_ofExcept_bind (fun _ _ => rfl) fun step _ => reports_pure rfl

theorem reports_solveOpened {start : Datum} {p : Program Scalar} :
    Reports (ReportsOpening u.name start) (u.solveOpened start p) := by
  have hfailed {γ : Type} (outcome : Except Error γ) :
      FailsOnly (fun err => ReportsOpening u.name start (.error err) []) outcome :=
    fun err _ => .failed err
  unfold solveOpened
  refine reports_ofExcept_bind (hfailed _) fun derivative? _ => ?_
  refine reports_ofExcept_bind (hfailed _) fun residual _ => ?_
  refine reports_ofExcept_bind (hfailed _) fun shown _ => ?_
  refine reports_ofExcept_bind (hfailed _) fun finite _ => ?_
  split
  case isTrue => exact reports_ofExcept (.failed _)
  case isFalse =>
  refine reports_ofExcept_bind (hfailed _) fun size _ => ?_
  split
  case isTrue => exact reports_pure (.solved _)
  case isFalse =>
  split
  case isTrue => exact reports_ofExcept (.failed _)
  case isFalse =>
  refine reports_ofExcept_bind (hfailed _) fun exceeded _ => ?_
  split
  case isTrue => exact reports_ofExcept (.failed _)
  case isFalse =>
  refine reports_leave.bind ?_ ?_
  · rintro cause events rfl
    exact reports_ofExcept (.failed _)
  · rintro err events rfl
    exact .failed err

end Unknown

/-! ## Several unknowns -/

namespace Unknowns

open Solving

variable {u : Unknowns Scalar}

/-- What the iteration for several unknowns reports, by its end: one step after the other, with an
estimate for each unknown. -/
inductive ReportsTogether (names : List String) (start : Except Cause (List Float)) :
    Except Error (SystemEnding Float) → List SolveEvent → Prop
  | unstarted (err : Error) : ReportsTogether names start (.error err) []
  | course {n : NewtonSystem (List SolveEvent) Float}
      {f : List Float → Except Error (List Float)} {first last : List Float}
      {steps : List (SystemStep Float)} {outcome : Except Error (SystemEnding Float)}
      (started : start = .ok first) (path : NewtonSystem.Path n f first steps last)
      (arrives : NewtonSystem.Arrives last steps.length outcome)
      (length : last.length = names.length) :
    ReportsTogether names start outcome (steps.map (.systemStep names))

theorem reports_solve {tolerance : Float} {most : Int} {start : Except Cause (List Float)}
    (hstart : ∀ {first}, start = .ok first → first.length = u.names.length)
    (henough : u.names.length ≤ u.residuals.length) :
    Reports (ReportsTogether u.names start)
      (u.solve Scalar.realPart? (fun s => report (.systemStep u.names s)) tolerance most start) := by
  unfold solve
  refine reports_ofExcept_bind (fun err _ => .unstarted err) fun programs hprograms => ?_
  refine reports_ofExcept_bind (fun err _ => .unstarted err) fun first hfirst => ?_
  have hlength := hstart (mapError_eq_ok hfirst)
  let n : NewtonSystem (List SolveEvent) Float :=
    ⟨fun x => Action.ofExcept (u.residualsAt Scalar.realPart? programs x),
      fun s => report (.systemStep u.names s), u.names.length < u.residuals.length, tolerance⟩
  obtain ⟨steps, last, outcome, hrun, hpath, harrives⟩ :=
    NewtonSystem.exists_course (n := n) rfl most first
  have hsquare : n.overdetermined = false → ∀ {x residuals},
      u.residualsAt Scalar.realPart? programs x = .ok residuals →
      residuals.length = first.length := by
    intro hnot x residuals hresiduals
    have hpairs := (forall₂_of_residualsAt hprograms hresiduals).length_eq
    have hmost : ¬u.names.length < u.residuals.length := by simpa [n] using hnot
    rw [List.length_map] at hpairs
    omega
  dsimp only
  rw [hrun]
  exact reports_forM (.course (mapError_eq_ok hfirst) hpath harrives
    ((hpath.length_eq hsquare).trans hlength))

end Unknowns

end Reckoner
