import Reckoner.Proofs.Program.Folding
import Reckoner.Proofs.Solve.Collection
import Reckoner.Proofs.Solve.Course
import Reckoner.Solve.Basic

/-!
# Errors of solving

What solving an equation can fail with, given what its parts can fail with: the program, the linear
form, the values of programs at values of the unknown, the derivative and the first estimate. Of its
own, solving has no errors with a place and none about undefined variables.
-/

namespace Reckoner

open Reckoner.Action

variable {σ β : Type} {p : Error → Prop}

/-! ## Actions -/

/-- The action fails with none but the errors. -/
abbrev Errs (p : Error → Prop) (a : Action σ β) : Prop :=
  Ends (fun _ => True) (fun _ => True) p a

theorem errs_ofExcept {outcome : Except Error β} (h : FailsOnly p outcome) :
    Errs p (Action.ofExcept outcome : Action σ β) := ends_ofExcept h.meets_true

theorem errs_ofCause {outcome : Except Cause β}
    (h : FailsOnly (fun cause => p (.of cause)) outcome) :
    Errs p (Action.ofCause outcome : Action σ β) := errs_ofExcept h.mapError

theorem errs_pure (b : β) : Errs p (pure b : Action σ β) := ends_pure trivial

theorem errs_forM {α : Type} {note : α → Action σ Unit} (h : ∀ s, Errs p (note s))
    (steps : List α) : Errs p (forM steps note) := by
  induction steps with
  | nil => exact errs_pure ()
  | cons s steps ih =>
      rw [List.forM_cons]
      exact (h s).andThen fun _ => ih

namespace HasOwn

theorem fault (hp : HasOwn p) (fault : Fault) : p fault.toError := hp _ fun _ h => by cases h

theorem ofFault (hp : HasOwn p) (outcome : Except Fault β) :
    Errs p (Action.ofFault outcome : Action σ β) :=
  errs_ofExcept (FailsOnly.mapError fun fault _ => hp.fault fault)

theorem failsOnly_faulty (hp : HasOwn p) (outcome : Except Fault β) :
    FailsOnly (fun cause => p (.of cause)) (Scalar.faulty outcome) :=
  Scalar.failsOnly_faulty hp.fault outcome

theorem exceededBy {α : Type} (hp : HasOwn p) (limits : Limits α) (count : Nat) :
    Errs p (Action.ofCause (limits.exceededBy count) : Action σ Bool) := by
  refine errs_ofCause ((limits.failsOnly_exceededBy count).mono ?_)
  rintro _ ⟨kind, rfl⟩
  exact hp _ fun _ h => by cases h

end HasOwn

/-! ## Newton's iteration -/

theorem Newton.Objective.errs_run {o : Objective Scalar} {note : NewtonStep Scalar → Action σ Unit}
    (hp : HasOwn p) (hraises : ∀ err, o.Raises err → p err) (hnote : ∀ s, Errs p (note s))
    (first : Scalar) : Errs p ((o.newton note).run first) := by
  obtain ⟨steps, x, outcome, hrun, -, hstops⟩ := o.exists_course note first
  rw [hrun]
  refine (errs_forM hnote steps).andThen fun _ => errs_ofExcept ?_
  rintro err rfl
  cases hstops with
  | raised h => exact hraises err h
  | fault fault => exact hp.fault fault
  | incomparable kind => exact hp _ fun _ h => by cases h

/-! ## Linear forms -/

namespace LinearForm

theorem failsOnly_form (hp : HasOwn p) (op op' : Operator) (a b c d : Scalar) :
    FailsOnly (fun cause => p (.of cause)) (do
      let factor ← Arithmetic.operate op a b
      return (⟨factor, ← Arithmetic.operate op' c d⟩ : LinearForm Scalar)) :=
  (hp.failsOnly_faulty _).bind fun _ _ => (hp.failsOnly_faulty _).bind fun _ _ => failsOnly_pure _

theorem failsOnly_combine (hp : HasOwn p) (op : String) (f g : LinearForm Scalar) :
    FailsOnly (fun cause => p (.of cause)) (combine op f g) := by
  have hown {cause : Cause} (h : ∀ name, cause ≠ .undefinedVariable name) :
      FailsOnly (fun cause => p (.of cause)) (.error cause : Except Cause (LinearForm Scalar)) :=
    failsOnly_error (hp cause h)
  unfold combine
  split
  case h_1 | h_2 => exact failsOnly_form hp _ _ _ _ _ _
  case h_3 =>
      unfold multiply
      split
      case isTrue => exact hown fun _ h => by cases h
      case isFalse =>
          dsimp only
          split <;> exact failsOnly_form hp _ _ _ _ _ _
  case h_4 =>
      unfold divide
      split
      case isTrue => exact hown fun _ h => by cases h
      case isFalse => exact failsOnly_form hp _ _ _ _ _ _
  case h_5 => exact hown fun _ h => by cases h

theorem failsOnly_root (hp : HasOwn p) (f : LinearForm Scalar) :
    FailsOnly (fun cause => p (.of cause)) f.root := by
  unfold root
  refine FailsOnly.bind (FailsOnly.mapError fun fault _ => hp.fault fault) fun x _ => ?_
  exact hp.failsOnly_faulty _

end LinearForm

namespace Expr

variable {bindings : Table (Binding Scalar)} {name : String}

mutual

/-- The search for a variable tells whether it occurs, and fails only at what is no expression. -/
theorem meets_mentions (name : String) : ∀ e : Expr,
    Meets (fun found => found = false → name ∉ e.names) (fun cause => (Error.of cause).IsBound)
      (e.mentions name)
  | .number _ | .imaginary _ | .constant _ | .blank => by
      intro _
      exact List.not_mem_nil
  | .foreign .. => fun _ h => by cases h
  | .var other => by
      intro hfound
      rw [names, List.mem_singleton]
      rintro rfl
      simp at hfound
  | .negate e => meets_mentions name e
  | .binary _ l r => by
      rw [mentions]
      refine (meets_mentions name l).bind fun found hl => ?_
      cases found with
      | true => exact fun h => by cases h
      | false =>
          refine (meets_mentions name r).mono_answer fun found hr hfound => ?_
          rw [names, List.mem_append, not_or]
          exact ⟨hl rfl, hr hfound⟩
  | .call _ args => meets_mentionsAny name args

theorem meets_mentionsAny (name : String) : ∀ es : List Expr,
    Meets (fun found => found = false → name ∉ namesAll es) (fun cause => (Error.of cause).IsBound)
      (mentionsAny name es)
  | [] => fun _ => List.not_mem_nil
  | e :: rest => by
      rw [mentionsAny]
      refine (meets_mentions name e).bind fun found he => ?_
      cases found with
      | true => exact fun h => by cases h
      | false =>
          refine (meets_mentionsAny name rest).mono_answer fun found hrest hfound => ?_
          rw [namesAll, List.mem_append, not_or]
          exact ⟨he rfl, hrest hfound⟩

end

/-- What the other names in an expression than the unknown fail with is among the errors. -/
def OthersFailOnly (p : Error → Prop) (bindings : Table (Binding Scalar)) (name : String)
    (e : Expr) : Prop :=
  ForFree (fun other => other ≠ name → FailsOnly p (meaning bindings other)) e.names

theorem failsOnly_constantFormWith (hp : HasOwn p) {e : Expr}
    (h : e.OthersFailOnly p bindings name) (hname : name ∉ e.names) :
    FailsOnly p (e.constantFormWith (meaning bindings)) := by
  have hnames : ForFree (fun other => FailsOnly p (meaning bindings other)) e.names :=
    fun other hmem hfree => h other hmem hfree fun heq => hname (heq ▸ hmem)
  exact (failsOnly_outcomeWith_of_free hp.nodesFailOnly e hnames).bind fun _ _ => failsOnly_pure _

theorem failsOnly_soleFormWith (hp : HasOwn p) {e : Expr} (h : e.OthersFailOnly p bindings name)
    (why : Nonlinearity) : FailsOnly p (e.soleFormWith (meaning bindings) name why) := by
  have hmentions : Meets (fun found => found = false → name ∉ e.names) p
      ((e.mentions name).mapError .of) := ((meets_mentions name e).mono_error hp).mapError
  refine (hmentions.bind (R := fun _ => True) fun mentioned hmentioned => ?_).failsOnly
  cases mentioned with
  | true => exact hp _ fun _ h => by cases h
  | false => exact (failsOnly_constantFormWith hp h (hmentioned rfl)).meets_true

/-- By induction on the tree: the unknown itself is never looked up. -/
theorem failsOnly_formWith (hp : HasOwn p) :
    ∀ e : Expr, e.OthersFailOnly p bindings name → FailsOnly p (e.formWith (meaning bindings) name)
  | .number _, h | .imaginary _, h | .constant _, h | .blank, h =>
      failsOnly_constantFormWith hp h List.not_mem_nil
  | .foreign .., _ => failsOnly_error (hp _ fun _ h => by cases h)
  | .var other, h => by
      rw [formWith]
      split
      case isTrue => exact failsOnly_ok _
      case isFalse hne =>
          have hname : name ∉ (var other).names := by
            rw [names, List.mem_singleton]
            exact fun heq => hne heq.symm
          exact failsOnly_constantFormWith hp h hname
  | .negate e, h => by
      rw [formWith]
      exact (failsOnly_formWith hp e h).bind fun _ _ => failsOnly_pure _
  | .binary op l r, h => by
      rw [formWith]
      split
      case isTrue => exact failsOnly_soleFormWith hp h _
      case isFalse =>
          rw [OthersFailOnly, names, forFree_append] at h
          refine (failsOnly_formWith hp l h.1).bind fun f _ => ?_
          refine (failsOnly_formWith hp r h.2).bind fun g _ => ?_
          exact (LinearForm.failsOnly_combine hp op f g).mapError
  | .call f args, h => failsOnly_soleFormWith hp h _

theorem failsOnly_collect (hp : HasOwn p) {e : Expr} (h : e.OthersFailOnly p bindings name) :
    FailsOnly p (e.collect bindings name) := by
  rw [collect_eq_formWith]
  exact failsOnly_formWith hp e h

end Expr

/-! ## Printing -/

mutual

theorem Expr.isBound_of_unprintable {cause : Cause} :
    ∀ e : Expr, e.unprintable? = some cause → (Error.of cause).IsBound
  | .negate e, h => isBound_of_unprintable e h
  | .binary _ l r, h => by
      rw [unprintable?] at h
      split at h
      case isTrue => cases h; exact fun _ h => by cases h
      case isFalse =>
          cases hl : unprintable? l with
          | some _ =>
              rw [hl] at h
              cases h
              exact isBound_of_unprintable l hl
          | none =>
              rw [hl] at h
              exact isBound_of_unprintable r h
  | .call _ args, h => isBound_of_unprintableAll args h
  | .blank, h | .foreign .., h => by
      cases h
      exact fun _ h => by cases h

theorem Expr.isBound_of_unprintableAll {cause : Cause} :
    ∀ es : List Expr, unprintableAll? es = some cause → (Error.of cause).IsBound
  | e :: rest, h => by
      rw [unprintableAll?] at h
      cases he : unprintable? e with
      | some _ =>
          rw [he] at h
          cases h
          exact isBound_of_unprintable e he
      | none =>
          rw [he] at h
          exact isBound_of_unprintableAll rest h

end

theorem HasOwn.failsOnly_print (hp : HasOwn p) (e : Expr) : FailsOnly p e.print := by
  unfold Expr.print
  split
  case h_1 cause hcause => exact failsOnly_error (hp cause (e.isBound_of_unprintable hcause))
  case h_2 => exact failsOnly_ok _

theorem HasOwn.failsOnly_estimate (hp : HasOwn p) (start : Datum) :
    FailsOnly p (Estimate.ofDatum start) := by
  cases start with
  | tree e => exact (hp.failsOnly_print e).bind fun _ _ => failsOnly_pure _
  | _ => exact failsOnly_ok _

/-! ## One equation -/

/-- The observer fails with none but the errors. -/
structure Observer.Errs {α : Type} (p : Error → Prop) (observer : Observer σ α) : Prop where
  form : ∀ f, Reckoner.Errs p (observer.form f)
  rejected : ∀ why, Reckoner.Errs p (observer.rejected why)
  root : ∀ f x, Reckoner.Errs p (observer.root f x)
  step : ∀ s, Reckoner.Errs p (observer.step s)

namespace Unknown

/-- The parts of an equation that is to be solved fail with none but the errors. -/
structure PartsFailOnly (p : Error → Prop) (u : Unknown Scalar) : Prop where
  program : FailsOnly p (Program.ofExpr u.codegen u.residual : Except Error (Program Scalar))
  form : FailsOnly p (u.residual.collect (u.bindings.without [u.name]) u.name)
  value : ∀ (e : Expr) (x : Scalar), FailsOnly p (e.evaluate (u.bind x))
  derivative : FailsOnly p u.derivativeProgram
  start : FailsOnly (fun cause => p (.of cause)) u.start

variable {u : Unknown Scalar} {observer : Observer σ Scalar}

theorem PartsFailOnly.function (h : u.PartsFailOnly p) {e : Expr} {code : Program Scalar}
    (hcode : Program.ofExpr u.codegen e = .ok code) (x : Scalar) :
    FailsOnly p (u.function code x) := by
  rw [Unknown.function, Program.run_of_ofExpr hcode]
  exact h.value e x

theorem failsOnly_derivativeProgram (hp : HasOwn p)
    (h : ∀ e, u.derivative? = some e → FailsOnly p e) : FailsOnly p u.derivativeProgram := by
  unfold derivativeProgram
  split
  case h_1 => exact failsOnly_ok _
  case h_2 expression he =>
      rw [map_eq_pure_bind]
      refine FailsOnly.bind ?_ fun _ _ => failsOnly_pure _
      exact (h expression he).bind fun e _ => hp.failsOnly_ofExpr _ e

theorem errs_solveLinear (hp : HasOwn p) (h : u.PartsFailOnly p) (hobserver : observer.Errs p)
    {code : Program Scalar} (hcode : Program.ofExpr u.codegen u.residual = .ok code) :
    Errs p (u.solveLinear observer (u.function code)) := by
  have hfunction (x : Scalar) : Errs p (Action.ofExcept (u.function code x) : Action σ Scalar) :=
    errs_ofExcept (h.function hcode x)
  have hown {cause : Cause} (hcause : ∀ name, cause ≠ .undefinedVariable name) :
      Errs p (Action.fail cause : Action σ (Solution Scalar)) := ends_fail (hp cause hcause)
  unfold solveLinear
  refine (errs_ofExcept h.form).andThen fun form => ?_
  refine (hfunction _).andThen fun y1 => (hfunction _).andThen fun y2 => ?_
  refine (hp.ofFault _).andThen fun agrees => ?_
  split
  case isTrue => exact hown fun _ h => by cases h
  case isFalse =>
  refine (hobserver.form form).andThen fun _ => ?_
  split
  case isTrue =>
      refine (hp.ofFault _).andThen fun small => ?_
      split <;> exact hown fun _ h => by cases h
  case isFalse =>
      refine (errs_ofCause (form.failsOnly_root hp)).andThen fun x => ?_
      refine (hobserver.root form x).andThen fun _ => (hfunction x).andThen fun _ => ?_
      exact (hp.ofFault _).andThen fun _ => errs_pure _

theorem exists_ofExpr_of_derivativeProgram {derivative? : Option (Program Scalar)}
    (h : u.derivativeProgram = .ok derivative?) :
    ∀ code ∈ derivative?, ∃ e, Program.ofExpr u.codegen e = .ok code := by
  unfold derivativeProgram at h
  split at h
  case h_1 => cases h; nofun
  case h_2 expression _ =>
      rw [map_eq_pure_bind] at h
      obtain ⟨code, hcode, h⟩ := exists_of_bind_eq_ok h
      obtain ⟨e, -, hcode⟩ := exists_of_bind_eq_ok hcode
      cases h
      rintro _ ⟨⟩
      exact ⟨e, hcode⟩

theorem errs_solveNewton (hp : HasOwn p) (h : u.PartsFailOnly p) (hobserver : observer.Errs p)
    {code : Program Scalar} (hcode : Program.ofExpr u.codegen u.residual = .ok code) :
    Errs p (u.solveNewton observer code) := by
  rw [solveNewton_eq]
  refine (ends_ofExcept (h.derivative.meets fun _ hfound => hfound)).bind
    fun derivative? hderivative => ?_
  refine (errs_ofCause h.start).andThen fun start => ?_
  refine Newton.Objective.errs_run hp ?_ hobserver.step start
  rintro err ⟨x, herr | ⟨derivative, hmem, herr⟩⟩
  · exact h.function hcode x err herr
  · obtain ⟨slope, hslope, rfl⟩ := Option.map_eq_some_iff.mp hmem
    obtain ⟨e, he⟩ := exists_ofExpr_of_derivativeProgram hderivative slope hslope
    exact h.function he x err herr

theorem errs_solveOr (hp : HasOwn p) (h : u.PartsFailOnly p) (hobserver : observer.Errs p)
    {other : Program Scalar → Action σ β} (hother : ∀ code,
      Program.ofExpr u.codegen u.residual = .ok code → Errs p (other code)) :
    Errs p (u.solveOr observer other) := by
  unfold solveOr
  refine (ends_ofExcept (h.program.meets fun _ hcode => hcode)).bind fun code hcode => ?_
  have hlinear := errs_solveLinear hp h hobserver hcode
  refine (hlinear.map fun _ _ => trivial).tryCatch fun err herr => ?_
  split
  case h_1 =>
      exact (hobserver.rejected _).andThen fun _ => (hother code hcode).map fun _ _ => trivial
  case h_2 => exact ends_ofExcept herr

/-- What an equation and its derivative come to at an expression in place of a first estimate, and
the expression itself, fail with none but the errors. -/
structure OpeningFailsOnly (p : Error → Prop) (u : Unknown Scalar) (start : Datum) : Prop where
  value : ∀ e : Expr, FailsOnly p
    (e.evaluate ((u.bindings.without [u.name]).insert u.name start.toBinding))
  estimate : FailsOnly p (Estimate.ofDatum start)

theorem errs_valueWith {start : Datum} (h : u.OpeningFailsOnly p start) {e : Expr}
    {code : Program Scalar} (hcode : Program.ofExpr u.codegen e = .ok code) :
    Errs p (u.valueWith code start : Action σ Scalar) := by
  unfold valueWith
  rw [Program.run_of_ofExpr hcode]
  exact errs_ofExcept (h.value e)

theorem meets_leave (hp : HasOwn p) {start : Datum} (h : u.OpeningFailsOnly p start)
    {derivative? : Option (Program Scalar)}
    (hderivative : u.derivativeProgram = .ok derivative?) (estimate : Estimate)
    (residual : Scalar) :
    Ends (fun _ => True) (fun cause => (Error.of cause).IsBound) p
      (u.leave derivative? start estimate residual : Action σ Cause) := by
  have hanswer {cause : Cause} (hcause : ∀ name, cause ≠ .undefinedVariable name) :
      Ends (fun _ => True) (fun cause => (Error.of cause).IsBound) p
        (pure cause : Action σ Cause) := ends_pure hcause
  unfold leave
  split
  case h_1 => exact hanswer fun _ h => by cases h
  case h_2 derivative =>
      obtain ⟨e, he⟩ := exists_ofExpr_of_derivativeProgram hderivative derivative rfl
      refine (errs_valueWith h he).andThen fun slope => ?_
      split
      case isTrue => exact hanswer fun _ h => by cases h
      case isFalse =>
      refine (hp.ofFault _).andThen fun finite => ?_
      split
      case isTrue => exact hanswer fun _ h => by cases h
      case isFalse => exact (hp.ofFault _).andThen fun step => hanswer fun _ h => by cases h

/-- There is no step from an expression: if none is needed it is the solution. -/
theorem errs_solveOpened (hp : HasOwn p) (h : u.PartsFailOnly p) {start : Datum}
    (hstart : u.OpeningFailsOnly p start) {code : Program Scalar}
    (hcode : Program.ofExpr u.codegen u.residual = .ok code) :
    Errs p (u.solveOpened start code : Action σ (Solution Datum)) := by
  have hown {cause : Cause} (hcause : ∀ name, cause ≠ .undefinedVariable name) :
      Errs p (Action.fail cause : Action σ (Solution Datum)) := ends_fail (hp cause hcause)
  unfold solveOpened
  refine (ends_ofExcept (h.derivative.meets fun _ hfound => hfound)).bind
    fun derivative? hderivative => ?_
  refine (errs_valueWith hstart hcode).andThen fun residual => ?_
  refine (errs_ofExcept hstart.estimate).andThen fun estimate => ?_
  refine (hp.ofFault _).andThen fun finite => ?_
  split
  case isTrue => exact hown fun _ h => by cases h
  case isFalse =>
  refine (hp.ofFault _).andThen fun size => ?_
  split
  case isTrue => exact errs_pure _
  case isFalse =>
  split
  case isTrue => exact hown fun _ h => by cases h
  case isFalse =>
  refine (hp.exceededBy u.limits _).andThen fun exceeded => ?_
  split
  case isTrue => exact hown fun _ h => by cases h
  case isFalse =>
      have hleave := meets_leave hp hstart (σ := σ) hderivative estimate residual
      exact hleave.bind fun cause hcause => hown hcause

end Unknown

/-! ## Equations -/

namespace Solve

variable {settings : Settings} {options : Options} {known : Table Datum} {e : Equation}

/-- The equation with its unknown, as it is given to the ways of solving it. -/
def unknown (settings : Settings) (options : Options) (known : Table Datum) (e : Equation)
    (name : String) (codegen : Bool) : Unknown Scalar where
  residual := e.residual
  name := name
  bindings := Binding.ofData known
  codegen := codegen
  limits := {
    tolerance := .real options.tolerance
    stepTolerance := .real options.stepTolerance
    iterations := options.maxIterations
    evaluations := options.maxEvaluations }
  derivative? := derivative? options.derivative
  start := options.startValue settings name

/-- Finding the unknown, checking an equation without one, and the parts of the equation with one
fail with none but the errors. -/
structure PartsFailOnly (p : Error → Prop) (settings : Settings) (options : Options)
    (known : Table Datum) (e : Equation) : Prop where
  name : FailsOnly p (unknownOf e.residual known options.solveFor)
  check : unknownOf e.residual known options.solveFor = .ok none →
    FailsOnly p (Check.run (Binding.ofData known) [e.residual] options.tolerance)
  codegen : FailsOnly (fun cause => p (.of cause)) settings.codegen
  parts : ∀ {name}, unknownOf e.residual known options.solveFor = .ok (some name) →
    ∀ codegen, (unknown settings options known e name codegen).PartsFailOnly p
  opening : ∀ {name}, unknownOf e.residual known options.solveFor = .ok (some name) →
    ∀ codegen, (unknown settings options known e name codegen).OpeningFailsOnly p options.guess

theorem errs_report (event : SolveEvent) : Errs p (Solving.report event) :=
  ends_update fun _ h => h

theorem errs_observer (name : String) (estimate : Nat → Scalar → Estimate) :
    (observer name estimate).Errs p where
  form _ := errs_report _
  rejected _ := errs_report _
  root _ _ := errs_report _
  step _ := errs_report _

theorem failsOnly_concluded (hp : HasOwn p) (name : String) (estimate : Nat → Scalar → Estimate)
    (ending : Ending Scalar) :
    FailsOnly (fun cause => p (.of cause)) (concluded name estimate ending) := by
  cases ending with
  | converged => exact failsOnly_ok _
  | _ => exact failsOnly_error (hp _ fun _ h => by cases h)

theorem errs_parsed (hp : HasOwn p) (h : PartsFailOnly p settings options known e) :
    Errs p (parsed settings options known e) := by
  unfold parsed
  refine (ends_ofExcept (h.name.meets fun _ hname => hname)).bind fun name? hname => ?_
  cases name? with
  | none => exact (errs_ofExcept (h.check hname)).map fun _ _ => trivial
  | some name =>
      refine (errs_ofCause h.codegen).andThen fun codegen => ?_
      have hparts := h.parts hname codegen
      have hobserver := errs_observer (p := p) name options.estimateAt
      dsimp only
      split
      case h_1 start hstart =>
          obtain rfl : options.guess = start := by
            unfold Options.opening? at hstart
            split at hstart <;> cases hstart <;> rfl
          refine (Unknown.errs_solveOr hp hparts hobserver fun code hcode => ?_).map
            fun _ _ => trivial
          exact Unknown.errs_solveOpened hp hparts (h.opening hname codegen) hcode
      case h_2 =>
          refine (Unknown.errs_solveOr hp hparts hobserver fun code hcode =>
            Unknown.errs_solveNewton hp hparts hobserver hcode).andThen fun answer => ?_
          cases answer with
          | inl => exact errs_pure _
          | inr ending => exact errs_ofCause (failsOnly_concluded hp _ _ ending)

end Solve

end Reckoner
