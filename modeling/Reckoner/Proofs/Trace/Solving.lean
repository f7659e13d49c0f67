import Reckoner.Proofs.Trace.Course

/-!
# Traces of solving

Solving with a trace has the outcome that it has without one, and the steps recount how it came
about. If solving fails, the steps are those that had been made by then. Only a step that cannot be
shown with the digits of the trace changes the outcome.
-/

namespace Reckoner

open Reckoner.Action Display

namespace Trace

/-! ## Descriptions -/

/-- What an event-by-event report is worth: every event can be shown, and the steps that the events
amount to account for the outcome. -/
structure Describes (account : List Step → Except Error (Solution Datum) → Prop)
    (outcome : Except Error (Solution Datum)) (events : List SolveEvent) : Prop where
  showable : ∀ event ∈ events, event.IsShowable
  account : ∀ {digits steps}, Told digits events steps → account steps outcome

section Describes

open Solve Solving

variable {account : List Step → Except Error (Solution Datum) → Prop} {settings : Settings}
  {options : Options} {known given overrides : Table Datum}
  {outcome : Except Error (Solution Datum)} {events : List SolveEvent} {name : String}

theorem Describes.mono {other : List Step → Except Error (Solution Datum) → Prop}
    {final : Except Error (Solution Datum)} (h : Describes account outcome events)
    (hother : ∀ steps, account steps outcome → other steps final) : Describes other final events :=
  ⟨h.showable, fun htold => hother _ (h.account htold)⟩

theorem describes_nil (h : account [] outcome) : Describes account outcome [] where
  showable := List.forall_mem_nil _
  account htold := by
    cases htold
    exact h

theorem describes_error (err : Error) : Describes (Tells settings options) (.error err) [] :=
  describes_nil (.failure .check)

theorem Describes.rejected {why : String} (h : Describes account outcome events) :
    Describes account outcome (.rejected why :: events) where
  showable := List.forall_mem_cons.mpr ⟨trivial, h.showable⟩
  account htold := by
    cases htold with
    | silent _ htold => exact h.account htold
    | step hshown => cases hshown

theorem Tells.mapError {f : Error → Error} {steps : List Step}
    (h : Tells settings options steps outcome) :
    Tells settings options steps (outcome.mapError f) := by
  cases h with
  | solution hcourse hcounted => exact .solution hcourse hcounted
  | failure hcourse => exact .failure hcourse

theorem describes_form {found : Except Error (Solution Scalar)}
    (h : Unknown.ReportsForm name found events) :
    Describes (Tells settings options) (found >>= fun s => .ok (inData s)) events := by
  cases h with
  | missing err => exact describes_error err
  | indefinite =>
      refine ⟨List.forall_mem_singleton.mpr trivial, fun htold => ?_⟩
      cases htold with
      | step hshown => cases hshown
      | silent _ htold => cases htold; exact .failure .check
  | failed hroot =>
      refine ⟨by simpa using ⟨trivial, hroot.floating, hroot.isFloating⟩, fun htold => ?_⟩
      obtain ⟨step, rfl, hstep⟩ := isRoot_of_told hroot htold
      have hcourse : Course settings options [step] .linear [(name, .number _)] := .linear hstep
      exact .failure hcourse
  | solved hroot =>
      refine ⟨by simpa using ⟨trivial, hroot.floating, hroot.isFloating⟩, fun htold => ?_⟩
      obtain ⟨step, rfl, hstep⟩ := isRoot_of_told hroot htold
      exact .solution (.linear hstep) (by rintro (h | h) <;> cases h)

theorem describes_newton {u : Unknown Scalar} (hstart : u.start = options.startValue settings u.name)
    {ending : Except Error (Ending Scalar)}
    (h : u.ReportsNewton options.estimateAt ending events) :
    Describes (Tells settings options)
      (Newton.Objective.answer u.name options.estimateAt ending) events := by
  cases h with
  | unstarted err => exact describes_error err
  | @course o first x made ending hfirst hshowable hpath hstops =>
      have hstarted := startValues_of_startValue (hstart.symm.trans hfirst)
      refine ⟨?_, fun htold => ?_⟩
      · intro event hevent
        obtain ⟨s, hs, rfl⟩ := List.mem_map.mp hevent
        exact hshowable.path hpath s hs
      · obtain ⟨hleads, hlength⟩ := leads_of_path hpath htold
        have hcourse := Course.newton hstarted hleads
        cases hanswer : Newton.Objective.answer u.name options.estimateAt ending with
        | error err => exact .failure hcourse
        | ok s =>
            obtain ⟨_, size, rfl, -⟩ := hstops.solution hanswer
            exact .solution hcourse fun _ => hlength.symm

theorem describes_opening {start : Datum} (hopening : options.opening? = some start)
    (h : Unknown.ReportsOpening name start outcome events) :
    Describes (Tells settings options) outcome events := by
  cases h with
  | failed err => exact describes_error err
  | solved size =>
      have hstarted : options.startValues settings [name] = .ok [start] := by
        unfold Options.opening? at hopening
        unfold Options.startValues
        split at hopening
        case h_1 hguess | h_2 hguess | h_3 hguess => cases hopening; rw [hguess]; rfl
        case h_4 => cases hopening
      exact describes_nil (.solution (.newton hstarted .start) fun _ => rfl)

theorem reports_check {residuals : List Expr} :
    Reports (Describes (Tells settings options)) (inData <$> Action.ofExcept
      (Check.run (Binding.ofData known) residuals options.tolerance)) := by
  rw [← bind_pure_comp]
  refine reports_ofExcept_bind (fun err _ => describes_error err) fun found hfound => ?_
  obtain ⟨values, -, h⟩ := exists_of_bind_eq_ok hfound
  obtain ⟨norm, -, h⟩ := exists_of_bind_eq_ok h
  cases h
  exact reports_pure (describes_nil (.solution .check (by rintro (h | h) <;> cases h)))

theorem describes_together {names : List String} {ending : Except Error (SystemEnding Float)}
    {most : Int} (h : Unknowns.ReportsTogether names
      (do (← options.startValues settings names).mapM Datum.toFloat) ending events) :
    Describes (Tells settings options)
      (ending >>= fun e => (concludedSystem names most e).mapError .of) events := by
  cases h with
  | unstarted err => exact describes_error err
  | @course n f first last made ending hstart hpath harrives hlength =>
      obtain ⟨items, hitems, hfirst⟩ := exists_of_bind_eq_ok hstart
      refine ⟨?_, fun htold => ?_⟩
      · intro event hevent
        obtain ⟨s, -, rfl⟩ := List.mem_map.mp hevent
        trivial
      obtain ⟨hleads, hsteps⟩ := leads_of_pathTogether hpath htold
      -- under different names the values come in order
      have hwidth : (reals last).length = names.length := (List.length_map _).trans hlength
      have hinOrder : names.Nodup →
          (Table.ofPairs (names.zip (reals last))).map Prod.snd = reals last := by
        intro hnodup
        have hnames : (names.zip (reals last)).map Prod.fst = names :=
          List.map_fst_zip (Nat.le_of_eq hwidth.symm)
        rw [Table.ofPairs_of_nodup (hnames.symm ▸ hnodup)]
        exact List.map_snd_zip (Nat.le_of_eq hwidth)
      have hcourse := Course.newtonSystem hitems hfirst hleads rfl hinOrder
      cases ending with
      | error err => exact .failure hcourse
      | ok ending =>
          cases ending with
          | notFinite | exhausted => exact .failure hcourse
          | converged x iterations norm =>
              obtain ⟨rfl, rfl⟩ := harrives x iterations norm rfl
              rw [reals, ← SolveEvent.mapValues_estimates] at hcourse
              exact .solution hcourse fun _ => hsteps.symm

/-! ## Solving -/

theorem describes_ways {β : Type} {P : Except Error β → List SolveEvent → Prop}
    {answer : Except Error (Solution Scalar ⊕ β)} {f : β → Except Error (Solution Datum)}
    (h : Unknown.ReportsWays name P answer events)
    (hP : ∀ outcome events, P outcome events →
      Describes (Tells settings options) (outcome >>= f) events) :
    Describes (Tells settings options)
      (answer >>= Sum.elim (fun s => .ok (inData s)) f) events := by
  cases h with
  | @form found events hfound =>
      have hform : Describes (Tells settings options) (found >>= fun s => .ok (inData s)) events :=
        describes_form hfound
      cases found <;> exact hform
  | @other outcome events why houtcome =>
      have hother : Describes (Tells settings options) (outcome >>= f) (.rejected why :: events) :=
        (hP outcome events houtcome).rejected
      cases outcome <;> exact hother

theorem reports_parsed {e : Equation} :
    Reports (Describes (Tells settings options)) (parsed settings options known e) := by
  unfold parsed
  refine reports_ofExcept_bind (fun err _ => describes_error err) fun name? hname => ?_
  cases name? with
  | none => exact reports_check
  | some name =>
      have hfree : e.residual.IsFree name := by
        rw [← Expr.mem_freeVariables, ← variablesOf_singleton]
        obtain ⟨-, hfilter⟩ | ⟨other, -, hother, hmem⟩ := unknownOf_eq_ok hname
        · have hmem : name ∈ (variablesOf [e.residual]).filter (!known.holds ·) := by
            rw [hfilter]
            exact List.mem_singleton_self name
          exact List.mem_of_mem_filter hmem
        · cases hother
          exact hmem
      refine reports_ofExcept_bind (fun err _ => describes_error err) fun codegen _ => ?_
      let u : Unknown Scalar := unknown settings options known e name codegen
      dsimp only
      split
      case h_1 start hopening =>
          have hways : Reports (Unknown.ReportsWays u.name (Unknown.ReportsOpening u.name start))
              (u.solveOr (observer u.name options.estimateAt) (u.solveOpened start)) :=
            Unknown.reports_solveOr (u := u) fun _ _ => Unknown.reports_solveOpened (u := u)
          refine hways.map fun answer events h => ?_
          have hdescribes : Describes (Tells settings options)
              (answer >>= Sum.elim (fun s => .ok (inData s)) .ok) events :=
            describes_ways h fun outcome events h => by
              have hopened : Describes (Tells settings options) outcome events :=
                describes_opening hopening h
              cases outcome <;> exact hopened
          cases answer with
          | error err => exact hdescribes
          | ok answer => cases answer <;> exact hdescribes
      case h_2 =>
          have hways : Reports (Unknown.ReportsWays u.name (u.ReportsNewton options.estimateAt))
              (u.solve (observer u.name options.estimateAt)) :=
            Unknown.reports_solveOr (u := u) fun _ hp =>
              Unknown.reports_solveNewton (u := u) hfree hp
          refine hways.bind_ofExcept (g := Sum.elim (fun s => .ok (inData s))
            fun ending => (concluded name options.estimateAt ending).mapError .of)
            (fun answer => by cases answer <;> rfl) fun answer events h => ?_
          exact describes_ways h fun outcome events h => describes_newton (u := u) rfl h

theorem reports_equationWith {d : Datum} :
    Reports (Describes (Tells settings options)) (equationWith settings options known d) := by
  have haction : Reports (Describes (Tells settings options))
      (do parsed settings options known (← Action.ofExcept (Equation.ofDatum d))) :=
    reports_ofExcept_bind (fun err _ => describes_error err) fun e _ => reports_parsed
  unfold equationWith
  dsimp only
  split
  case h_1 text _ =>
      refine Reports.within (haction.mono fun outcome events h => ?_)
      exact h.mono fun steps htells => htells.mapError
  case h_2 => exact haction

theorem reports_equation {d : Datum} :
    Reports (Describes (Recounts settings given overrides))
      (equation settings d known given overrides) := by
  unfold equation
  refine reports_ofExcept_bind ?_ fun options hoptions => ?_
  · refine FailsOnly.mapError fun cause hcause => ?_
    exact describes_nil (.unbuilt hcause rfl)
  · exact reports_equationWith.mono fun outcome events h =>
      h.mono fun steps htells => .built (mapError_eq_ok hoptions) htells

/-- What the only equation of a system is asked for does not matter for first estimates. -/
theorem Tells.of_soleOptions {sole : Options} (hsole : soleOptions options = .ok sole)
    {steps : List Step} (h : Tells settings sole steps outcome) :
    Tells settings options steps outcome := by
  obtain ⟨d, rfl⟩ := soleOptions_eq_ok hsole
  have hcourse {method : Method} {values : Table Datum}
      (h : Course settings { options with solveFor := d } steps method values) :
      Course settings options steps method values := by
    cases h with
    | check => exact .check
    | linear hroot => exact .linear hroot
    | newton hstarted hleads => exact .newton hstarted hleads
    | newtonSystem hstarted hconverted hleads hnamed hinOrder =>
        exact .newtonSystem hstarted hconverted hleads hnamed hinOrder
  cases h with
  | solution h hcounted => exact .solution (hcourse h) hcounted
  | failure h => exact .failure (hcourse h)

theorem reports_together {residuals : List Expr} {names : List String}
    (henough : names.length ≤ residuals.length) :
    Reports (Describes (Tells settings options))
      (together settings options known residuals names) := by
  unfold together
  refine reports_ofExcept_bind (fun err _ => describes_error err) fun codegen _ => ?_
  let u : Unknowns Scalar := ⟨residuals, names, Binding.ofData known, codegen⟩
  have hsolve : Reports (Unknowns.ReportsTogether u.names
        (do (← options.startValues settings u.names).mapM Datum.toFloat))
      (u.solve Scalar.realPart? (fun s => report (.systemStep u.names s)) options.tolerance
        options.maxIterations (do (← options.startValues settings u.names).mapM Datum.toFloat)) :=
    Unknowns.reports_solve length_firstEstimates henough
  exact hsolve.bind_ofExcept (fun _ => rfl) fun ending events h => describes_together h

theorem reports_system {equations : List Datum} :
    Reports (Describes (Recounts settings given overrides))
      (system settings equations known given overrides) := by
  unfold system
  refine reports_ofExcept_bind ?_ fun options hoptions => ?_
  · refine FailsOnly.mapError fun cause hcause => ?_
    exact describes_nil (.unbuilt hcause rfl)
  have hbuilt {a : Solving (Solution Datum)} (h : Reports (Describes (Tells settings options)) a) :
      Reports (Describes (Recounts settings given overrides)) a :=
    h.mono fun outcome events h => h.mono fun steps htells => .built (mapError_eq_ok hoptions) htells
  refine hbuilt (reports_ofExcept_bind (fun err _ => describes_error err) fun es _ => ?_)
  split
  case h_1 => exact reports_ofExcept (describes_error _)
  case h_2 e =>
      refine reports_ofExcept_bind (fun err _ => describes_error err) fun sole hsole => ?_
      exact reports_equationWith.mono fun outcome events h =>
        h.mono fun steps htells => htells.of_soleOptions (mapError_eq_ok hsole)
  case h_3 =>
      refine reports_ofExcept_bind (fun err _ => describes_error err) fun names _ => ?_
      split
      case h_1 => exact reports_check
      case h_2 =>
          split
          case isTrue => exact reports_ofExcept (describes_error _)
          case isFalse henough => exact reports_together (Nat.not_lt.mp henough)

/-- The steps of the events before one whose step cannot be shown with so many digits. -/
inductive Stopped (count : Option Int) (events : List SolveEvent) (steps : List Step) :
    Except Error (Solution Datum) → Prop
  | unshown {before after : List SolveEvent} {event : SolveEvent} {n : Int} {cause : Cause}
      (split : events = before ++ event :: after) (told : Told (Digits count) before steps)
      (shown : Step.ofEvent? (Digits count) event = some (.error cause)) (digits : count = some n)
      (refused : Refusal n cause) : Stopped count events steps (.error (.of cause))

/-- What is reported is told while the trace lasts, so the steps account for the outcome unless one
of them cannot be shown. -/
theorem exists_of_reports {a : Solving (Solution Datum)} (h : Reports (Describes account) a)
    (count : Option Int) (past : List Step) :
    ∃ steps outcome, (solve a).runFrom ⟨Digits count, past⟩ =
        (outcome, ⟨Digits count, past ++ steps⟩) ∧
      (outcome = a.run.1 ∧ account steps outcome ∨ Stopped count a.run.2 steps outcome) := by
  have hdescribes := h.run
  have hrun : (solve a).runFrom ⟨Digits count, past⟩ =
      (addEvents a.run.2 >>= fun _ => Action.ofExcept a.run.1).runFrom ⟨Digits count, past⟩ := rfl
  obtain ⟨before, steps, htold, hall | ⟨event, after, cause, hsplit, hevent⟩⟩ :=
    exists_told (Digits count) a.run.2
  · refine ⟨steps, a.run.1, ?_, .inl ⟨rfl, ?_⟩⟩
    · have hevents := runFrom_addEvents_append htold [] past
      rw [List.append_nil] at hevents
      rw [hrun, hall, runFrom_bind, hevents]
      rfl
    · rw [← hall] at htold
      exact hdescribes.account htold
  · have hmem : event ∈ a.run.2 := by
      rw [hsplit]
      exact List.mem_append_right _ List.mem_cons_self
    obtain ⟨n, hcount, hrefusal⟩ :=
      Step.failsOnly_ofEvent? (hdescribes.showable event hmem) hevent cause rfl
    refine ⟨steps, .error (.of cause), ?_, .inr (.unshown hsplit htold hevent hcount hrefusal)⟩
    rw [hrun, hsplit, runFrom_bind, runFrom_addEvents_append htold, runFrom_addEvents, hevent]
    dsimp only
    rw [runFrom_bind, runFrom_addShown]

end Describes

/-- Solving an equation or a system while the steps are recorded has the outcome that it has without
a trace, and appends the steps that recount it; with a number of digits that is refused it may end
at a step that cannot be shown. -/
theorem solve_recounts (settings : Settings) (known given overrides : Table Datum) :
    (∀ d count past, ∃ steps outcome,
      (solve (Solve.equation settings d known given overrides)).runFrom ⟨Digits count, past⟩ =
        (outcome, ⟨Digits count, past ++ steps⟩) ∧
      (outcome = (Solve.equation settings d known given overrides).run.1 ∧
          Recounts settings given overrides steps outcome ∨
        Stopped count (Solve.equation settings d known given overrides).run.2 steps outcome)) ∧
    ∀ equations count past, ∃ steps outcome,
      (solve (Solve.system settings equations known given overrides)).runFrom
          ⟨Digits count, past⟩ = (outcome, ⟨Digits count, past ++ steps⟩) ∧
      (outcome = (Solve.system settings equations known given overrides).run.1 ∧
          Recounts settings given overrides steps outcome ∨
        Stopped count (Solve.system settings equations known given overrides).run.2 steps
          outcome) :=
  ⟨fun _ => exists_of_reports reports_equation, fun _ => exists_of_reports reports_system⟩

/-- An equation with the standard settings. -/
private def plainly (text : String) : Solving (Solution Datum) :=
  Solve.equation (.ok Settings.defaults) (.text text) [] [] []

example : (plainly "2*x = 1").run.1.toOption.isSome = true ∧
    ((solve (plainly "2*x = 1")).runFrom
      ⟨.number (.whole 2147483647), []⟩).1.toOption.isSome = true ∧
    ((solve (plainly "2*x = 1")).runFrom
      ⟨.number (.whole 2147483648), []⟩).1.toOption.isSome = false := by decide +kernel

end Trace

end Reckoner
