import Reckoner.Console.Basic
import Reckoner.Proofs.Latex.Markup
import Reckoner.Proofs.Trace.Recording

/-!
# Problems in LaTeX on the console

A problem with markup is brought to plain notation in any case, and the option that says that it is
LaTeX only has this done earlier. The plain notation comes to the same, if it is not taken for LaTeX
in turn: the errors belong to another text then, which is not told, and the first of the steps shows
the problem as it is given.
-/

namespace Reckoner

open Reckoner.Action

variable {β γ β' γ' : Type} {text other : String}

/-! ## Outcomes that are told in the same way -/

/-- The errors are told in the same words. They may belong to different texts, unless they are
accidents. -/
structure Error.Echoes (err err' : Error) : Prop where
  cause : err.cause = err'.cause
  position : err.position = err'.position
  accident : err.isTyped = false → err = err'

theorem Error.echoes_refl (err : Error) : err.Echoes err := ⟨rfl, rfl, fun _ => rfl⟩

theorem Error.echoes_within (err : Error) (text other : String) :
    (err.within text).Echoes (err.within other) where
  cause := by rw [cause_within, cause_within]
  position := by
    unfold within
    split <;> rfl
  accident h := by
    have htyped : err.isTyped = false := by rwa [isTyped, cause_within] at h
    simp [within, htyped]

theorem Error.Echoes.isTyped {err err' : Error} (h : err.Echoes err') :
    err.isTyped = err'.isTyped := by
  unfold Error.isTyped
  rw [h.cause]

theorem Error.Echoes.errorLine {err err' : Error} (h : err.Echoes err') :
    Console.errorLine err = Console.errorLine err' := by
  unfold Console.errorLine category text
  rw [h.cause, h.position]

/-- Both outcomes are answers that are related, or errors that are told in the same words. -/
def Echoes (R : β → γ → Prop) : Except Error β → Except Error γ → Prop
  | .ok b, .ok c => R b c
  | .error err, .error err' => err.Echoes err'
  | _, _ => False

variable {R : β → γ → Prop} {S : β' → γ' → Prop}

theorem echoes_refl (outcome : Except Error β) : Echoes Eq outcome outcome := by
  cases outcome with
  | ok b => rfl
  | error err => exact err.echoes_refl

theorem echoes_mapError_within (outcome : Except Error β) (text other : String) :
    Echoes Eq (outcome.mapError (·.within text)) (outcome.mapError (·.within other)) := by
  cases outcome with
  | ok b => rfl
  | error err => exact err.echoes_within text other

theorem Echoes.bind {a : Except Error β} {b : Except Error γ} {f : β → Except Error β'}
    {g : γ → Except Error γ'} (h : Echoes R a b) (hf : ∀ x y, R x y → Echoes S (f x) (g y)) :
    Echoes S (a >>= f) (b >>= g) := by
  cases a <;> cases b
  case ok.ok => exact hf _ _ h
  case error.error => exact h
  all_goals exact h.elim

/-! ## Traces with the same further steps -/

namespace Trace

/-- While they show the digits, both actions record the same steps, whatever has been recorded
before, and their outcomes are told in the same way. -/
def Parallel (digits : Datum) (a b : Action Trace β) : Prop :=
  ∃ steps outcome outcome', Echoes Eq outcome outcome' ∧ ∀ past,
    a.runFrom ⟨digits, past⟩ = (outcome, ⟨digits, past ++ steps⟩) ∧
      b.runFrom ⟨digits, past⟩ = (outcome', ⟨digits, past ++ steps⟩)

variable {digits : Datum} {a b : Action Trace β}

theorem runFrom_ofFun (f : Trace → Except Error β × Trace) (t : Trace) :
    (ofFun f).runFrom t = f t := rfl

theorem parallel_ofExcept {outcome outcome' : Except Error β} (h : Echoes Eq outcome outcome') :
    Parallel digits (Action.ofExcept outcome) (Action.ofExcept outcome') :=
  ⟨[], outcome, outcome', h, fun _ => by rw [List.append_nil]; exact ⟨rfl, rfl⟩⟩

theorem parallel_pure (x : β) : Parallel digits (pure x) (pure x) :=
  parallel_ofExcept (echoes_refl (.ok x))

theorem Parallel.bind {f g : β → Action Trace γ} (h : Parallel digits a b)
    (hf : ∀ x, Parallel digits (f x) (g x)) : Parallel digits (a >>= f) (b >>= g) := by
  obtain ⟨steps, outcome, outcome', houtcome, hrun⟩ := h
  cases outcome <;> cases outcome'
  case error.error err err' =>
      refine ⟨steps, .error err, .error err', houtcome, fun past => ?_⟩
      obtain ⟨ha, hb⟩ := hrun past
      rw [runFrom_bind, runFrom_bind, ha, hb]
      exact ⟨rfl, rfl⟩
  case ok.ok x y =>
      obtain rfl : x = y := houtcome
      obtain ⟨more, last, last', hlast, hmore⟩ := hf x
      refine ⟨steps ++ more, last, last', hlast, fun past => ?_⟩
      obtain ⟨ha, hb⟩ := hrun past
      rw [runFrom_bind, runFrom_bind, ha, hb, ← List.append_assoc]
      exact hmore _
  all_goals exact houtcome.elim

theorem Parallel.map (h : Parallel digits a b) (f : β → γ) :
    Parallel digits (f <$> a) (f <$> b) := by
  rw [← bind_pure_comp, ← bind_pure_comp]
  exact h.bind fun x => parallel_pure (f x)

theorem parallel_addShown (step : Datum → Except Cause Step) :
    Parallel digits (addShown step) (addShown step) := by
  cases hstep : step digits with
  | ok known =>
      refine ⟨[known], .ok (), .ok (), rfl, fun past => ?_⟩
      rw [runFrom_addShown, hstep]
      exact ⟨rfl, rfl⟩
  | error cause =>
      refine ⟨[], .error (.of cause), .error (.of cause), Error.echoes_refl _, fun past => ?_⟩
      rw [runFrom_addShown, hstep, List.append_nil]
      exact ⟨rfl, rfl⟩

theorem parallel_addReductions (reductions : List (Reduction Scalar)) :
    Parallel digits (addReductions reductions) (addReductions reductions) := by
  induction reductions with
  | nil => exact parallel_pure ()
  | cons r reductions ih => exact (parallel_addShown _).bind fun _ => ih

theorem parallel_addEvents (events : List SolveEvent) :
    Parallel digits (addEvents events) (addEvents events) := by
  induction events with
  | nil => exact parallel_pure ()
  | cons event events ih =>
      unfold Parallel
      simp only [runFrom_addEvents]
      cases Step.ofEvent? digits event with
      | none => exact ih
      | some step => exact (parallel_addShown fun _ => step).bind fun _ => ih

theorem parallel_evaluate (bindings : Table (Binding Scalar)) (e : Expr) :
    Parallel digits (evaluate bindings e) (evaluate bindings e) :=
  (parallel_addReductions _).bind fun _ => parallel_ofExcept (echoes_refl _)

/-- Solving that reports the same events and comes to outcomes that are told in the same way. -/
theorem parallel_solve {s s' : Solving (Solution Datum)} (hevents : s.run.2 = s'.run.2)
    (houtcome : Echoes Eq s.run.1 s'.run.1) : Parallel digits (solve s) (solve s') := by
  unfold solve
  dsimp only
  rw [hevents]
  exact (parallel_addEvents _).bind fun _ => parallel_ofExcept houtcome

end Trace

/-! ## Calculations -/

namespace Calculation

variable {settings : Settings} {known options : Table Datum} {digits : Datum}

theorem ofDatum_text (h : Latex.plainOf text = Latex.plainOf other) :
    Expr.ofDatum (.text text) = Expr.ofDatum (.text other) := by
  change Expr.ofText text = Expr.ofText other
  unfold Expr.ofText
  rw [h]

theorem echoes_value (h : Latex.plainOf text = Latex.plainOf other) :
    Echoes Eq (value (.text text) known) (value (.text other) known) := by
  unfold value
  rw [ofDatum_text h]
  exact echoes_mapError_within _ text other

theorem parallel_evaluateTraced (h : Latex.plainOf text = Latex.plainOf other) :
    Trace.Parallel digits (evaluateTraced (.text text) known)
      (evaluateTraced (.text other) known) := by
  unfold evaluateTraced
  rw [ofDatum_text h]
  refine (Trace.parallel_ofExcept (echoes_mapError_within _ text other)).bind fun e => ?_
  obtain ⟨steps, outcome, _, _, hrun⟩ : Trace.Parallel digits _ _ :=
    Trace.parallel_evaluate (Binding.ofData known) e
  refine ⟨steps, _, _, echoes_mapError_within outcome text other, fun past => ?_⟩
  simp only [Trace.runFrom_ofFun, (hrun past).1]
  exact ⟨rfl, rfl⟩

/-- Solving the equation of either text reports the same events. -/
theorem echoes_equation (h : Latex.plainOf text = Latex.plainOf other) :
    Echoes Eq (Solve.equation settings (.text text) known [] options).run.1
        (Solve.equation settings (.text other) known [] options).run.1 ∧
      (Solve.equation settings (.text text) known [] options).run.2 =
        (Solve.equation settings (.text other) known [] options).run.2 := by
  have hread : Equation.ofDatum (.text text) = Equation.ofDatum (.text other) := by
    change Equation.ofText text = Equation.ofText other
    unfold Equation.ofText
    rw [h]
  unfold Solve.equation
  cases Options.build settings [] options with
  | error cause => exact ⟨Error.echoes_refl _, rfl⟩
  | ok built =>
      rw [ofCause_ok_bind, ofCause_ok_bind]
      unfold Solve.equationWith
      rw [hread]
      exact ⟨echoes_mapError_within _ text other, rfl⟩

theorem taskOf_text (text : String) :
    taskOf (.text text) = Latex.plainOf text >>= fun plain =>
      .ok (if (Equation.equalsSign? plain).isSome then .solve (.text text)
        else .evaluate (.text text)) := rfl

/-- Both texts are refused, or both are expressions, or both are equations. -/
theorem taskOf_cases (h : Latex.plainOf text = Latex.plainOf other) :
    (∃ err, taskOf (.text text) = .error err ∧ taskOf (.text other) = .error err) ∨
    (taskOf (.text text) = .ok (.evaluate (.text text)) ∧
      taskOf (.text other) = .ok (.evaluate (.text other))) ∨
    (taskOf (.text text) = .ok (.solve (.text text)) ∧
      taskOf (.text other) = .ok (.solve (.text other))) := by
  rw [taskOf_text, taskOf_text, h]
  cases Latex.plainOf other with
  | error err => exact .inl ⟨err, rfl, rfl⟩
  | ok plain =>
      rw [bind_ok, bind_ok]
      split
      case isTrue => exact .inr (.inr ⟨rfl, rfl⟩)
      case isFalse => exact .inr (.inl ⟨rfl, rfl⟩)

theorem echoes_answer (h : Latex.plainOf text = Latex.plainOf other) :
    Echoes Eq (answer settings (.text text) known []) (answer settings (.text other) known []) := by
  unfold answer
  obtain ⟨err, htext, hother⟩ | ⟨htext, hother⟩ | ⟨htext, hother⟩ := taskOf_cases h
  all_goals rw [htext, hother]
  · exact err.echoes_refl
  · exact (echoes_value h).bind fun x y hxy => congrArg Answer.ofScalar hxy
  · exact (echoes_equation h).1.bind fun x y hxy => congrArg Answer.solution hxy

/-- What is done with a text that is recorded as the problem: the answer is the last step. -/
def tracedBehind (settings : Settings) (known : Table Datum) (text : String) :
    Action Trace Answer := do
  let answer ←
    match solving? settings known [] (← Action.ofExcept (taskOf (.text text))) with
    | .inl e => Answer.ofScalar <$> evaluateTraced e known
    | .inr a => Answer.solution <$> Trace.solve a
  Trace.addShown fun digits => Step.ofAnswer digits answer
  return answer

theorem runFrom_traced (text : String) :
    (traced settings (.text text) known []).runFrom (.start digits) =
      (tracedBehind settings known text).runFrom ⟨digits, [Step.ofProblem text]⟩ := rfl

theorem parallel_tracedBehind (h : Latex.plainOf text = Latex.plainOf other) :
    Trace.Parallel digits (tracedBehind settings known text)
      (tracedBehind settings known other) := by
  have hlast (answer : Answer) : Trace.Parallel digits
      (do Trace.addShown fun digits => Step.ofAnswer digits answer; return answer)
      (do Trace.addShown fun digits => Step.ofAnswer digits answer; return answer) :=
    (Trace.parallel_addShown _).bind fun _ => Trace.parallel_pure answer
  unfold tracedBehind
  obtain ⟨err, htext, hother⟩ | ⟨htext, hother⟩ | ⟨htext, hother⟩ := taskOf_cases h
  all_goals rw [htext, hother]
  · exact Trace.parallel_ofExcept err.echoes_refl
  · exact ((parallel_evaluateTraced h).map _).bind hlast
  · obtain ⟨houtcome, hevents⟩ := echoes_equation h
    exact ((Trace.parallel_solve hevents houtcome).map _).bind hlast

/-- The steps behind the problem are the same. -/
theorem echoes_steps (h : Latex.plainOf text = Latex.plainOf other) :
    Echoes (fun found found' => ∃ rest, found = Step.ofProblem text :: rest ∧
        found' = Step.ofProblem other :: rest)
      (steps settings (.text text) known [] digits)
      (steps settings (.text other) known [] digits) := by
  obtain ⟨rest, outcome, outcome', houtcome, hrun⟩ : Trace.Parallel digits
      (tracedBehind settings known text) (tracedBehind settings known other) :=
    parallel_tracedBehind h
  unfold steps
  rw [runFrom_traced, runFrom_traced, (hrun _).1, (hrun _).2]
  exact houtcome.bind fun _ _ _ => ⟨rest, rfl, rfl⟩

end Calculation

/-! ## The console -/

namespace Console

variable {settings : Settings} {a : Arguments} {known : Table Datum} {digits : Datum}

theorem exists_stepsText (steps : List Step) :
    ∃ rest, ∀ text, stepsText (Step.ofProblem text :: steps) = "Evaluate " ++ text ++ rest := by
  refine ⟨"\n".intercalate ("" :: steps.map (·.description)), fun text => ?_⟩
  rw [← String.intercalate_cons_append, String.append_empty]
  rfl

/-- What is printed of the problems differs at most in the problems themselves, and these are only
printed in front of steps. -/
def Differs (a : Arguments) (text other : String) (found found' : Except Cause String) : Prop :=
  found = found' ∨ a.steps = true ∧ ∃ rest,
    found = .ok ("Evaluate " ++ text ++ rest) ∧ found' = .ok ("Evaluate " ++ other ++ rest)

theorem result_latex (problem : String) :
    result settings { a with latex := true } known problem =
      Latex.toPlain problem >>= result settings { a with latex := false } known := rfl

theorem result_plain (problem : String) :
    result settings { a with latex := false } known problem =
      (digitsOf settings a).mapError .of >>= fun digits =>
        if a.steps then (Calculation.steps settings (.text problem) known [] digits >>= fun found =>
          .ok (.ok (stepsText found)))
        else (Calculation.answer settings (.text problem) known [] >>= fun found =>
          .ok (answerText settings none found)) := rfl

theorem echoes_result (h : Latex.plainOf text = Latex.plainOf other) :
    Echoes (Differs a text other) (result settings { a with latex := false } known text)
      (result settings { a with latex := false } known other) := by
  rw [result_plain, result_plain]
  refine (echoes_refl ((digitsOf settings a).mapError .of)).bind fun digits _ heq => ?_
  subst heq
  split
  case isTrue hsteps =>
      refine (Calculation.echoes_steps h).bind fun found found' hfound => ?_
      obtain ⟨steps, rfl, rfl⟩ := hfound
      obtain ⟨rest, hrest⟩ := exists_stepsText steps
      refine .inr ⟨hsteps, rest, ?_, ?_⟩
      · rw [hrest]
      · rw [hrest]
  case isFalse =>
      refine (Calculation.echoes_answer h).bind fun found found' hfound => ?_
      exact .inl (congrArg (answerText settings none) hfound)

theorem result_of_refused (hdigits : digitsOf settings a = .ok digits) {err : Error}
    (h : Latex.plainOf text = .error err) :
    result settings { a with latex := false } known text = .error err := by
  have htask : Calculation.taskOf (.text text) = .error err := by
    rw [Calculation.taskOf_text, h]
    rfl
  rw [result_plain, hdigits]
  change (if a.steps then _ else _) = _
  split
  case isTrue =>
      have hbehind (t : Trace) :
          (Calculation.tracedBehind settings known text).runFrom t = (.error err, t) := by
        unfold Calculation.tracedBehind
        rw [htask]
        rfl
      unfold Calculation.steps
      rw [Calculation.runFrom_traced, hbehind]
      rfl
  case isFalse =>
      unfold Calculation.answer
      rw [htask]
      rfl

/-- What is written of the outcome of a problem. -/
def told : Except Error (Except Cause String) → Session Bool
  | .error e => if e.isTyped then do complain (errorLine e); return false else throw e
  | .ok text => do say ((← Action.ofCause text) ++ "\n"); return true

theorem workOn_eq_told (problem : String) :
    workOn settings a known problem = told (result settings a known problem) := by
  unfold workOn told
  cases result settings a known problem <;> rfl

theorem told_of_echoes {found found' : Except Error (Except Cause String)}
    (h : Echoes (Differs a text other) found found') :
    told found = told found' ∨ a.steps = true ∧ ∃ rest,
      told found = (do say ("Evaluate " ++ text ++ rest ++ "\n"); return true) ∧
      told found' = (do say ("Evaluate " ++ other ++ rest ++ "\n"); return true) := by
  cases found <;> cases found'
  case error.error err err' =>
      refine .inl ?_
      unfold told
      dsimp only
      rw [← h.isTyped, ← h.errorLine]
      split
      case isTrue => rfl
      case isFalse htyped => rw [h.accident (by simpa using htyped)]
  case ok.ok =>
      rcases h with rfl | ⟨hsteps, rest, rfl, rfl⟩
      · exact .inl rfl
      · exact .inr ⟨hsteps, rest, rfl, rfl⟩
  all_goals exact h.elim

/-- With the option for LaTeX and without it the console does the same with a problem, or it shows
the same steps, and in front of them the problem in plain notation or as it is given. -/
def TreatsAlike (settings : Settings) (a : Arguments) (known : Table Datum)
    (text : String) : Prop :=
  workOn settings { a with latex := true } known text =
      workOn settings { a with latex := false } known text ∨
    a.steps = true ∧ ∃ plain rest, Latex.toPlain text = .ok plain ∧
      workOn settings { a with latex := true } known text =
        (do say ("Evaluate " ++ plain ++ rest ++ "\n"); return true) ∧
      workOn settings { a with latex := false } known text =
        (do say ("Evaluate " ++ text ++ rest ++ "\n"); return true)

/-- A problem with markup is treated alike with the option and without it, if its plain notation is
not taken for LaTeX in turn. -/
theorem treatsAlike_of_isMarkup (hdigits : digitsOf settings a = .ok digits)
    (hmarkup : Latex.isMarkup text = true)
    (honce : ∀ plain, Latex.plainOf text = .ok plain → Latex.plainOf plain = .ok plain) :
    TreatsAlike settings a known text := by
  have hplain : Latex.plainOf text = Latex.toPlain text := if_pos hmarkup
  unfold TreatsAlike
  rw [workOn_eq_told, workOn_eq_told, result_latex]
  cases htext : Latex.toPlain text with
  | error err =>
      rw [result_of_refused hdigits (hplain.trans htext)]
      exact .inl rfl
  | ok plain =>
      have hsame : Latex.plainOf plain = Latex.plainOf text := by
        rw [honce plain (hplain.trans htext), hplain, htext]
      refine (told_of_echoes (echoes_result hsame)).imp_right ?_
      rintro ⟨hsteps, rest, hwith, hwithout⟩
      exact ⟨hsteps, plain, rest, rfl, hwith, hwithout⟩

/-- Bringing a text to plain notation twice is doing it once, unless there is a backslash behind a
backslash in it; then the console treats a problem with markup alike with the option for LaTeX and
without it. A problem in which all that is markup are closing braces is only refused for them with
the option. -/
theorem workOn_latex (settings : Settings) (a : Arguments) (known : Table Datum) {digits : Datum}
    (hdigits : digitsOf settings a = .ok digits) (text : String) :
    (∀ plain, Latex.plainOf text = .ok plain →
      (Latex.plainOf plain = .ok plain ↔ Latex.escaped text.toList = 0)) ∧
    (Latex.isMarkup text = true →
      (∀ plain, Latex.plainOf text = .ok plain → Latex.plainOf plain = .ok plain) →
        TreatsAlike settings a known text) ∧
    (Latex.isMarkup text = false → '}' ∈ text.toList →
      Latex.plainOf text = .ok text ∧
        workOn settings { a with latex := true } known text = (do
          complain (errorLine (.located .unbalancedBraces (text.toList.idxOf '}')))
          return false)) := by
  refine ⟨fun plain => Latex.plainOf_plain_iff, treatsAlike_of_isMarkup hdigits,
    fun hplain hbrace => ⟨?_, ?_⟩⟩
  · rw [Latex.plainOf, hplain]
    rfl
  · rw [workOn_eq_told, result_latex, Latex.toPlain_of_brace hplain hbrace]
    rfl

theorem workOn_latex_fraction :
    Latex.isMarkup "\\frac\x7b1\x7d\x7b2\x7d" = true ∧
      TreatsAlike (.ok Settings.defaults) {} [] "\\frac\x7b1\x7d\x7b2\x7d" := by
  have hdigits : digitsOf (.ok Settings.defaults) {} = .ok .null := rfl
  obtain ⟨honce, halike, -⟩ :=
    workOn_latex (.ok Settings.defaults) {} [] hdigits "\\frac\x7b1\x7d\x7b2\x7d"
  exact ⟨by decide, halike (by decide) fun plain hplain => (honce plain hplain).mpr (by decide)⟩

end Console

end Reckoner
