import Reckoner.Calculation
import Reckoner.Proofs.Solve.Accidents
import Reckoner.Proofs.Trace.Steps

/-!
# Calculations that are recorded

While a calculation is recorded it fails for the reasons that it has anyway, and besides because a
step cannot be shown with so many digits. What is recorded of it are numbers made of doubles, and
that is what it answers with.
-/

namespace Reckoner

open Reckoner.Action Display

variable {allowed : Function → Prop} {accident : Cause → Prop} {count : Option Int}

/-! ## Steps -/

namespace Step

theorem failsOnly_scalar {x : Scalar} (h : x.IsFloating) :
    FailsOnly (Refuses count) (Display.scalar (Digits count) x) := failsOnly_value h

theorem failsOnly_assignment (name : String) {x : Scalar} (h : x.IsFloating) :
    FailsOnly (Refuses count) (assignment (Digits count) name (.number x)) :=
  (failsOnly_value h).bind fun _ _ => failsOnly_pure _

theorem failsOnly_ofEvent? {event : SolveEvent} {step : Except Cause Step} (h : event.IsShowable)
    (hstep : ofEvent? (Digits count) event = some step) : FailsOnly (Refuses count) step := by
  cases event with
  | form | rejected => cases hstep
  | root name f x =>
      cases hstep
      obtain ⟨hf, hx⟩ := h
      exact (failsOnly_scalar hf.factor).bind fun _ _ => (failsOnly_scalar hf.constant).bind
        fun _ _ => (failsOnly_scalar hx).bind fun _ _ => failsOnly_pure _
  | step name start s =>
      cases hstep
      obtain ⟨hestimate, hresidual, hslope, hnext⟩ := h
      exact (failsOnly_value_of_isConvertible hestimate).bind fun _ _ =>
        (failsOnly_scalar hresidual).bind
        fun _ _ => (failsOnly_scalar hslope).bind fun _ _ => (failsOnly_scalar hnext).bind
          fun _ _ => failsOnly_pure _
  | systemStep names s =>
      cases hstep
      refine FailsOnly.bind (failsOnly_mapM fun entry hentry => ?_) fun _ _ => failsOnly_pure _
      obtain ⟨x, -, hx⟩ := List.mem_map.mp (List.of_mem_zip hentry).2
      dsimp only
      rw [← hx]
      exact failsOnly_assignment entry.1 (x := .real x) trivial

end Step

/-! ## Answers -/

/-- A number, or a solution of numbers, made of doubles. -/
def Answer.IsNumeric : Answer → Prop
  | .datum d => ∃ x : Scalar, d = .number x ∧ x.IsFloating
  | .solution s => Solve.AreNumbers s

theorem Answer.isNumeric_ofScalar {x : Scalar} (h : x.IsFloating) : (ofScalar x).IsNumeric :=
  ⟨x, rfl, h⟩

theorem Step.failsOnly_ofAnswer {answer : Answer} (h : answer.IsNumeric) :
    FailsOnly (Refuses count) (ofAnswer (Digits count) answer) := by
  refine FailsOnly.bind ?_ fun _ _ => failsOnly_pure _
  cases answer with
  | datum d =>
      obtain ⟨x, rfl, hx⟩ := h
      exact failsOnly_value hx
  | solution s =>
      change FailsOnly _ (if s.values.isEmpty then _ else _)
      split
      case isTrue => split <;> exact failsOnly_pure _
      case isFalse =>
          refine FailsOnly.bind (failsOnly_mapM fun entry hentry => ?_) fun _ _ => failsOnly_pure _
          obtain ⟨x, hx, hfloating⟩ := h entry hentry
          dsimp only
          rw [hx]
          exact failsOnly_assignment entry.1 hfloating

/-! ## Traces -/

namespace Trace

/-- The trace shows so many digits. -/
def Shows (count : Option Int) (t : Trace) : Prop := t.digits = Digits count

theorem ends_add {p : Error → Prop} (step : Step) :
    Ends (Shows count) (fun _ => True) p (add step) := ends_update fun _ h => h

theorem ends_addShown {step : Datum → Except Cause Step}
    (hrefuses : ∀ cause, Refuses count cause → accident cause)
    (h : FailsOnly (Refuses count) (step (Digits count))) :
    Ends (Shows count) (fun _ => True) (Error.IsCodedOr accident) (addShown step) := by
  intro t ht
  obtain ⟨digits, past⟩ := t
  obtain rfl : digits = Digits count := ht
  rw [runFrom_addShown]
  cases hstep : step (Digits count) with
  | ok known => exact ⟨rfl, trivial⟩
  | error cause => exact ⟨rfl, .inr (hrefuses cause (h cause hstep))⟩

theorem ends_addReductions (hrefuses : ∀ cause, Refuses count cause → accident cause)
    {reductions : List (Reduction Scalar)} (h : ∀ r ∈ reductions, r.IsSettled) :
    Ends (Shows count) (fun _ => True) (Error.IsCodedOr accident) (addReductions reductions) := by
  induction reductions with
  | nil => exact ends_pure trivial
  | cons r reductions ih =>
      obtain ⟨hr, hrest⟩ := List.forall_mem_cons.mp h
      exact (ends_addShown hrefuses (Step.failsOnly_ofReduction hr)).bind fun _ _ => ih hrest

theorem runFrom_addEvents (event : SolveEvent) (events : List SolveEvent) (t : Trace) :
    (addEvents (event :: events)).runFrom t =
      (match Step.ofEvent? t.digits event with
        | some step => (addShown fun _ => step) >>= fun _ => addEvents events
        | none => addEvents events).runFrom t := by
  change (match Step.ofEvent? t.digits event with
    | some step => (addShown fun _ => step) >>= fun _ => addEvents events
    | none => pure () >>= fun _ => addEvents events).runFrom t = _
  cases Step.ofEvent? t.digits event <;> rfl

theorem ends_addEvents (hrefuses : ∀ cause, Refuses count cause → accident cause)
    {events : List SolveEvent} (h : AreTold events) :
    Ends (Shows count) (fun _ => True) (Error.IsCodedOr accident) (addEvents events) := by
  induction events with
  | nil => exact ends_pure trivial
  | cons event events ih =>
      obtain ⟨hevent, hrest⟩ := List.forall_mem_cons.mp h
      intro t ht
      rw [runFrom_addEvents]
      cases hstep : Step.ofEvent? t.digits event with
      | none => exact ih hrest t ht
      | some step =>
          rw [ht] at hstep
          exact ((ends_addShown hrefuses (Step.failsOnly_ofEvent? hevent.isShowable hstep)).bind
            fun _ _ => ih hrest) t ht

/-- All that is noted of an evaluation is in normal form. -/
theorem isSettled_of_passes {bindings : Table (Binding Scalar)} {nodes : List Expr}
    {reductions : List (Reduction Scalar)} {outcome : Except Error Unit}
    (h : Passes (meaning bindings) nodes reductions outcome) : ∀ r ∈ reductions, r.IsSettled := by
  induction h with
  | nil | failure => exact List.forall_mem_nil _
  | leaf _ _ _ ih => exact ih
  | operation hreduces _ ih => exact List.forall_mem_cons.mpr ⟨isSettled_of_reduces hreduces, ih⟩

variable {known : Table Datum}

theorem ends_evaluate (hrefuses : ∀ cause, Refuses count cause → accident cause)
    (hfault : ∀ cause, FaultOf allowed cause → accident cause) {bindings : Table (Binding Scalar)}
    (hbindings : AreRegular allowed bindings) {e : Expr}
    (he : e.Everywhere (Expr.IsRegular allowed)) :
    Ends (Shows count) Scalar.IsFloating (Error.IsCodedOr accident) (evaluate bindings e) := by
  obtain ⟨reductions, htraced, hpasses⟩ := exists_evaluateTraced bindings e
  unfold evaluate
  rw [htraced]
  refine (ends_addReductions hrefuses (isSettled_of_passes hpasses)).bind fun _ _ => ?_
  have hmeets := Expr.meets_evaluate hbindings he
  exact ends_ofExcept (hmeets.mono (fun _ => Scalar.IsSettled.isFloating)
    fun _ herr => herr.mono hfault)

theorem ends_solve (hrefuses : ∀ cause, Refuses count cause → accident cause)
    {a : Solving (Solution Datum)}
    (h : Ends AreTold Solve.AreNumbers (Error.IsCodedOr accident) a) :
    Ends (Shows count) Solve.AreNumbers (Error.IsCodedOr accident) (solve a) := by
  obtain ⟨htold, hmeets⟩ := h [] (List.forall_mem_nil _)
  refine (ends_addEvents hrefuses fun event hevent => ?_).bind fun _ _ => ends_ofExcept hmeets
  exact htold event (List.mem_reverse.mp hevent)

end Trace

/-! ## Calculations -/

namespace Calculation

/-- What the text of a problem and the values of variables may involve: none but certain functions,
and of accidents those of these functions, and those of solving where the text is an equation. -/
structure Involves (allowed : Function → Prop) (accident : Cause → Prop) (known : Table Datum)
    (text : String) : Prop where
  known : AreRegular allowed (Binding.ofData known)
  expression : ∀ e, Expr.ofText text = .ok e → e.Everywhere (Expr.IsRegular allowed)
  equation : ∀ e, Equation.ofText text = .ok e → e.residual.Everywhere (Expr.IsRegular allowed)
  faults : ∀ cause, FaultOf allowed cause → accident cause
  solving : ∀ e, Equation.ofText text = .ok e → ∀ cause, SolvingFault allowed cause → accident cause

variable {known : Table Datum} {text : String}

/-- A text is an expression or an equation. -/
theorem meets_taskOf (text : String) :
    Meets (fun task => task = .evaluate (.text text) ∨ task = .solve (.text text))
      (Error.IsCodedOr accident) (taskOf (.text text)) := by
  refine (Latex.failsOnly_plainOf text).meets_true.andThen fun plain => ?_
  split
  case isTrue => exact .inr rfl
  case isFalse => exact .inl rfl

theorem meets_located {β : Type} {good : β → Prop} {outcome : Except Error β}
    (h : Meets good (Error.IsCodedOr accident) outcome) (text : String) :
    Meets good (Error.IsCodedOr accident) (located (.text text) outcome) :=
  (h.mono_error fun _ herr => herr.within text).mapError

theorem meets_ofDatum (h : Involves allowed accident known text) :
    Meets (fun e => e.Everywhere (Expr.IsRegular allowed)) (Error.IsCodedOr accident)
      (Expr.ofDatum (.text text)) := (Expr.failsOnly_ofText text).meets h.expression

theorem meets_value (h : Involves allowed accident known text) :
    Meets Scalar.IsFloating (Error.IsCodedOr accident) (value (.text text) known) := by
  refine meets_located ((meets_ofDatum h).bind fun e he => ?_) text
  exact (Expr.meets_evaluate h.known he).mono (fun _ => Scalar.IsSettled.isFloating)
    fun _ herr => herr.mono h.faults

theorem ends_equation (h : Involves allowed accident known text) :
    Ends AreTold Solve.AreNumbers (Error.IsCodedOr accident)
      (Solve.equation (.ok Settings.defaults) (.text text) known [] []) :=
  Solve.ends_equation h.known h.equation h.solving

/-- The answer to a problem with the standard settings. -/
theorem meets_answer (h : Involves allowed accident known text) :
    Meets Answer.IsNumeric (Error.IsCodedOr accident)
      (answer (.ok Settings.defaults) (.text text) known []) := by
  refine (meets_taskOf text).bind fun task htask => ?_
  rcases htask with rfl | rfl
  · exact (meets_value h).bind fun _ hx => Answer.isNumeric_ofScalar hx
  · exact (ends_equation h [] (List.forall_mem_nil _)).2.bind fun _ hs => hs

theorem ends_evaluateTraced (hrefuses : ∀ cause, Refuses count cause → accident cause)
    (h : Involves allowed accident known text) :
    Ends (Trace.Shows count) Scalar.IsFloating (Error.IsCodedOr accident)
      (evaluateTraced (.text text) known) := by
  refine (ends_ofExcept (meets_located (meets_ofDatum h) text)).bind fun e he => ?_
  intro t ht
  obtain ⟨hshows, hmeets⟩ := Trace.ends_evaluate hrefuses h.faults h.known he t ht
  exact ⟨hshows, meets_located hmeets text⟩

/-- The same answer while the steps are recorded, if they can be shown. -/
theorem ends_traced (hrefuses : ∀ cause, Refuses count cause → accident cause)
    (h : Involves allowed accident known text) :
    Ends (Trace.Shows count) (fun _ => True) (Error.IsCodedOr accident)
      (traced (.ok Settings.defaults) (.text text) known []) := by
  refine Ends.andThen (ends_pure trivial) fun shown => ?_
  refine (Trace.ends_add _).bind fun _ _ => ?_
  refine (ends_ofExcept (meets_taskOf text)).bind fun task htask => ?_
  have hlast (answer : Answer) (hanswer : answer.IsNumeric) :
      Ends (Trace.Shows count) (fun _ => True) (Error.IsCodedOr accident) (do
        Trace.addShown fun digits => Step.ofAnswer digits answer
        return answer) :=
    (Trace.ends_addShown hrefuses (Step.failsOnly_ofAnswer hanswer)).bind fun _ _ =>
      ends_pure trivial
  rcases htask with rfl | rfl
  · exact ((ends_evaluateTraced hrefuses h).map fun _ hx => Answer.isNumeric_ofScalar hx).bind hlast
  · have hsolve := (Trace.ends_solve hrefuses (ends_equation h)).map (f := Answer.solution)
      (R := Answer.IsNumeric) fun _ hs => hs
    exact hsolve.bind hlast

theorem meets_steps (h : Involves allowed accident known text)
    (hrefuses : ∀ cause, Refuses count cause → accident cause) :
    Meets (fun _ => True) (Error.IsCodedOr accident)
      (steps (.ok Settings.defaults) (.text text) known [] (Digits count)) := by
  unfold steps
  have htraced := (ends_traced hrefuses h (.start (Digits count)) rfl).2
  exact htraced.bind fun _ _ => trivial

end Calculation

end Reckoner
