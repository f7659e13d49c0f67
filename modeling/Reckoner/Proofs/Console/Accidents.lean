import Reckoner.Console.Basic
import Reckoner.Proofs.Scope.Override
import Reckoner.Proofs.Trace.Recording

/-!
# Accidents on the console

With the standard settings a session works on every problem whatever it is, and tells of its errors,
unless one of few accidents ends it: a number of digits that steps are to be shown with and that no
format takes, a fault of a function that the problem or the value of a variable calls, or in an
equation the size of a complex number, or its square, beyond every double.
-/

namespace Reckoner

open Reckoner.Action Display

namespace Console

variable {a : Arguments} {problem : String} {cause : Cause}

/-- The problem with LaTeX in plain notation if that is asked for. -/
def plainProblem (a : Arguments) (problem : String) : Except Error String :=
  if a.latex then Latex.toPlain problem else .ok problem

/-- The expressions that a problem and the values of variables are read as. -/
inductive Involves (a : Arguments) (problem : String) : Expr → Prop
  | expression {text : String} {e : Expr} : plainProblem a problem = .ok text →
    Expr.ofText text = .ok e → Involves a problem e
  | equation {text : String} {e : Equation} : plainProblem a problem = .ok text →
    Equation.ofText text = .ok e → Involves a problem e.residual
  | variable {name value : String} {e : Expr} : (name, value) ∈ a.assignments →
    Expr.ofText value = .ok e → Involves a problem e

/-- The problem or the value of a variable calls the function. -/
def Calls (a : Arguments) (problem : String) (f : Function) : Prop :=
  ∃ e name, Involves a problem e ∧ name ∈ e.called ∧ Function.ofName? name = some f

/-- What ends a session while it works on a problem. -/
inductive Accident (a : Arguments) (problem : String) : Cause → Prop
  /-- No format takes the number of digits that steps are to be shown with. -/
  | digits {n : Int} {cause : Cause} : a.steps = true → a.digits = some n →
    Display.Refusal n cause → Accident a problem cause
  /-- A function that is called has a fault. -/
  | function {f : Function} {fault : Fault} : Calls a problem f → fault ∈ f.faults →
    Accident a problem (.arithmetic fault)
  /-- The problem is an equation in which the size of a number or its square is beyond every
  double. -/
  | size {text : String} {e : Equation} {fault : Fault} : plainProblem a problem = .ok text →
    Equation.ofText text = .ok e → fault ∈ sizeFaults → Accident a problem (.arithmetic fault)

theorem accident_of_faultOf (h : FaultOf (Calls a problem) cause) : Accident a problem cause := by
  cases h with
  | fault hf hfault => exact .function hf hfault

theorem isRegular_of_involves {e : Expr} (h : Involves a problem e)
    (hread : e.Everywhere Expr.IsRead) : e.Everywhere (Expr.IsRegular (Calls a problem)) :=
  Expr.isRegular_of_isRead e hread fun name hname _ hf => ⟨e, name, h, hname, hf⟩

theorem areRegular_knownFrom :
    AreRegular (Calls a problem) (Binding.ofData (knownFrom a)) := by
  intro name binding hfind
  rw [Binding.ofData, Table.find?_mapValues, knownFrom, Table.find?_ofPairs] at hfind
  obtain ⟨d, hd, rfl⟩ := Option.map_eq_some_iff.mp hfind
  have hmem := List.mem_reverse.mp (Table.mem_of_find? hd)
  obtain ⟨⟨name', value⟩, hassigned, hpair⟩ := List.mem_map.mp hmem
  cases hpair
  exact fun e he => isRegular_of_involves (.variable hassigned he) (Expr.isRead_of_ofText he)

theorem involves_of_plainProblem {text : String} (h : plainProblem a problem = .ok text) :
    Calculation.Involves (Calls a problem) (Accident a problem) (knownFrom a) text where
  known := areRegular_knownFrom
  expression _ he := isRegular_of_involves (.expression h he) (Expr.isRead_of_ofText he)
  equation e he := by
    obtain ⟨hlhs, hrhs⟩ := Equation.isRead_of_ofText he
    have hminus : "-" ∈ ["+", "-", "*", "/", "^"] := by decide
    have hread : e.residual.Everywhere Expr.IsRead := ⟨hminus, hlhs, hrhs⟩
    exact isRegular_of_involves (.equation h he) hread
  faults _ := accident_of_faultOf
  solving e he cause hcause := by
    cases hcause with
    | function hfault => exact accident_of_faultOf hfault
    | size hfault => exact .size h he hfault

/-! ## Results -/

/-- Every number made of doubles can be rounded to ten decimal places. -/
theorem meets_roundReal {p : Cause → Prop} (x : Float) :
    Meets (fun _ => True) p ((Places.count 10).round x) := by
  unfold Places.round roundReal
  dsimp only
  split
  case h_1 => trivial
  case h_2 => exact Meets.andThen trivial fun _ => trivial

theorem meets_rounded {p : Cause → Prop} {x : Scalar} (h : x.IsFloating) :
    Meets (fun _ => True) p (rounded (.ok Settings.defaults) none (.number x)) := by
  change Meets _ _ ((Places.count 10).roundDatum (.number x))
  cases x with
  | whole => exact h.elim
  | real x => exact meets_roundReal x
  | complex z =>
      refine (meets_roundReal z.re).bind fun _ _ => ?_
      exact (meets_roundReal z.im.abs).bind fun _ _ => trivial

theorem meets_answerText {p : Cause → Prop} {answer : Answer} (h : answer.IsNumeric) :
    Meets (fun _ => True) p (answerText (.ok Settings.defaults) none answer) := by
  cases answer with
  | datum d =>
      obtain ⟨x, rfl, hx⟩ := h
      exact (meets_rounded hx).bind fun _ _ => trivial
  | solution s =>
      change Meets _ _ (if s.method = .check then _ else _)
      split
      case isTrue => split <;> trivial
      case isFalse =>
          have hlines : FailsOnly p (s.values.mapM fun entry =>
              valueLine (.ok Settings.defaults) none entry.1 entry.2) := by
            refine failsOnly_mapM fun entry hentry => ?_
            obtain ⟨x, hx, hfloating⟩ := h entry hentry
            rw [hx]
            exact (meets_rounded hfloating).failsOnly.bind fun _ _ => failsOnly_pure _
          exact (hlines.bind fun _ _ => failsOnly_pure _).meets_true

/-- The number of digits that steps are shown with: what is asked for, unless that is zero. -/
def shownDigits (a : Arguments) : Option Int := a.digits.filter (· ≠ 0)

theorem digitsOf_defaults (a : Arguments) :
    digitsOf (.ok Settings.defaults) a = .ok (Digits (shownDigits a)) := by
  unfold digitsOf shownDigits
  cases a.digits with
  | none => rfl
  | some n =>
      by_cases hn : n = 0
      · subst hn
        rfl
      · have htrue : (Datum.number (.whole n)).isTrue = true := by
          simpa [Datum.isTrue, Scalar.isZero] using hn
        have hkept : (some n).filter (· ≠ 0) = some n := by simp [hn]
        rw [hkept]
        change Except.ok
          (if (Datum.number (.whole n)).isTrue then Datum.number (.whole n) else .null) = _
        rw [if_pos htrue]
        rfl

theorem accident_of_refuses (hsteps : a.steps = true) (h : Refuses (shownDigits a) cause) :
    Accident a problem cause := by
  obtain ⟨n, hn, hrefusal⟩ := h
  exact .digits hsteps (Option.filter_eq_some_iff.mp hn).1 hrefusal

/-- The text of the result of a problem, which can always be written if there is one. -/
theorem meets_result (a : Arguments) (problem : String) :
    Meets (fun text => ∃ line, text = .ok line) (Error.IsCodedOr (Accident a problem))
      (result (.ok Settings.defaults) a (knownFrom a) problem) := by
  have hplain : FailsOnly (Error.IsCodedOr (Accident a problem)) (plainProblem a problem) := by
    unfold plainProblem
    split
    case isTrue => exact Latex.failsOnly_toPlain problem
    case isFalse => exact failsOnly_ok problem
  have hresult : result (.ok Settings.defaults) a (knownFrom a) problem =
      plainProblem a problem >>= fun text =>
        if a.steps then do
          return .ok (stepsText (← Calculation.steps (.ok Settings.defaults) (.text text)
            (knownFrom a) [] (Digits (shownDigits a))))
        else do
          return answerText (.ok Settings.defaults) none
            (← Calculation.answer (.ok Settings.defaults) (.text text) (knownFrom a) []) := by
    unfold result plainProblem
    rw [digitsOf_defaults]
    cases a.latex <;> cases a.steps <;> rfl
  rw [hresult]
  refine (hplain.meets fun _ h => h).bind fun text htext => ?_
  have hinvolves := involves_of_plainProblem htext
  split
  case isTrue hsteps =>
      exact (Calculation.meets_steps hinvolves fun _ => accident_of_refuses hsteps).bind
        fun _ _ => ⟨_, rfl⟩
  case isFalse =>
      refine (Calculation.meets_answer hinvolves).bind fun answer hanswer => ?_
      obtain ⟨line, hline, -⟩ := (meets_answerText hanswer).exists_ok
      exact ⟨line, hline⟩

/-! ## Sessions -/

/-- Working on a problem ends well or not, unless it ends in an accident. -/
theorem ends_workOn (a : Arguments) (problem : String) :
    Ends (fun _ => True) (fun _ => True) (fun err => Accident a problem err.cause)
      (workOn (.ok Settings.defaults) a (knownFrom a) problem) := by
  have hmeets := meets_result a problem
  unfold workOn
  split
  case h_1 err herr =>
      rw [herr] at hmeets
      split
      case isTrue =>
          exact (ends_update fun _ _ => trivial).andThen fun _ => ends_pure trivial
      case isFalse huntyped => exact ends_ofExcept (hmeets.resolve_left huntyped)
  case h_2 text htext =>
      rw [htext] at hmeets
      obtain ⟨line, rfl⟩ := hmeets
      refine Ends.andThen (ends_pure trivial) fun _ => ?_
      exact (ends_update fun _ _ => trivial).andThen fun _ => ends_pure trivial

/-- An accident of one of some problems. -/
def AccidentAmong (a : Arguments) (problems : List String) (err : Error) : Prop :=
  ∃ problem ∈ problems, Accident a problem err.cause

theorem AccidentAmong.cons {problems : List String} {err : Error}
    (h : AccidentAmong a problems err) : AccidentAmong a (problem :: problems) err := by
  obtain ⟨other, hother, haccident⟩ := h
  exact ⟨other, List.mem_cons_of_mem _ hother, haccident⟩

theorem ends_workOn_cons (problem : String) (problems : List String) :
    Ends (fun _ => True) (fun _ => True) (AccidentAmong a (problem :: problems))
      (workOn (.ok Settings.defaults) a (knownFrom a) problem) :=
  (ends_workOn a problem).mono_error fun _ herr => ⟨problem, List.mem_cons_self, herr⟩

theorem ends_workOnAll (a : Arguments) (problems : List String) :
    Ends (fun _ => True) (fun _ => True) (AccidentAmong a problems)
      (workOnAll (.ok Settings.defaults) a (knownFrom a) problems) := by
  induction problems with
  | nil => exact ends_pure trivial
  | cons problem problems ih =>
      refine (ends_workOn_cons problem problems).bind fun well _ => ?_
      exact (ih.mono_error fun _ => AccidentAmong.cons).bind fun _ _ => ends_pure trivial

theorem ends_say {p : Error → Prop} (text : String) :
    Ends (fun _ => True) (fun _ => True) p (say text) := ends_update fun _ _ => trivial

theorem ends_runLines (a : Arguments) (lines : List String) :
    Ends (fun _ => True) (fun _ => True) (AccidentAmong a lines)
      (runLines (.ok Settings.defaults) a (knownFrom a) lines) := by
  induction lines with
  | nil => exact ends_say prompt
  | cons line lines ih =>
      refine (ends_say prompt).bind fun _ _ => ?_
      have hline : Ends (fun _ => True) (fun _ => True) (AccidentAmong a (line :: lines))
          (runLine (.ok Settings.defaults) a (knownFrom a) line) := by
        unfold runLine
        split
        case isTrue => exact ends_pure trivial
        case isFalse =>
            exact (ends_workOn_cons line lines).bind fun _ _ => ends_pure trivial
      refine hline.bind fun more _ => ?_
      split
      case isTrue => exact ih.mono_error fun _ => AccidentAmong.cons
      case isFalse => exact ends_pure trivial

/-- The problems of a session: those of the command line, or else the lines of the input. -/
def problemsOf (a : Arguments) (input : String) : List String :=
  if a.problems.isEmpty then linesOf input else a.problems

theorem ends_session (a : Arguments) (input : String) :
    Ends (fun _ => True) (fun code => code = 0 ∨ code = 1) (AccidentAmong a (problemsOf a input))
      (session (.ok Settings.defaults) a input) := by
  have hdebug : Ends (fun _ => True) (fun _ => True) (AccidentAmong a (problemsOf a input))
      (lookUpDebug (.ok Settings.defaults) a) := by
    unfold lookUpDebug
    split
    case isTrue =>
        exact Ends.andThen (ends_pure trivial) fun _ => ends_pure trivial
    case isFalse => exact ends_pure trivial
  unfold session
  refine hdebug.bind fun _ _ => ?_
  unfold problemsOf
  dsimp only
  split
  case isTrue => exact (ends_runLines a _).bind fun _ _ => ends_pure (.inl rfl)
  case isFalse =>
      refine (ends_workOnAll a _).bind fun well _ => ends_pure ?_
      cases well with
      | true => exact .inl rfl
      | false => exact .inr rfl

/-- How a session ends that accounts for all of its problems. -/
inductive Accounts (argv : List String) (input : String) : Ending → Prop
  /-- The arguments are refused before any problem is looked at. -/
  | refused {why : Refusal} : Arguments.read argv = .error why → Accounts argv input (.refused why)
  /-- Every problem has been worked on. -/
  | finished {a : Arguments} {code : Nat} {t : Transcript} : Arguments.read argv = .ok a →
    code = 0 ∨ code = 1 → Accounts argv input (.finished code t)
  /-- One of the problems has ended in an accident. -/
  | failed {a : Arguments} {problem : String} {err : Error} : Arguments.read argv = .ok a →
    problem ∈ problemsOf a input → Accident a problem err.cause → Accounts argv input (.failed err)

/-- With the standard settings every session accounts for its problems. -/
theorem accounts_run (argv : List String) (input : String) :
    Accounts argv input (run (.ok Settings.defaults) argv input) := by
  unfold run
  split
  case h_1 why hwhy => exact .refused hwhy
  case h_2 a ha =>
      obtain ⟨-, hmeets⟩ := ends_session a input {} trivial
      cases hrun : (session (.ok Settings.defaults) a input).runFrom {} with
      | mk outcome t =>
          rw [hrun] at hmeets
          cases outcome with
          | ok code => exact .finished ha hmeets
          | error err =>
              obtain ⟨problem, hproblem, haccident⟩ := hmeets
              exact .failed ha hproblem haccident

end Console

end Reckoner
