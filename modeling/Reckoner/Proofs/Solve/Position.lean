import Reckoner.Calculation
import Reckoner.Proofs.Scope.Failure
import Reckoner.Proofs.Solve.Errors

/-!
# Where evaluation and solving fail

None of the steps of evaluation and of solving gives an error a place of its own. So an error with a
place is one of those that the readings of texts are refused with: of the problem, of texts that
variables are bound to, of a derivative or of a first estimate. On its way it may only be given the
text of the problem, which is right for the problem alone.
-/

namespace Reckoner

open Reckoner.Action

/-- Errors without a place are among the errors. -/
def Unplaced (p : Error → Prop) : Prop := ∀ cause, p (.of cause)

variable {σ α β : Type} {p : Error → Prop}

theorem Unplaced.hasOwn (hp : Unplaced p) : HasOwn p := fun cause _ => hp cause

theorem Unplaced.mapError (hp : Unplaced p) (outcome : Except Cause β) :
    FailsOnly p (outcome.mapError .of) :=
  FailsOnly.mapError fun cause _ => hp cause

/-! ## Evaluation -/

section Evaluation

variable [Arithmetic α] {bindings : Table (Binding α)}

theorem Unplaced.nodesFailOnly (hp : Unplaced p) : Expr.NodesFailOnly α p where
  constant _ := hp _
  operator _ _ _ := hp.mapError _
  call _ _ := hp.mapError _
  blank := hp _
  foreign _ := hp _

theorem Unplaced.evaluationFailsOnly (hp : Unplaced p) : EvaluationFailsOnly α p where
  nodes := hp.nodesFailOnly
  adopt _ := hp.mapError _
  undefined _ := hp _
  circular _ := hp _

theorem failsOnly_meaning (hp : Unplaced p) (h : RefusedOnly p bindings) (name : String) :
    FailsOnly p (meaning bindings name) := hp.evaluationFailsOnly.failsOnly_meaning h name

theorem Expr.failsOnly_evaluate (hp : Unplaced p) (h : RefusedOnly p bindings) (e : Expr) :
    FailsOnly p (e.evaluate bindings) := hp.evaluationFailsOnly.failsOnly_evaluate h e

end Evaluation

/-! ## One equation -/

namespace Unknown

/-- What the equation reads is refused with none but the errors. -/
structure RefusedOnly (p : Error → Prop) (u : Unknown α) : Prop where
  bindings : Reckoner.RefusedOnly p u.bindings
  derivative : ∀ e, u.derivative? = some e → FailsOnly p e

variable {u : Unknown Scalar}

theorem RefusedOnly.partsFailOnly (hp : Unplaced p) (h : u.RefusedOnly p) : u.PartsFailOnly p where
  program := hp.hasOwn.failsOnly_ofExpr _ _
  form := Expr.failsOnly_collect hp.hasOwn fun other _ _ _ =>
    failsOnly_meaning hp (h.bindings.without _) other
  value e x := by
    have hnumber : FailsOnly p (Binding.expression u.name (.number x)) := failsOnly_error (hp _)
    exact e.failsOnly_evaluate hp ((h.bindings.without _).insert hnumber)
  derivative := failsOnly_derivativeProgram hp.hasOwn h.derivative
  start cause _ := hp cause

theorem RefusedOnly.openingFailsOnly (hp : Unplaced p) (h : u.RefusedOnly p) {start : Datum}
    (hstart : FailsOnly p (start.toBinding.expression u.name)) : u.OpeningFailsOnly p start where
  value e := e.failsOnly_evaluate hp ((h.bindings.without _).insert hstart)
  estimate := hp.hasOwn.failsOnly_estimate start

end Unknown

/-! ## Problems -/

namespace Solve

variable {settings : Settings} {options : Options} {known : Table Datum}

theorem failsOnly_checked (hp : Unplaced p) (found : List String) (d : Datum) :
    FailsOnly p (checked found d) := by
  have hplain : FailsOnly p d.plain := by
    cases d with
    | tree e => exact hp.hasOwn.failsOnly_print e
    | _ => exact failsOnly_ok _
  unfold checked
  split
  case h_1 =>
      split
      case isTrue => exact failsOnly_ok _
      case isFalse => exact failsOnly_error (hp _)
  case h_2 => exact hplain.bind fun _ _ => failsOnly_error (hp _)

theorem failsOnly_unknownOf (hp : Unplaced p) (residual : Expr) (known : Table Datum)
    (solveFor : Datum) : FailsOnly p (unknownOf residual known solveFor) := by
  unfold unknownOf
  dsimp only
  split
  case h_1 =>
      split
      case h_1 | h_2 => exact failsOnly_ok _
      case h_3 => exact failsOnly_error (hp _)
  case h_2 => exact (failsOnly_checked hp _ _).bind fun _ _ => failsOnly_pure _

/-- What solving reads besides the equation is refused with none but the errors. -/
structure RefusedOnly (p : Error → Prop) (options : Options) (known : Table Datum) : Prop where
  known : Reckoner.RefusedOnly p (Binding.ofData known)
  derivative : ∀ e, derivative? options.derivative = some e → FailsOnly p e
  guess : ∀ name, FailsOnly p (options.guess.toBinding.expression name)

theorem RefusedOnly.partsFailOnly (hp : Unplaced p) (h : RefusedOnly p options known)
    (e : Equation) : PartsFailOnly p settings options known e where
  name := failsOnly_unknownOf hp _ _ _
  check _ := by
    unfold Check.run
    rw [Expr.evaluateAllWith_eq_outcomesWith]
    refine (Expr.failsOnly_outcomesWith hp.nodesFailOnly (failsOnly_meaning hp h.known) _).bind
      fun _ _ => ?_
    exact (FailsOnly.mapError fun _ _ => hp _).bind fun _ _ => failsOnly_pure _
  codegen cause _ := hp cause
  parts _ _ := Unknown.RefusedOnly.partsFailOnly hp ⟨h.known, h.derivative⟩
  opening {name} _ _ :=
    Unknown.RefusedOnly.openingFailsOnly hp ⟨h.known, h.derivative⟩ (h.guess name)

/-- The errors of a text that is solved as an equation are given the text. -/
theorem errs_equationWith (hp : Unplaced p) (h : RefusedOnly p options known) {problem : String}
    (hproblem : FailsOnly p (Equation.ofText problem)) :
    Errs (fun err => ∃ found, p found ∧ err = found.within problem)
      (equationWith settings options known (.text problem)) := by
  have hsolving : Errs p (Action.ofExcept (Equation.ofDatum (.text problem)) >>=
      parsed settings options known) :=
    (errs_ofExcept hproblem).andThen fun e => errs_parsed hp.hasOwn (h.partsFailOnly hp e)
  intro events hevents
  refine ⟨trivial, Meets.mapError ?_⟩
  exact (hsolving events hevents).2.mono_error fun err herr => ⟨err, herr, rfl⟩

end Solve

/-- A derivative as the options take it: none, a text or a tree. -/
def Datum.IsSource : Datum → Prop
  | .null | .text _ | .tree _ => True
  | _ => False

namespace Calculation

variable {settings : Settings} {problem : String} {known given overrides : Table Datum}

/-- A text that is read on the way to a value or a solution: the problem, a text that a variable is
bound to, and a first estimate or a derivative that the options give as a text. -/
inductive Reads (settings : Settings) (problem : String) (known given overrides : Table Datum) :
    String → Prop
  | problem : Reads settings problem known given overrides problem
  | bound {name source : String} : (name, Datum.text source) ∈ known →
    Reads settings problem known given overrides source
  | option {options : Options} {source : String} :
    Options.build settings given overrides = .ok options →
    Datum.text source ∈ [options.guess, options.derivative] →
    Reads settings problem known given overrides source

/-- An error without a place, or one that the reading of a text is refused with. -/
def IsRefused (reads : String → Prop) (err : Error) : Prop :=
  err.position = none ∨ ∃ source, reads source ∧
    (Expr.ofText source = .error err ∨ Equation.ofText source = .error err)

section Refused

variable {reads : String → Prop}

theorem unplaced_isRefused : Unplaced (IsRefused reads) := fun _ => .inl rfl

theorem isRefused_ofText {source : String} (h : reads source) :
    FailsOnly (IsRefused reads) (Expr.ofText source) :=
  fun _ herr => .inr ⟨source, h, .inl herr⟩

theorem isRefused_toBinding {d : Datum} (h : ∀ source, d = .text source → reads source)
    (name : String) : FailsOnly (IsRefused reads) (d.toBinding.expression name) := by
  unfold Datum.toBinding
  split
  case h_1 source => exact isRefused_ofText (h source rfl)
  case h_2 => exact failsOnly_ok _
  case h_3 => split <;> exact failsOnly_error (unplaced_isRefused _)

theorem isRefused_ofData (h : ∀ name source, (name, Datum.text source) ∈ known → reads source) :
    RefusedOnly (IsRefused reads) (Binding.ofData known) := by
  intro name binding hfind
  rw [Binding.ofData, Table.find?_mapValues] at hfind
  obtain ⟨d, hd, rfl⟩ := Option.map_eq_some_iff.mp hfind
  exact isRefused_toBinding (fun source heq => h name source (heq ▸ Table.mem_of_find? hd)) name

theorem isRefused_derivative {d : Datum} (hd : d.IsSource)
    (h : ∀ source, d = .text source → reads source) {e : Except Error Expr}
    (he : Solve.derivative? d = some e) : FailsOnly (IsRefused reads) e := by
  cases d with
  | null => cases he
  | text source => cases he; exact isRefused_ofText (h source rfl)
  | tree => cases he; exact failsOnly_ok _
  | _ => exact hd.elim

end Refused

theorem refusedOnly_known :
    RefusedOnly (IsRefused (Reads settings problem known given overrides))
      (Binding.ofData known) := isRefused_ofData fun _ _ => .bound

theorem exists_isRefused_of_value {err : Error} (h : value (.text problem) known = .error err) :
    ∃ found, IsRefused (Reads settings problem known given overrides) found ∧
      err = found.within problem := by
  have hvalue : FailsOnly (IsRefused (Reads settings problem known given overrides))
      (Expr.ofText problem >>= fun e => e.evaluate (Binding.ofData known)) :=
    (isRefused_ofText .problem).bind fun e _ =>
      e.failsOnly_evaluate unplaced_isRefused refusedOnly_known
  have hlocated : FailsOnly (fun err => ∃ found, IsRefused _ found ∧ err = found.within problem)
      (value (.text problem) known) :=
    (hvalue.mono fun found hfound => ⟨found, hfound, rfl⟩).mapError
  exact hlocated err h

/-- Errors of the options themselves have no place. -/
theorem exists_isRefused_of_equation {err : Error} {events : List SolveEvent} {position : Int}
    (hderivative : ∀ options, Options.build settings given overrides = .ok options →
      options.derivative.IsSource)
    (h : ((Solve.equation settings (.text problem) known given overrides).runFrom events).1 =
      .error err) (hposition : err.position = some position) :
    ∃ found, IsRefused (Reads settings problem known given overrides) found ∧
      err = found.within problem := by
  unfold Solve.equation at h
  rw [runFrom_bind] at h
  cases hbuild : Options.build settings given overrides with
  | error cause =>
      rw [hbuild] at h
      cases h
      cases hposition
  | ok options =>
      rw [hbuild] at h
      have hrefused : Solve.RefusedOnly
          (IsRefused (Reads settings problem known given overrides)) options known := {
        known := refusedOnly_known
        derivative := fun e he => isRefused_derivative (hderivative options hbuild)
          (fun source heq => .option hbuild (by simp [heq])) he
        guess := isRefused_toBinding fun source heq => .option hbuild (by simp [heq]) }
      have hproblem : FailsOnly (IsRefused (Reads settings problem known given overrides))
          (Equation.ofText problem) := fun _ herr => .inr ⟨problem, .problem, .inr herr⟩
      exact (Solve.errs_equationWith unplaced_isRefused hrefused hproblem events
        trivial).2.failsOnly err h

/-- An error with a place, at the value of a text or at its solution as an equation, is one that a
text is refused with which is read on the way. If the text is refused in its plain notation, then
this is the text of the error, and the place is in it or right behind it. If already its LaTeX is
refused, then the place is in the text or right behind it, but the text of the error is the
problem, whatever text it was. -/
theorem placed_of_error {err : Error} {text : String} {position : Int}
    (h : value (.text problem) known = .error err ∨
      (∀ options, Options.build settings given overrides = .ok options →
        options.derivative.IsSource) ∧
      ∃ events, ((Solve.equation settings (.text problem) known given overrides).runFrom events).1 =
        .error err)
    (htext : err.equation = some text) (hposition : err.position = some position) :
    ∃ source found, Reads settings problem known given overrides source ∧
      (Expr.ofText source = .error found ∨ Equation.ofText source = .error found) ∧
      err = found.within problem ∧
      (Latex.plainOf source = .ok text ∧ 0 ≤ position ∧ position ≤ text.length ∨
        Latex.plainOf source = .error found ∧ text = problem ∧
          0 ≤ position ∧ position ≤ source.length) := by
  obtain ⟨found, hfound, rfl⟩ :
      ∃ found, IsRefused (Reads settings problem known given overrides) found ∧
        err = found.within problem := by
    rcases h with h | ⟨hderivative, events, h⟩
    · exact exists_isRefused_of_value h
    · exact exists_isRefused_of_equation hderivative h hposition
  rw [Error.position_within] at hposition
  obtain hnone | ⟨source, hreads, herror⟩ := hfound
  · rw [hnone] at hposition
    cases hposition
  refine ⟨source, found, hreads, herror, rfl, ?_⟩
  have hrefusal := herror.elim Expr.isRefusalOf_of_ofText Equation.isRefusalOf_of_ofText
  obtain ⟨hplain, hwithin⟩ | ⟨plain, hplain, hin⟩ := hrefusal
  · right
    obtain ⟨place, hplace, hbounds⟩ := hwithin.position
    cases hplace.symm.trans hposition
    rw [hwithin.equation_within] at htext
    cases htext
    exact ⟨hplain, rfl, hbounds⟩
  · left
    obtain ⟨place, hplace, hbounds⟩ := hin.position
    cases hplace.symm.trans hposition
    rw [hin.within_eq, hin.equation] at htext
    cases htext
    exact ⟨hplain, hbounds⟩

/-- A variable is bound to LaTeX in which a brace is not closed. -/
private def unclosed : Table Datum := [("x", .text "1+\\frac\x7b1")]

theorem placed_of_error_unclosed :
    ∃ err, value (.text "x") unclosed = .error err ∧ err.equation = some "x" ∧
      err.position = some 7 ∧
      ∃ source found, Reads (.ok Settings.defaults) "x" unclosed [] [] source ∧
        (Expr.ofText source = .error found ∨ Equation.ofText source = .error found) ∧
        err = found.within "x" ∧ Latex.plainOf source = .error found ∧ 7 ≤ source.length := by
  have hplace : (match value (.text "x") unclosed with
      | .error err => (err.equation, err.position)
      | .ok _ => (none, none)) = (some "x", some 7) := by decide +kernel
  cases hvalue : value (.text "x") unclosed with
  | ok v =>
      rw [hvalue] at hplace
      cases hplace
  | error err =>
      rw [hvalue] at hplace
      obtain ⟨htext, hposition⟩ := Prod.mk.inj hplace
      refine ⟨err, rfl, htext, hposition, ?_⟩
      obtain ⟨source, found, hreads, herror, hwithin, ⟨-, -, hhigh⟩ | ⟨hplain, -, -, hhigh⟩⟩ :=
        placed_of_error (.inl hvalue) htext hposition
      · exact absurd hhigh (by decide)
      · exact ⟨source, found, hreads, herror, hwithin, hplain, by exact_mod_cast hhigh⟩

end Calculation

end Reckoner
