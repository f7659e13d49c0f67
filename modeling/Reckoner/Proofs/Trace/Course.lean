import Reckoner.Proofs.Solve.Reports
import Reckoner.Proofs.Solve.Residual
import Reckoner.Proofs.Trace.Recording

/-!
# Courses in traces

The steps that the events of solving amount to recount how a solution came about: none for a check,
the root for a linear form, and otherwise one for each step of the iteration, each of which goes on
from the result of the one before, the first one from the first estimate.
-/

namespace Reckoner

open Reckoner.Action Display

namespace Trace

variable {digits : Datum} {count : Option Int}

/-! ## Steps -/

/-- The steps that the events amount to, each shown with the digits. -/
inductive Told (digits : Datum) : List SolveEvent → List Step → Prop
  | nil : Told digits [] []
  | silent {event : SolveEvent} {events : List SolveEvent} {steps : List Step}
      (silent : Step.ofEvent? digits event = none) (told : Told digits events steps) :
    Told digits (event :: events) steps
  | step {event : SolveEvent} {step : Step} {events : List SolveEvent} {steps : List Step}
      (shown : Step.ofEvent? digits event = some (.ok step)) (told : Told digits events steps) :
    Told digits (event :: events) (step :: steps)

theorem runFrom_addEvents_append {events : List SolveEvent} {steps : List Step}
    (h : Told digits events steps) (more : List SolveEvent) (past : List Step) :
    (addEvents (events ++ more)).runFrom ⟨digits, past⟩ =
      (addEvents more).runFrom ⟨digits, past ++ steps⟩ := by
  induction h generalizing past with
  | nil => rw [List.append_nil, List.nil_append]
  | silent hsilent _ ih =>
      rw [List.cons_append, runFrom_addEvents, hsilent]
      exact ih past
  | step hshown _ ih =>
      rw [List.cons_append, runFrom_addEvents, hshown]
      dsimp only
      rw [runFrom_bind, runFrom_addShown]
      dsimp only
      rw [ih, List.append_assoc, List.singleton_append]

/-- Either all of the events are told, or one behind some that are told cannot be shown. -/
theorem exists_told (digits : Datum) (events : List SolveEvent) :
    ∃ before steps, Told digits before steps ∧
      (events = before ∨ ∃ event after cause, events = before ++ event :: after ∧
        Step.ofEvent? digits event = some (.error cause)) := by
  induction events with
  | nil => exact ⟨[], [], .nil, .inl rfl⟩
  | cons event events ih =>
      obtain ⟨before, steps, htold, hrest⟩ := ih
      have hlonger : ∀ {known}, Told digits (event :: before) known →
          ∃ before steps, Told digits before steps ∧
            (event :: events = before ∨ ∃ last after cause,
              event :: events = before ++ last :: after ∧
              Step.ofEvent? digits last = some (.error cause)) := by
        intro known hknown
        obtain rfl | ⟨last, after, cause, rfl, hlast⟩ := hrest
        · exact ⟨_, known, hknown, .inl rfl⟩
        · exact ⟨_, known, hknown, .inr ⟨last, after, cause, rfl, hlast⟩⟩
      cases hstep : Step.ofEvent? digits event with
      | none => exact hlonger (.silent hstep htold)
      | some step =>
          cases step with
          | ok step => exact hlonger (.step hstep htold)
          | error cause => exact ⟨[], [], .nil, .inr ⟨event, events, cause, rfl, hstep⟩⟩

theorem Told.exists_last {events : List SolveEvent} {event : SolveEvent} {steps : List Step}
    {step : Except Cause Step} (hevent : Step.ofEvent? digits event = some step)
    (h : Told digits (events ++ [event]) steps) :
    ∃ front last, steps = front ++ [last] ∧ Told digits events front ∧ step = .ok last := by
  induction events generalizing steps with
  | nil =>
      cases h with
      | silent hsilent => rw [hevent] at hsilent; cases hsilent
      | step hshown htold =>
          cases htold
          exact ⟨[], _, rfl, .nil, Option.some.inj (hevent.symm.trans hshown)⟩
  | cons other events ih =>
      cases h with
      | silent hsilent htold =>
          obtain ⟨front, last, rfl, hfront, hlast⟩ := ih htold
          exact ⟨front, last, rfl, .silent hsilent hfront, hlast⟩
      | step hshown htold =>
          obtain ⟨front, last, rfl, hfront, hlast⟩ := ih htold
          exact ⟨_ :: front, last, rfl, .step hshown hfront, hlast⟩

/-! ## Courses -/

/-- The steps start from a value, and each of them has a result, from which the next one goes on. -/
inductive Leads (Joins : Datum → Step → Prop) (start : Datum) : List Step → Datum → Prop
  | start : Leads Joins start [] start
  | step {steps : List Step} {x y : Datum} {step : Step} (leads : Leads Joins start steps x)
      (joins : Joins x step) (result : step.result = .datum y) :
    Leads Joins start (steps ++ [step]) y

/-- A step of the iteration for one unknown, whose first operand is the value. -/
structure StartsFrom (x : Datum) (step : Step) : Prop where
  operation : step.operation = "newton"
  operand : step.operands.head? = some x

/-- A step of the iteration for several unknowns. -/
def IsTogether (_ : Datum) (step : Step) : Prop := step.operation = "newton-system"

/-- The step of a linear form: its result is the quotient of the constant, with the opposite sign,
by the factor, without an imaginary part that is negligible. -/
inductive IsRoot : Step → Scalar → Prop
  | quotient {step : Step} {factor constant quotient x : Scalar}
      (operation : step.operation = "linear")
      (operands : step.operands = [.number factor, .number constant])
      (result : step.result = .ofScalar x) (divided : constant.neg.div factor = .ok quotient)
      (settled : quotient.settle = .ok x) : IsRoot step x

/-- Doubles as a list of values. -/
def reals (xs : List Float) : List Datum := xs.map fun x => .number (.real x)

/-- The steps by which a method comes to values of the unknowns. -/
inductive Course (settings : Settings) (options : Options) : List Step → Method → Table Datum → Prop
  | check : Course settings options [] .check []
  | linear {name : String} {step : Step} {x : Scalar} (root : IsRoot step x) :
    Course settings options [step] .linear [(name, .number x)]
  | newton {name : String} {start x : Datum} {steps : List Step}
      (started : options.startValues settings [name] = .ok [start])
      (leads : Leads StartsFrom start steps x) : Course settings options steps .newton [(name, x)]
  | newtonSystem {names : List String} {items : List Datum} {first last : List Float}
      {steps : List Step} {values : Table Datum}
      (started : options.startValues settings names = .ok items)
      (converted : items.mapM Datum.toFloat = .ok first)
      (leads : Leads IsTogether (.list (reals first)) steps (.list (reals last)))
      (named : values = .ofPairs (names.zip (reals last)))
      (inOrder : names.Nodup → values.map Prod.snd = reals last) :
    Course settings options steps .newtonSystem values

/-- What the steps say of an outcome: the method of a solution came to its values by them, with one
step for each iteration, or some method got so far before the failure. -/
inductive Tells (settings : Settings) (options : Options) (steps : List Step) :
    Except Error (Solution Datum) → Prop
  | solution {s : Solution Datum} (course : Course settings options steps s.method s.values)
      (counted : s.method = .newton ∨ s.method = .newtonSystem → s.iterations = steps.length) :
    Tells settings options steps (.ok s)
  | failure {err : Error} {method : Method} {values : Table Datum}
      (course : Course settings options steps method values) :
    Tells settings options steps (.error err)

/-- The steps tell of the outcome with the options that there are; without options there are no
steps. -/
inductive Recounts (settings : Settings) (given overrides : Table Datum) (steps : List Step) :
    Except Error (Solution Datum) → Prop
  | built {options : Options} {outcome : Except Error (Solution Datum)}
      (built : Options.build settings given overrides = .ok options)
      (tells : Tells settings options steps outcome) : Recounts settings given overrides steps outcome
  | unbuilt {cause : Cause} (unbuilt : Options.build settings given overrides = .error cause)
      (none : steps = []) : Recounts settings given overrides steps (.error (.of cause))

/-! ## Steps of events -/

theorem ofRoot_eq_ok {name : String} {f : LinearForm Scalar} {x : Scalar} {step : Step}
    (h : Step.ofRoot digits name f x = .ok step) :
    step.operation = "linear" ∧ step.operands = [.number f.factor, .number f.constant] ∧
      step.result = .ofScalar x := by
  unfold Step.ofRoot at h
  obtain ⟨_, -, h⟩ := exists_of_bind_eq_ok h
  obtain ⟨_, -, h⟩ := exists_of_bind_eq_ok h
  obtain ⟨_, -, h⟩ := exists_of_bind_eq_ok h
  cases h
  exact ⟨rfl, rfl, rfl⟩

theorem ofNewton_eq_ok {name : String} {start : Estimate} {s : NewtonStep Scalar} {step : Step}
    (h : Step.ofNewton digits name start s = .ok step) :
    StartsFrom (.ofEstimate start) step ∧ step.result = .ofScalar s.next := by
  unfold Step.ofNewton at h
  obtain ⟨_, -, h⟩ := exists_of_bind_eq_ok h
  obtain ⟨_, -, h⟩ := exists_of_bind_eq_ok h
  obtain ⟨_, -, h⟩ := exists_of_bind_eq_ok h
  obtain ⟨_, -, h⟩ := exists_of_bind_eq_ok h
  cases h
  exact ⟨⟨rfl, rfl⟩, rfl⟩

theorem ofSystem_eq_ok {names : List String} {s : SystemStep Float} {step : Step}
    (h : Step.ofSystem digits names s = .ok step) (x : Datum) :
    IsTogether x step ∧ step.result = .datum (.list (reals s.next)) := by
  unfold Step.ofSystem at h
  obtain ⟨_, -, h⟩ := exists_of_bind_eq_ok h
  cases h
  exact ⟨rfl, rfl⟩

theorem isRoot_of_told {name : String} {form : LinearForm Scalar} {x : Scalar} {steps : List Step}
    (hroot : Unknown.IsRoot form x)
    (h : Told digits [.form name form, .root name form x] steps) :
    ∃ step, steps = [step] ∧ IsRoot step x := by
  obtain ⟨quotient, hquotient, hsettled⟩ := exists_of_bind_eq_ok hroot.root
  cases h with
  | step hshown => cases hshown
  | silent _ htold =>
  cases htold with
  | silent hsilent => cases hsilent
  | @step _ step _ _ hshown htold =>
  cases htold
  obtain ⟨hoperation, hoperands, hresult⟩ := ofRoot_eq_ok (Option.some.inj hshown)
  exact ⟨step, rfl, .quotient hoperation hoperands hresult (mapError_eq_ok hquotient)
    (mapError_eq_ok hsettled)⟩

/-- By induction on the row of the steps. -/
theorem leads_of_path {o : Newton.Objective Scalar} {options : Options} {name : String}
    {made : List (NewtonStep Scalar)} {first x : Scalar} (hpath : o.Path first made x)
    {steps : List Step}
    (h : Told digits
      (made.map fun s => .step name (options.estimateAt (s.iteration - 1) s.estimate) s) steps) :
    Leads StartsFrom (.ofEstimate (options.estimateAt 0 first)) steps
        (.ofEstimate (options.estimateAt made.length x)) ∧ steps.length = made.length := by
  induction hpath generalizing steps with
  | start => cases h; exact ⟨.start, rfl⟩
  | @step made x s _ hadvances ih =>
      rw [List.map_append] at h
      obtain ⟨front, last, rfl, hfront, hlast⟩ := h.exists_last rfl
      obtain ⟨hleads, hlength⟩ := ih hfront
      obtain ⟨hstarts, hresult⟩ := ofNewton_eq_ok hlast
      rw [hadvances.iteration, Nat.add_sub_cancel, hadvances.estimate] at hstarts
      rw [List.length_append, List.length_append, hlength]
      exact ⟨hleads.step hstarts hresult, rfl⟩

/-- By induction on the row of the steps. -/
theorem leads_of_pathTogether {n : NewtonSystem (List SolveEvent) Float}
    {f : List Float → Except Error (List Float)} {names : List String}
    {made : List (SystemStep Float)} {first last : List Float}
    (hpath : NewtonSystem.Path n f first made last) {steps : List Step}
    (h : Told digits (made.map (.systemStep names)) steps) :
    Leads IsTogether (.list (reals first)) steps (.list (reals last)) ∧
      steps.length = made.length := by
  induction hpath generalizing steps with
  | start => cases h; exact ⟨.start, rfl⟩
  | @step made x s _ hadvances ih =>
      rw [List.map_append] at h
      obtain ⟨front, last, rfl, hfront, hlast⟩ := h.exists_last rfl
      obtain ⟨hleads, hlength⟩ := ih hfront
      obtain ⟨htogether, hresult⟩ := ofSystem_eq_ok hlast _
      rw [List.length_append, List.length_append, hlength]
      exact ⟨hleads.step htogether hresult, rfl⟩

/-! ## First estimates -/

/-- First estimates in order or by name are numbers; any other is the same for all unknowns. -/
theorem startValues_eq_ok {options : Options} {settings : Settings} {names : List String}
    {items : List Datum} (h : options.startValues settings names = .ok items) :
    (∀ d ∈ items, ∃ x : Scalar, d = .number x) ∧ (∀ b, options.guess ≠ .bool b) ∨
      items = names.map fun _ => options.guess := by
  have hinOrder {given : List (Except Cause Float)}
      (hgiven : (if given.length = names.length then
        given.mapM fun item => do return Datum.number (.real (← item))
      else .error (.guessCount names.length given.length)) = .ok items) :
      ∀ d ∈ items, ∃ x : Scalar, d = .number x := by
    split at hgiven
    case isFalse => cases hgiven
    case isTrue =>
        refine forall_of_mapM_eq_ok (fun item d hd => ?_) hgiven
        obtain ⟨x, -, hd⟩ := exists_of_bind_eq_ok hd
        exact ⟨.real x, (Except.ok.inj hd).symm⟩
  unfold Options.startValues at h
  split at h
  case h_1 entries hguess =>
      refine .inl ⟨?_, fun b hb => by rw [hguess] at hb; cases hb⟩
      obtain ⟨_, -, h⟩ := exists_of_bind_eq_ok h
      obtain ⟨standard, -, h⟩ := exists_of_bind_eq_ok h
      refine forall_of_mapM_eq_ok (fun name d hd => ?_) h
      split at hd
      case h_2 => exact ⟨_, (Except.ok.inj hd).symm⟩
      case h_1 given _ =>
          cases hgiven : given.toFloat with
          | error => rw [hgiven] at hd; cases hd
          | ok x => rw [hgiven] at hd; exact ⟨.real x, (Except.ok.inj hd).symm⟩
  case h_2 hguess => exact .inl ⟨hinOrder h, fun b hb => by rw [hguess] at hb; cases hb⟩
  case h_3 hguess => exact .inl ⟨hinOrder h, fun b hb => by rw [hguess] at hb; cases hb⟩
  case h_4 => exact .inr (Except.ok.inj h).symm

/-- The first estimate is what the number that the iteration starts from is made of. -/
theorem startValues_of_startValue {options : Options} {settings : Settings} {name : String}
    {first : Scalar} (h : options.startValue settings name = .ok first) :
    options.startValues settings [name] = .ok [.ofEstimate (options.estimateAt 0 first)] := by
  obtain ⟨items, hitems, h⟩ := exists_of_bind_eq_ok h
  obtain ⟨d, rfl⟩ := List.length_eq_one_iff.mp (Solve.length_startValues hitems)
  dsimp only at h
  split at h
  case h_2 => cases h
  case h_1 x hx =>
      obtain rfl : x = first := Except.ok.inj h
      rw [hitems]
      obtain ⟨hnumbers, hguess⟩ | hsame := startValues_eq_ok hitems
      · obtain ⟨y, rfl⟩ := hnumbers d List.mem_cons_self
        obtain rfl : y = x := Option.some.inj hx
        have hestimate : options.estimateAt 0 y = .number y := by
          unfold Options.estimateAt
          split
          case h_1 b _ hb => exact absurd hb (hguess b)
          case h_2 => rfl
        rw [hestimate]
        rfl
      · obtain rfl : d = options.guess := List.singleton_inj.mp hsame
        unfold Options.estimateAt
        split
        case h_1 b _ hb => rw [hb]; rfl
        case h_2 hnot =>
            cases hguess : options.guess with
            | number y => rw [hguess] at hx; cases hx; rfl
            | bool b => exact absurd hguess (hnot b rfl)
            | _ => rw [hguess] at hx; cases hx

end Trace

end Reckoner
