import Reckoner.Proofs.Failure
import Reckoner.Proofs.Solve.Finite

/-!
# The course of Newton's iteration

For a residual and a derivative that are functions, the iteration is a row of steps, each taken
notice of, and then one outcome. The row is what every round keeps: each step starts where the one
before has led to, from a finite residual that is not small enough and with a slope that is finite
and not zero, within both limits. A step that is small enough is followed by another evaluation of
the residual, and if the value is not finite the next round finds the same. So this evaluation is
never in front of the limit, and the evaluations that count are those of the steps.
-/

namespace Reckoner

open Reckoner.Action

theorem Limits.failsOnly_exceededBy {α : Type} (limits : Limits α) (count : Nat) :
    FailsOnly (fun cause => ∃ kind, cause = .notOrdered ">" "int" kind)
      (limits.exceededBy count) := by
  unfold exceededBy
  split
  case h_1 => exact failsOnly_ok _
  case h_2 limit _ =>
      split
      case h_1 => exact failsOnly_error ⟨_, rfl⟩
      case h_2 => exact failsOnly_error ⟨_, rfl⟩
      case h_3 => exact failsOnly_ok _

namespace Newton

/-- A function to find a zero of, its derivative, if it is given, and when to stop. -/
structure Objective (α : Type) where
  value : α → Except Error α
  derivative? : Option (α → Except Error α)
  limits : Limits α

namespace Objective

variable {σ α : Type} [Numeric α] (p : Objective α)

/-- The iteration for the function. -/
def newton (note : NewtonStep α → Action σ Unit) : Newton σ α where
  value x := Action.ofExcept (p.value x)
  derivative? := p.derivative?.map fun d x => Action.ofExcept (d x)
  note := note
  limits := p.limits

/-- The quotient of the difference of the function over a small interval around a point. -/
def centralDifference (x : α) : Except Error α := do
  let size ← (Numeric.abs x).mapError Fault.toError
  let greater := Numeric.greater (Arithmetic.number 1.0) size
  let h ← (Numeric.mul (Arithmetic.number relativeStep) greater).mapError Fault.toError
  let above ← p.value (← (Numeric.add x h).mapError Fault.toError)
  let below ← p.value (← (Numeric.sub x h).mapError Fault.toError)
  Except.mapError Fault.toError do
    Numeric.div (← Numeric.sub above below) (← Numeric.mul (Arithmetic.number 2.0) h)

/-- The slope at a point. -/
def slope (x : α) : Except Error α :=
  match p.derivative? with
  | some derivative => derivative x
  | none => p.centralDifference x

/-- How many evaluations a step takes: the residual and the slope. -/
def stepCost : Nat := 1 + if p.derivative?.isSome then 1 else 2

variable {note : NewtonStep α → Action σ Unit}

theorem slopeAt_newton (x : α) : (p.newton note).slopeAt x = Action.ofExcept (p.slope x) := by
  unfold slopeAt slope newton
  cases p.derivative? with
  | some derivative => rfl
  | none =>
      simp only [Option.map_none, differenceQuotient, centralDifference, ofFault, ofExcept_bind]

omit [Numeric α] in
theorem slopeCost_newton : 1 + (p.newton note).slopeCost = p.stepCost := by
  rw [slopeCost, stepCost, newton, Option.isSome_map]

end Objective

/-! ## The parts of a round -/

section Round

variable {σ α : Type} [Numeric α] (n : Newton σ α)

/-- What follows a step that has been taken notice of. -/
def arrive (left done evaluations : Nat) (step next : α) : Action σ (Ending α) := do
  if !(← Action.ofFault (Numeric.isFinite next)) then return .diverged done
  if ← Action.ofFault (isSmall step n.limits.stepTolerance) then do
    let last ← n.value next
    if ← Action.ofFault (Numeric.isFinite last) then
      return .converged next done (← Action.ofFault (Numeric.abs last))
    else n.iterate left done (evaluations + 1) next
  else n.iterate left done evaluations next

/-- What follows a residual that is finite and not small enough. -/
def move (left done evaluations : Nat) (x residual : α) : Action σ (Ending α) :=
  match left with
  | 0 => return .exhausted x done
  | left + 1 => do
    if ← Action.ofCause (n.limits.exceededBy (evaluations + n.slopeCost)) then
      return .exhausted x done
    let slope ← n.slopeAt x
    if Numeric.isZero slope then return .flat x done
    if !(← Action.ofFault (Numeric.isFinite slope)) then return .slopeNotFinite x done
    let step ← Action.ofFault (Numeric.div residual slope)
    let next ← Action.ofFault (Numeric.sub x step)
    n.note ⟨done + 1, x, residual, slope, next⟩
    n.arrive left (done + 1) (evaluations + n.slopeCost) step next

theorem iterate_eq (left done evaluations : Nat) (x : α) :
    n.iterate left done evaluations x = (do
      let residual ← n.value x
      if !(← Action.ofFault (Numeric.isFinite residual)) then return .residualNotFinite x done
      let size ← Action.ofFault (Numeric.abs residual)
      if Numeric.less size n.limits.tolerance then return .converged x done size
      n.move left done (evaluations + 1) x residual) := by
  rw [iterate]
  cases left <;> rfl

end Round

namespace Objective

variable {σ α : Type} [Numeric α] (p : Objective α)

/-! ## Steps -/

/-- The residual at a point has a size, and it is finite. -/
structure Measures (x residual size : α) : Prop where
  value : p.value x = .ok residual
  finite : Numeric.isFinite residual = .ok true
  size : Numeric.abs residual = .ok size

/-- The step is smaller than the last one has to be. -/
def IsShort (s : NewtonStep α) : Prop :=
  ∃ step, Numeric.div s.residual s.slope = .ok step ∧
    isSmall step p.limits.stepTolerance = .ok true

/-- After so many steps another one is in reach of both limits. -/
structure Allows (steps : Nat) : Prop where
  iterations : (steps : Int) < p.limits.iterations
  evaluations : p.limits.exceededBy ((steps + 1) * p.stepCost) = .ok false

/-- After some steps, which have led to an estimate, a further one is made. -/
structure Advances (steps : List (NewtonStep α)) (x : α) (s : NewtonStep α) : Prop where
  iteration : s.iteration = steps.length + 1
  estimate : s.estimate = x
  finite : steps ≠ [] → Numeric.isFinite x = .ok true
  large : ∃ size, p.Measures x s.residual size ∧ Numeric.less size p.limits.tolerance = false
  allowed : p.Allows steps.length
  slope : p.slope x = .ok s.slope
  nonzero : Numeric.isZero s.slope = false
  slopeFinite : Numeric.isFinite s.slope = .ok true
  next : ∃ step, Numeric.div s.residual s.slope = .ok step ∧ Numeric.sub x step = .ok s.next

/-- The steps lead from the first estimate to another one. -/
inductive Path (first : α) : List (NewtonStep α) → α → Prop
  | start : Path first [] first
  | step {steps : List (NewtonStep α)} {x : α} {s : NewtonStep α} (path : Path first steps x)
      (advances : p.Advances steps x s) : Path first (steps ++ [s]) s.next

/-- The function, or the derivative that is given, has no value somewhere, for this reason. -/
def Raises (err : Error) : Prop :=
  ∃ x, p.value x = .error err ∨ ∃ derivative ∈ p.derivative?, derivative x = .error err

/-- How the iteration may come to its end after some steps, which have led to an estimate. -/
inductive Stops (steps : List (NewtonStep α)) (x : α) : Except Error (Ending α) → Prop
  | small {residual size : α} (measured : p.Measures x residual size)
      (finite : steps ≠ [] → Numeric.isFinite x = .ok true)
      (small : Numeric.less size p.limits.tolerance = true) :
      Stops steps x (.ok (.converged x steps.length size))
  | short {residual size : α} {s : NewtonStep α} (measured : p.Measures x residual size)
      (finite : Numeric.isFinite x = .ok true) (last : s ∈ steps.getLast?) (short : p.IsShort s) :
      Stops steps x (.ok (.converged x steps.length size))
  | exhausted
      (limit : p.limits.iterations ≤ steps.length ∨
        p.limits.exceededBy ((steps.length + 1) * p.stepCost) = .ok true) :
      Stops steps x (.ok (.exhausted x steps.length))
  | flat {derivative : α} (slope : p.slope x = .ok derivative)
      (zero : Numeric.isZero derivative = true) :
      Stops steps x (.ok (.flat x steps.length))
  | residual {residual : α} (value : p.value x = .ok residual)
      (infinite : Numeric.isFinite residual = .ok false) :
      Stops steps x (.ok (.residualNotFinite x steps.length))
  | slope {derivative : α} (slope : p.slope x = .ok derivative)
      (infinite : Numeric.isFinite derivative = .ok false) :
      Stops steps x (.ok (.slopeNotFinite x steps.length))
  | diverged (moved : steps ≠ []) (infinite : Numeric.isFinite x = .ok false) :
      Stops steps x (.ok (.diverged steps.length))
  | raised {err : Error} (raises : p.Raises err) : Stops steps x (.error err)
  | fault (fault : Fault) : Stops steps x (.error fault.toError)
  | incomparable (kind : String) : Stops steps x (.error (.of (.notOrdered ">" "int" kind)))

/-- After some steps the computation makes further ones, each of which it takes notice of, and comes
to an end. -/
def Ends (first : α) (note : NewtonStep α → Action σ Unit) (past : List (NewtonStep α))
    (a : Action σ (Ending α)) : Prop :=
  ∃ steps x outcome, a = (do forM steps note; Action.ofExcept outcome) ∧
    p.Path first (past ++ steps) x ∧ p.Stops (past ++ steps) x outcome

variable {p} {first x : α} {note : NewtonStep α → Action σ Unit} {past : List (NewtonStep α)}

theorem Path.length_le {steps : List (NewtonStep α)} (h : p.Path first steps x) :
    steps.length ≤ p.limits.iterations.toNat := by
  cases h with
  | start => exact Nat.zero_le _
  | step _ hadvances =>
      have := hadvances.allowed.iterations
      rw [List.length_append, List.length_singleton]
      omega

theorem ends_of_stops {outcome : Except Error (Ending α)} (hpath : p.Path first past x)
    (h : p.Stops past x outcome) : p.Ends first note past (Action.ofExcept outcome) :=
  ⟨[], x, outcome, rfl, by rwa [List.append_nil], by rwa [List.append_nil]⟩

theorem Ends.noted {s : NewtonStep α} {a : Action σ (Ending α)}
    (h : p.Ends first note (past ++ [s]) a) :
    p.Ends first note past (do note s; a) := by
  obtain ⟨steps, x, outcome, rfl, hpath, hstops⟩ := h
  rw [List.append_assoc, List.singleton_append] at hpath hstops
  exact ⟨s :: steps, x, outcome, by rw [List.forM_cons, bind_assoc], hpath, hstops⟩

theorem ends_pure {ending : Ending α} (hpath : p.Path first past x)
    (h : p.Stops past x (.ok ending)) : p.Ends first note past (pure ending : Action σ _) :=
  ends_of_stops hpath h

/-! ## Parts of a round -/

/-- What goes on behind an outcome comes to an end if it does so behind every answer. -/
theorem ends_bind {β : Type} {outcome : Except Error β} {f : β → Action σ (Ending α)}
    (hpath : p.Path first past x)
    (herror : FailsOnly (fun err => p.Stops past x (.error err)) outcome)
    (hok : ∀ v, outcome = .ok v → p.Ends first note past (f v)) :
    p.Ends first note past (Action.ofExcept outcome >>= f) := by
  cases outcome with
  | error err => exact ends_of_stops hpath (herror err rfl)
  | ok v => exact hok v rfl

theorem ends_ofFault {β : Type} {outcome : Except Fault β} {f : β → Action σ (Ending α)}
    (hpath : p.Path first past x) (hok : ∀ v, outcome = .ok v → p.Ends first note past (f v)) :
    p.Ends first note past (Action.ofFault outcome >>= f) :=
  ends_bind hpath (FailsOnly.mapError fun fault _ => .fault fault)
    fun v hv => hok v (mapError_eq_ok hv)

theorem ends_limit {f : Bool → Action σ (Ending α)} (hpath : p.Path first past x)
    (hok : ∀ exceeded, p.limits.exceededBy ((past.length + 1) * p.stepCost) = .ok exceeded →
      p.Ends first note past (f exceeded)) :
    p.Ends first note past
      (Action.ofCause (p.limits.exceededBy ((past.length + 1) * p.stepCost)) >>= f) :=
  ends_bind hpath
    ((p.limits.failsOnly_exceededBy _).mono fun _ ⟨kind, hcause⟩ =>
      hcause ▸ .incomparable kind).mapError
    fun v hv => hok v (mapError_eq_ok hv)

theorem ends_value {y : α} {f : α → Action σ (Ending α)} (hpath : p.Path first past x)
    (hok : ∀ v, p.value y = .ok v → p.Ends first note past (f v)) :
    p.Ends first note past ((p.newton note).value y >>= f) :=
  ends_bind hpath (fun _ herror => .raised ⟨y, .inl herror⟩) hok

theorem failsOnly_slope {steps : List (NewtonStep α)} :
    FailsOnly (fun err => p.Stops steps x (.error err)) (p.slope x) := by
  have hvalue (y : α) : FailsOnly (fun err => p.Stops steps x (.error err)) (p.value y) :=
    fun _ herror => .raised ⟨y, .inl herror⟩
  have hfault {β : Type} (outcome : Except Fault β) :
      FailsOnly (fun err => p.Stops steps x (.error err)) (outcome.mapError Fault.toError) :=
    FailsOnly.mapError fun fault _ => .fault fault
  unfold slope
  split
  case h_1 derivative hderivative =>
      exact fun _ herror => .raised ⟨x, .inr ⟨derivative, hderivative, herror⟩⟩
  case h_2 =>
      refine (hfault _).bind fun size _ => (hfault _).bind fun h _ => ?_
      refine (hfault _).bind fun _ _ => (hvalue _).bind fun above _ => ?_
      exact (hfault _).bind fun _ _ => (hvalue _).bind fun below _ => hfault _

theorem ends_slope {f : α → Action σ (Ending α)} (hpath : p.Path first past x)
    (hok : ∀ d, p.slope x = .ok d → p.Ends first note past (f d)) :
    p.Ends first note past ((p.newton note).slopeAt x >>= f) := by
  rw [slopeAt_newton]
  exact ends_bind hpath failsOnly_slope hok

/-! ## Rounds -/

theorem ends_move {left evaluations : Nat} {residual size : α} (hpath : p.Path first past x)
    (hfinite : past ≠ [] → Numeric.isFinite x = .ok true)
    (hleft : past.length + left = p.limits.iterations.toNat)
    (hcount : evaluations = past.length * p.stepCost + 1) (hmeasured : p.Measures x residual size)
    (hlarge : Numeric.less size p.limits.tolerance = false)
    (harrive : ∀ rest s step, left = rest + 1 → p.Advances past x s →
      Numeric.div s.residual s.slope = .ok step →
      p.Ends first note (past ++ [s]) ((p.newton note).arrive rest (past.length + 1)
        ((past.length + 1) * p.stepCost) step s.next)) :
    p.Ends first note past ((p.newton note).move left past.length evaluations x residual) := by
  cases left with
  | zero => exact ends_pure hpath (.exhausted (.inl (by omega)))
  | succ rest =>
  have hcost : evaluations + (p.newton note).slopeCost = (past.length + 1) * p.stepCost := by
    rw [hcount, Nat.add_assoc, slopeCost_newton, Nat.succ_mul]
  rw [move, hcost]
  refine ends_limit hpath fun exceeded hexceeded => ?_
  cases exceeded with
  | true => exact ends_pure hpath (.exhausted (.inr hexceeded))
  | false =>
  refine ends_slope hpath fun derivative hslope => ?_
  cases hzero : Numeric.isZero derivative with
  | true => exact ends_pure hpath (.flat hslope hzero)
  | false =>
  refine ends_ofFault hpath fun finite hslopeFinite => ?_
  cases finite with
  | false => exact ends_pure hpath (.slope hslope hslopeFinite)
  | true =>
  refine ends_ofFault hpath fun step hstep => ?_
  refine ends_ofFault hpath fun next hnext => ?_
  have hadvances : p.Advances past x ⟨past.length + 1, x, residual, derivative, next⟩ := {
    iteration := rfl
    estimate := rfl
    finite := hfinite
    large := ⟨size, hmeasured, hlarge⟩
    allowed := ⟨by omega, hexceeded⟩
    slope := hslope
    nonzero := hzero
    slopeFinite := hslopeFinite
    next := ⟨step, hstep, hnext⟩ }
  exact (harrive rest _ step rfl hadvances hstep).noted

/-- A step that is small enough ends the iteration, unless the residual behind it is not finite. -/
theorem ends_arrive {left : Nat} {s : NewtonStep α} {step : α} (hpath : p.Path first past s.next)
    (hlast : s ∈ past.getLast?) (hstep : Numeric.div s.residual s.slope = .ok step)
    (hiterate : ∀ evaluations, Numeric.isFinite s.next = .ok true →
      (evaluations = past.length * p.stepCost ∨
        ∃ v, p.value s.next = .ok v ∧ Numeric.isFinite v = .ok false) →
      p.Ends first note past ((p.newton note).iterate left past.length evaluations s.next)) :
    p.Ends first note past
      ((p.newton note).arrive left past.length (past.length * p.stepCost) step s.next) := by
  rw [arrive]
  refine ends_ofFault hpath fun finite hnext => ?_
  cases finite with
  | false =>
      have hne : past ≠ [] := List.ne_nil_of_mem (List.mem_of_getLast? hlast)
      exact ends_pure hpath (.diverged hne hnext)
  | true =>
  refine ends_ofFault hpath fun short hshort => ?_
  cases short with
  | false => exact hiterate _ hnext (.inl rfl)
  | true =>
  refine ends_value hpath fun residual hvalue => ?_
  refine ends_ofFault hpath fun finite hfinite => ?_
  cases finite with
  | false => exact hiterate _ hnext (.inr ⟨residual, hvalue, hfinite⟩)
  | true =>
  refine ends_ofFault hpath fun size hsize => ?_
  exact ends_pure hpath (.short ⟨hvalue, hfinite, hsize⟩ hnext hlast ⟨step, hstep, hshort⟩)

/-- Every round keeps the row of the steps, and the count of the evaluations unless the residual is
known not to be finite. -/
theorem ends_iterate {left evaluations : Nat} (hpath : p.Path first past x)
    (hfinite : past ≠ [] → Numeric.isFinite x = .ok true)
    (hleft : past.length + left = p.limits.iterations.toNat)
    (hcount : evaluations = past.length * p.stepCost ∨
      ∃ v, p.value x = .ok v ∧ Numeric.isFinite v = .ok false) :
    p.Ends first note past ((p.newton note).iterate left past.length evaluations x) := by
  induction left using Nat.strongRecOn generalizing past x evaluations with
  | ind left ih =>
  rw [iterate_eq]
  refine ends_value hpath fun residual hvalue => ?_
  refine ends_ofFault hpath fun finite hresidual => ?_
  cases finite with
  | false => exact ends_pure hpath (.residual hvalue hresidual)
  | true =>
  have hcount : evaluations = past.length * p.stepCost := by
    refine hcount.resolve_right ?_
    rintro ⟨v, hv, hinfinite⟩
    cases hvalue.symm.trans hv
    cases hresidual.symm.trans hinfinite
  refine ends_ofFault hpath fun size hsize => ?_
  have hmeasured : p.Measures x residual size := ⟨hvalue, hresidual, hsize⟩
  cases hsmall : Numeric.less size p.limits.tolerance with
  | true =>
      simp only [newton, hsmall, if_true]
      exact ends_pure hpath (.small hmeasured hfinite hsmall)
  | false =>
  simp only [newton, hsmall]
  refine ends_move hpath hfinite hleft (congrArg (· + 1) hcount) hmeasured hsmall ?_
  rintro rest s step rfl hadvances hstep
  have hlength : (past ++ [s]).length = past.length + 1 := List.length_append
  rw [← hlength]
  refine ends_arrive (hpath.step hadvances) (by simp) hstep fun evaluations hnext hcount => ?_
  exact ih rest (Nat.lt_succ_self rest) (hpath.step hadvances) (fun _ => hnext) (by omega) hcount

/-- The iteration takes notice of one step after the other, of no more than are allowed, and comes
to an end where they have led to. -/
theorem exists_course (p : Objective α) (note : NewtonStep α → Action σ Unit) (first : α) :
    ∃ steps x outcome,
      (p.newton note).run first = (do forM steps note; Action.ofExcept outcome) ∧
      p.Path first steps x ∧ p.Stops steps x outcome :=
  ends_iterate (.start : p.Path first [] first) (absurd rfl) (Nat.zero_add _) (.inl (Nat.zero_mul _).symm)

end Objective

end Newton

namespace Unknown

variable {σ α : Type} [Numeric α]

/-- The equation as a function of its unknown, with a derivative that is given. -/
def objective (u : Unknown α) (p : Program α) (derivative? : Option (Program α)) :
    Newton.Objective α where
  value := u.function p
  derivative? := derivative?.map u.function
  limits := u.limits

theorem solveNewton_eq (u : Unknown α) (observer : Observer σ α) (p : Program α) :
    u.solveNewton observer p = (do
      let derivative? ← Action.ofExcept u.derivativeProgram
      let start ← Action.ofCause u.start
      ((u.objective p derivative?).newton observer.step).run start) := by
  simp only [solveNewton, Newton.Objective.newton, objective, Option.map_map]
  rfl

end Unknown

namespace Newton.Objective

variable {σ : Type} {p : Objective Scalar} {steps : List (NewtonStep Scalar)} {x first : Scalar}
  {name : String} {estimate : Nat → Scalar → Estimate} {ending : Except Error (Ending Scalar)}

/-- The solution or the error at the end of the iteration. -/
def search (p : Objective Scalar) (note : NewtonStep Scalar → Action σ Unit) (name : String)
    (estimate : Nat → Scalar → Estimate) (first : Scalar) : Action σ (Solution Datum) := do
  Action.ofCause (Solve.concluded name estimate (← (p.newton note).run first))

/-- The answer to an end of the iteration. -/
def answer (name : String) (estimate : Nat → Scalar → Estimate)
    (ending : Except Error (Ending Scalar)) : Except Error (Solution Datum) := do
  (Solve.concluded name estimate (← ending)).mapError .of

theorem Stops.solution (h : p.Stops steps x ending) {s : Solution Datum}
    (hs : answer name estimate ending = .ok s) :
    ∃ residual size,
      s = ⟨[(name, .ofEstimate (estimate steps.length x))], .newton, steps.length, .number size,
        none⟩ ∧
      p.Measures x residual size ∧ size.isFinite = .ok true ∧
      (Scalar.less size p.limits.tolerance = true ∨ ∃ last ∈ steps.getLast?, p.IsShort last) ∧
      (steps ≠ [] → x.isFinite = .ok true) := by
  have hsize {residual size : Scalar} (hmeasured : p.Measures x residual size) :
      size.isFinite = .ok true := (Scalar.isFinite_of_abs hmeasured.size).trans hmeasured.finite
  cases h with
  | @small residual size hmeasured hfinite hsmall =>
      cases hs
      exact ⟨residual, size, rfl, hmeasured, hsize hmeasured, .inl hsmall, hfinite⟩
  | @short residual size last hmeasured hfinite hlast hshort =>
      cases hs
      exact ⟨residual, size, rfl, hmeasured, hsize hmeasured, .inr ⟨last, hlast, hshort⟩,
        fun _ => hfinite⟩
  | _ => cases hs

theorem Stops.exceeded (h : p.Stops steps x ending) {err : Error} {shown : Estimate} {count : Int}
    (herr : answer name estimate ending = .error err)
    (hcause : err.cause = .maxIterations shown count) :
    p.Raises err ∨ shown = estimate steps.length x ∧ count = steps.length ∧
      (p.limits.iterations ≤ steps.length ∨
        p.limits.exceededBy ((steps.length + 1) * p.stepCost) = .ok true) := by
  cases h with
  | raised hraises => cases herr; exact .inl hraises
  | exhausted hlimit =>
      cases herr
      cases hcause
      exact .inr ⟨rfl, rfl, hlimit⟩
  | _ => cases herr <;> cases hcause

theorem Stops.zeroDerivative (h : p.Stops steps x ending) {err : Error} {shown : Estimate}
    (herr : answer name estimate ending = .error err) (hcause : err.cause = .zeroDerivative shown) :
    p.Raises err ∨ shown = estimate steps.length x ∧
      ∃ slope, p.slope x = .ok slope ∧ slope.isZero = true := by
  cases h with
  | raised hraises => cases herr; exact .inl hraises
  | flat hslope hzero =>
      cases herr
      cases hcause
      exact .inr ⟨rfl, _, hslope, hzero⟩
  | _ => cases herr <;> cases hcause

theorem Stops.noConvergence (h : p.Stops steps x ending) {err : Error} {why : Divergence}
    (herr : answer name estimate ending = .error err) (hcause : err.cause = .noConvergence why) :
    p.Raises err ∨
      (∃ residual, p.value x = .ok residual ∧ residual.isFinite = .ok false) ∨
      (∃ slope, p.slope x = .ok slope ∧ slope.isFinite = .ok false) ∨
      steps ≠ [] ∧ x.isFinite = .ok false := by
  cases h with
  | raised hraises => cases herr; exact .inl hraises
  | residual hvalue hinfinite => exact .inr (.inl ⟨_, hvalue, hinfinite⟩)
  | slope hslope hinfinite => exact .inr (.inr (.inl ⟨_, hslope, hinfinite⟩))
  | diverged hmoved hinfinite => exact .inr (.inr (.inr ⟨hmoved, hinfinite⟩))
  | _ => cases herr <;> cases hcause

/-- Newton's iteration makes no more steps than are allowed, and how it ends tells where it has come
to: a solution has a small residual or a small last step, and each of the three errors of its own
has its reason at the estimate that the steps have led to, unless it is one that the function or the
derivative that is given has raised itself. -/
theorem search_stops (p : Objective Scalar) (note : NewtonStep Scalar → Action σ Unit)
    (name : String) (estimate : Nat → Scalar → Estimate) (first : Scalar) :
    ∃ steps x outcome,
      p.search note name estimate first = (do forM steps note; Action.ofExcept outcome) ∧
      p.Path first steps x ∧ steps.length ≤ p.limits.iterations.toNat ∧
      (∀ s, outcome = .ok s → ∃ residual size,
        s = ⟨[(name, .ofEstimate (estimate steps.length x))], .newton, steps.length, .number size,
          none⟩ ∧
        p.Measures x residual size ∧ size.isFinite = .ok true ∧
        (Scalar.less size p.limits.tolerance = true ∨ ∃ last ∈ steps.getLast?, p.IsShort last) ∧
        (steps ≠ [] → x.isFinite = .ok true)) ∧
      (∀ err shown count, outcome = .error err → err.cause = .maxIterations shown count →
        p.Raises err ∨ shown = estimate steps.length x ∧ count = steps.length ∧
          (p.limits.iterations ≤ steps.length ∨
            p.limits.exceededBy ((steps.length + 1) * p.stepCost) = .ok true)) ∧
      (∀ err shown, outcome = .error err → err.cause = .zeroDerivative shown →
        p.Raises err ∨ shown = estimate steps.length x ∧
          ∃ slope, p.slope x = .ok slope ∧ slope.isZero = true) ∧
      ∀ err why, outcome = .error err → err.cause = .noConvergence why →
        p.Raises err ∨
          (∃ residual, p.value x = .ok residual ∧ residual.isFinite = .ok false) ∨
          (∃ slope, p.slope x = .ok slope ∧ slope.isFinite = .ok false) ∨
          steps ≠ [] ∧ x.isFinite = .ok false := by
  obtain ⟨steps, x, ending, hrun, hpath, hstops⟩ := exists_course p note first
  have hsearch : p.search note name estimate first =
      (do forM steps note; Action.ofExcept (answer name estimate ending)) := by
    rw [search, hrun, bind_assoc]
    cases ending <;> rfl
  exact ⟨steps, x, _, hsearch, hpath, hpath.length_le, fun _ hs => hstops.solution hs,
    fun _ _ _ herr hcause => hstops.exceeded herr hcause,
    fun _ _ herr hcause => hstops.zeroDerivative herr hcause,
    fun _ _ herr hcause => hstops.noConvergence herr hcause⟩

end Newton.Objective

end Reckoner
