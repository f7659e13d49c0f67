import Reckoner.Proofs.Solve.Course

/-!
# How often an iteration evaluates

The evaluations are counted beside the iteration, in front of its state, where nothing can see the
count. The limit is asked before a slope only, so all evaluations up to the last step are within it.
The residual at the place where this step has led to is beyond, if the steps have used up the limit,
and once more if the step was small and the residual is not finite, for then it is evaluated again
at the start of the next round.
-/

namespace Reckoner

namespace Action

variable {σ β γ : Type}

/-- The computation beside a count, which it raises even if it fails. -/
def raising (amount : Nat) (a : Action σ β) : Action (Nat × σ) β :=
  ofFun fun (count, s) => ((a.runFrom s).1, count + amount, (a.runFrom s).2)

/-- The first computation is the second one beside a count, and from this count on its outcome and
the count after it are related. -/
def Meters (count : Nat) (q : Except Error β → Nat → Prop) (b : Action (Nat × σ) β)
    (a : Action σ β) : Prop :=
  ∀ s, ∃ after, b.runFrom (count, s) = ((a.runFrom s).1, after, (a.runFrom s).2) ∧
    q (a.runFrom s).1 after

variable {count : Nat} {q : Except Error β → Nat → Prop}

theorem meters_pure {v : β} (h : q (.ok v) count) :
    Meters count q (pure v) (pure v : Action σ β) := fun _ => ⟨count, rfl, h⟩

theorem meters_ofExcept {outcome : Except Error β} (h : q outcome count) :
    Meters count q (ofExcept outcome) (ofExcept outcome : Action σ β) := fun _ => ⟨count, rfl, h⟩

theorem meters_raising {amount : Nat} {a : Action σ β}
    (h : ∀ outcome, q outcome (count + amount)) : Meters count q (raising amount a) a :=
  fun _ => ⟨count + amount, rfl, h _⟩

theorem meters_raising_ofExcept {amount : Nat} {outcome : Except Error β}
    (h : q outcome (count + amount)) :
    Meters count q (raising amount (ofExcept outcome)) (ofExcept outcome : Action σ β) :=
  fun _ => ⟨count + amount, rfl, h⟩

theorem Meters.bind {r : Except Error γ → Nat → Prop} {b : Action (Nat × σ) β} {a : Action σ β}
    {g : β → Action (Nat × σ) γ} {f : β → Action σ γ} (h : Meters count q b a)
    (herror : ∀ err after, q (.error err) after → r (.error err) after)
    (hok : ∀ v after, q (.ok v) after → Meters after r (g v) (f v)) :
    Meters count r (b >>= g) (a >>= f) := by
  intro s
  obtain ⟨after, hrun, hafter⟩ := h s
  rw [runFrom_bind, runFrom_bind, hrun]
  cases ha : a.runFrom s with
  | mk outcome t =>
      rw [ha] at hafter
      cases outcome with
      | error err => exact ⟨after, rfl, herror err after hafter⟩
      | ok v => exact hok v after hafter t

/-- What only has an outcome leaves the count alone. -/
theorem meters_bind_ofExcept {r : Except Error γ → Nat → Prop} {outcome : Except Error β}
    {g : β → Action (Nat × σ) γ} {f : β → Action σ γ} (herror : ∀ err, r (.error err) count)
    (hok : ∀ v, outcome = .ok v → Meters count r (g v) (f v)) :
    Meters count r (ofExcept outcome >>= g) (ofExcept outcome >>= f) :=
  (meters_ofExcept (q := fun found after => found = outcome ∧ after = count) ⟨rfl, rfl⟩).bind
    (fun err _ h => h.2 ▸ herror err) fun v _ h => h.2 ▸ hok v h.1.symm

theorem meters_bind_ofFault {r : Except Error γ → Nat → Prop} {outcome : Except Fault β}
    {g : β → Action (Nat × σ) γ} {f : β → Action σ γ} (herror : ∀ err, r (.error err) count)
    (hok : ∀ v, outcome = .ok v → Meters count r (g v) (f v)) :
    Meters count r (ofFault outcome >>= g) (ofFault outcome >>= f) :=
  meters_bind_ofExcept herror fun v hv => hok v (mapError_eq_ok hv)

theorem meters_bind_raising {r : Except Error γ → Nat → Prop} {amount : Nat}
    {outcome : Except Error β} {g : β → Action (Nat × σ) γ} {f : β → Action σ γ}
    (herror : ∀ err, r (.error err) (count + amount))
    (hok : ∀ v, outcome = .ok v → Meters (count + amount) r (g v) (f v)) :
    Meters count r (raising amount (ofExcept outcome) >>= g) (ofExcept outcome >>= f) :=
  (meters_raising_ofExcept
    (q := fun found after => found = outcome ∧ after = count + amount) ⟨rfl, rfl⟩).bind
      (fun err _ h => h.2 ▸ herror err) fun v _ h => h.2 ▸ hok v h.1.symm

theorem meters_bind_raising_ok {r : Except Error γ → Nat → Prop} {amount : Nat}
    {outcome : Except Error β} {v : β} {g : β → Action (Nat × σ) γ} {f : β → Action σ γ}
    (h : outcome = .ok v) (hok : Meters (count + amount) r (g v) (f v)) :
    Meters count r (raising amount (ofExcept outcome) >>= g) (ofExcept outcome >>= f) := by
  subst h
  exact hok

end Action

open Reckoner.Action

theorem Limits.exceededBy_whole {α : Type} {limits : Limits α} {most : Nat}
    (h : limits.evaluations = .number (.whole most)) (count : Nat) :
    limits.exceededBy count = .ok (decide (most < count)) := by
  have hless : Scalar.less (.whole most) (.whole count) = decide (most < count) := by
    rw [Scalar.less, Scalar.order, Int.compare_eq_ite_lt]
    split_ifs <;> simp <;> omega
  rw [exceededBy, h]
  exact congrArg _ hless

namespace Newton

variable {σ α : Type}

/-- The iteration beside a count of the evaluations of the residual and of the derivative that is
given. -/
def metered (n : Newton σ α) : Newton (Nat × σ) α where
  value x := raising 1 (n.value x)
  derivative? := n.derivative?.map fun d x => raising 1 (d x)
  note s := raising 0 (n.note s)
  limits := n.limits

theorem slopeCost_metered (n : Newton σ α) : n.metered.slopeCost = n.slopeCost := by
  rw [slopeCost, slopeCost, metered, Option.isSome_map]

namespace Objective

variable [Numeric α] (p : Objective α)

/-- From one count on a computation that answers has come to another one, and a computation that
fails no further. -/
def Reaches {β : Type} (most : Nat) : Except Error β → Nat → Prop
  | .ok _, count => count = most
  | .error _, count => count ≤ most

/-- How many evaluations have been made by an iteration that comes to this end: those of all its
steps, which are within the limit, and those behind the last step. -/
def Spends (most : Nat) : Except Error (Ending α) → Nat → Prop
  | .ok (.converged _ steps _), count => steps * p.stepCost ≤ most ∧ count = steps * p.stepCost + 1
  | .ok (.exhausted _ steps), count => steps * p.stepCost ≤ most ∧ count = steps * p.stepCost + 1
  | .ok (.flat _ steps), count => count = (steps + 1) * p.stepCost ∧ count ≤ most
  | .ok (.slopeNotFinite _ steps), count => count = (steps + 1) * p.stepCost ∧ count ≤ most
  | .ok (.diverged steps), count => count = steps * p.stepCost ∧ count ≤ most
  | .ok (.residualNotFinite _ steps), count => steps * p.stepCost ≤ most ∧
      (count = steps * p.stepCost + 1 ∨ 0 < steps ∧ count = steps * p.stepCost + 2)
  | .error _, count => count ≤ most + 1

variable {p} {most : Nat} {note : NewtonStep α → Action σ Unit}

/-- A slope takes as many evaluations as are put down for it, or fewer if it fails. -/
theorem meters_slopeAt (p : Objective α) (note : NewtonStep α → Action σ Unit) (count : Nat)
    (x : α) :
    Meters count (Reaches (count + (p.newton note).slopeCost))
      ((p.newton note).metered.slopeAt x) ((p.newton note).slopeAt x) := by
  unfold slopeAt slopeCost metered newton
  cases p.derivative? with
  | some derivative =>
      refine meters_raising_ofExcept ?_
      cases derivative x with
      | error err => exact Nat.le_refl _
      | ok v => rfl
  | none =>
      have hfewer {amount : Nat} (hle : amount ≤ 2) (err : Error) :
          Reaches (count + 2) (.error err : Except Error α) (count + amount) :=
        Nat.add_le_add_left hle count
      refine meters_bind_ofFault (hfewer (Nat.zero_le 2)) fun size _ => ?_
      refine meters_bind_ofFault (hfewer (Nat.zero_le 2)) fun h _ => ?_
      refine meters_bind_ofFault (hfewer (Nat.zero_le 2)) fun right _ => ?_
      refine meters_bind_raising (hfewer (Nat.le_succ 1)) fun above _ => ?_
      refine meters_bind_ofFault (hfewer (Nat.le_succ 1)) fun left _ => ?_
      refine meters_bind_raising (hfewer (Nat.le_refl 2)) fun below _ => ?_
      refine meters_ofExcept ?_
      cases Except.mapError Fault.toError _ with
      | error err => exact Nat.le_refl _
      | ok v => rfl

theorem meters_arrive {left done evaluations : Nat} {step next : α}
    (hcount : evaluations = done * p.stepCost) (hmost : evaluations ≤ most)
    (hiterate : ∀ evaluations, (evaluations = done * p.stepCost ∨
        evaluations = done * p.stepCost + 1 ∧
          ∃ v, p.value next = .ok v ∧ Numeric.isFinite v = .ok false) →
      Meters evaluations (p.Spends most)
        ((p.newton note).metered.iterate left done evaluations next)
        ((p.newton note).iterate left done evaluations next)) :
    Meters evaluations (p.Spends most)
      ((p.newton note).metered.arrive left done evaluations step next)
      ((p.newton note).arrive left done evaluations step next) := by
  have hlate (err : Error) : p.Spends most (.error err) (evaluations + 1) :=
    Nat.succ_le_succ hmost
  refine meters_bind_ofFault (fun _ => Nat.le_succ_of_le hmost) fun finite _ => ?_
  cases finite with
  | false => exact meters_pure ⟨hcount, hmost⟩
  | true =>
  refine meters_bind_ofFault (fun _ => Nat.le_succ_of_le hmost) fun short _ => ?_
  cases short with
  | false => exact hiterate _ (.inl hcount)
  | true =>
  refine meters_bind_raising hlate fun last hlast => ?_
  refine meters_bind_ofFault hlate fun finite hfinite => ?_
  cases finite with
  | false => exact hiterate _ (.inr ⟨congrArg (· + 1) hcount, last, hlast, hfinite⟩)
  | true =>
  refine meters_bind_ofFault hlate fun size _ => ?_
  exact meters_pure ⟨hcount ▸ hmost, congrArg (· + 1) hcount⟩

theorem meters_move (hlimit : p.limits.evaluations = .number (.whole most))
    {left done evaluations : Nat} {x residual : α}
    (hcount : evaluations = done * p.stepCost + 1) (hmost : done * p.stepCost ≤ most)
    (harrive : ∀ rest step next, left = rest + 1 → (done + 1) * p.stepCost ≤ most →
      Meters ((done + 1) * p.stepCost) (p.Spends most)
        ((p.newton note).metered.arrive rest (done + 1) ((done + 1) * p.stepCost) step next)
        ((p.newton note).arrive rest (done + 1) ((done + 1) * p.stepCost) step next)) :
    Meters evaluations (p.Spends most)
      ((p.newton note).metered.move left done evaluations x residual)
      ((p.newton note).move left done evaluations x residual) := by
  cases left with
  | zero => exact meters_pure ⟨hmost, hcount⟩
  | succ rest =>
  have hcost : evaluations + (p.newton note).slopeCost = (done + 1) * p.stepCost := by
    rw [hcount, Nat.add_assoc, slopeCost_newton, Nat.succ_mul]
  rw [move, move, slopeCost_metered, hcost]
  have hexceeded : (p.newton note).limits.exceededBy ((done + 1) * p.stepCost) =
      .ok (decide (most < (done + 1) * p.stepCost)) := Limits.exceededBy_whole hlimit _
  have hearly (err : Error) : p.Spends most (.error err) evaluations :=
    hcount ▸ Nat.succ_le_succ hmost
  refine meters_bind_ofExcept hearly fun exceeded h => ?_
  cases exceeded with
  | true => exact meters_pure ⟨hmost, hcount⟩
  | false =>
  have hallowed : (done + 1) * p.stepCost ≤ most := by
    have := (mapError_eq_ok h).symm.trans hexceeded
    simpa using this
  have hlater (err : Error) : p.Spends most (.error err) ((done + 1) * p.stepCost) :=
    Nat.le_succ_of_le hallowed
  have hslope := meters_slopeAt p note evaluations x
  rw [hcost] at hslope
  refine hslope.bind (fun err after hafter => Nat.le_succ_of_le (hafter.trans hallowed)) ?_
  rintro slope _ ⟨⟩
  cases Numeric.isZero slope with
  | true => exact meters_pure ⟨rfl, hallowed⟩
  | false =>
  refine meters_bind_ofFault hlater fun finite _ => ?_
  cases finite with
  | false => exact meters_pure ⟨rfl, hallowed⟩
  | true =>
  refine meters_bind_ofFault hlater fun step _ => ?_
  refine meters_bind_ofFault hlater fun next _ => ?_
  refine (meters_raising (q := fun _ after => after = (done + 1) * p.stepCost) fun _ => rfl).bind
    (fun err after hafter => hafter ▸ hlater err) ?_
  rintro _ _ ⟨⟩
  exact harrive rest step next rfl hallowed

/-- A residual that is not finite ends the iteration at once. -/
theorem meters_iterate_infinite {left done evaluations : Nat} {x v : α} (hvalue : p.value x = .ok v)
    (hinfinite : Numeric.isFinite v = .ok false) (hmost : done * p.stepCost ≤ most)
    (hcount : evaluations = done * p.stepCost ∨
      0 < done ∧ evaluations = done * p.stepCost + 1) :
    Meters evaluations (p.Spends most) ((p.newton note).metered.iterate left done evaluations x)
      ((p.newton note).iterate left done evaluations x) := by
  have hending : p.Spends most (.ok (.residualNotFinite x done)) (evaluations + 1) :=
    ⟨hmost, hcount.imp (congrArg (· + 1)) (And.imp_right (congrArg (· + 1)))⟩
  rw [iterate_eq, iterate_eq]
  refine meters_bind_raising_ok hvalue ?_
  simp only [hinfinite]
  exact meters_pure hending

/-- Every round begins with as many evaluations as the steps before it have taken, unless the
residual, which has just been found not to be finite, is evaluated again. -/
theorem meters_iterate (hlimit : p.limits.evaluations = .number (.whole most))
    {left done evaluations : Nat} {x : α} (hmost : done * p.stepCost ≤ most)
    (hcount : evaluations = done * p.stepCost ∨ 0 < done ∧ evaluations = done * p.stepCost + 1 ∧
      ∃ v, p.value x = .ok v ∧ Numeric.isFinite v = .ok false) :
    Meters evaluations (p.Spends most) ((p.newton note).metered.iterate left done evaluations x)
      ((p.newton note).iterate left done evaluations x) := by
  induction left using Nat.strongRecOn generalizing done evaluations x with
  | ind left ih =>
  obtain rfl | ⟨hdone, hagain, v, hvalue, hinfinite⟩ := hcount
  case inr => exact meters_iterate_infinite hvalue hinfinite hmost (.inr ⟨hdone, hagain⟩)
  case inl =>
  have hlate (err : Error) : p.Spends most (.error err) (done * p.stepCost + 1) :=
    Nat.succ_le_succ hmost
  rw [iterate_eq, iterate_eq]
  refine meters_bind_raising hlate fun residual hvalue => ?_
  refine meters_bind_ofFault hlate fun finite hfinite => ?_
  cases finite with
  | false => exact meters_pure ⟨hmost, .inl rfl⟩
  | true =>
  refine meters_bind_ofFault hlate fun size _ => ?_
  cases hsmall : Numeric.less size p.limits.tolerance with
  | true =>
      simp only [newton, metered, hsmall, if_true]
      exact meters_pure ⟨hmost, rfl⟩
  | false =>
  simp only [newton, metered, hsmall]
  refine meters_move hlimit rfl hmost ?_
  rintro rest step next rfl hallowed
  exact meters_arrive rfl hallowed fun evaluations hcount =>
    ih rest (Nat.lt_succ_self rest) hallowed (hcount.imp_right fun h => ⟨Nat.succ_pos done, h⟩)

omit [Numeric α] in
theorem Spends.le {outcome : Except Error (Ending α)} {count : Nat}
    (h : p.Spends most outcome count) :
    count ≤ most + 2 ∧
      (most + 1 < count → ∃ x steps, outcome = .ok (.residualNotFinite x steps)) := by
  unfold Spends at h
  split at h <;> grind

/-- However an iteration ends, what it has evaluated up to its last step, with a slope at the end
of it, is within the limit, and behind the last step it evaluates the residual once, or twice if the
residual there is not finite. -/
theorem run_metered (p : Objective α) (note : NewtonStep α → Action σ Unit) (first : α) {most : Nat}
    (hlimit : p.limits.evaluations = .number (.whole most)) (s : σ) :
    ∃ outcome count t,
      ((p.newton note).run first).runFrom s = (outcome, t) ∧
      ((p.newton note).metered.run first).runFrom (0, s) = (outcome, count, t) ∧
      p.Spends most outcome count ∧ count ≤ most + 2 ∧
      (most + 1 < count → ∃ x steps, outcome = .ok (.residualNotFinite x steps)) := by
  have hstart : 0 * p.stepCost ≤ most := by rw [Nat.zero_mul]; exact Nat.zero_le most
  have hmeters : Meters 0 (p.Spends most) ((p.newton note).metered.run first)
      ((p.newton note).run first) := meters_iterate hlimit hstart (.inl (Nat.zero_mul _).symm)
  obtain ⟨count, hrun, hspends⟩ := hmeters s
  exact ⟨_, count, _, rfl, hrun, hspends, hspends.le⟩

/-- The absolute value less three, with the derivative that it has above zero, and two evaluations
at most. -/
def distance : Objective Scalar where
  value x := Except.mapError Fault.toError do Scalar.sub (← x.abs) (.real 3.0)
  derivative? := some fun _ => .ok (.real 1.0)
  limits := ⟨.real 1e-12, .real 1e-12, 50, .number (.whole 2)⟩

/-- From five the first step leads to three, where the residual is evaluated beyond the limit. -/
theorem run_metered_distance :
    ((((distance.newton fun _ => pure ()).metered.run (.real 5.0)).runFrom (0, ())).2.1 = 3) ∧
      distance.Spends 2 (((distance.newton fun _ => pure ()).run (.real 5.0)).runFrom ()).1 3 := by
  have hcount : (((distance.newton fun _ => pure ()).metered.run (.real 5.0)).runFrom
      (0, ())).2.1 = 3 := by decide +kernel
  have hlimit : distance.limits.evaluations = .number (.whole (2 : Nat)) := rfl
  obtain ⟨outcome, count, t, hrun, hmetered, hspends, -⟩ :=
    run_metered distance (fun _ => pure ()) (.real 5.0) hlimit ()
  rw [hmetered] at hcount
  rw [hrun, hmetered]
  exact ⟨hcount, hcount ▸ hspends⟩

-- a small step to a place where the residual is infinite
example :
    let p : Objective Scalar :=
      ⟨fun x => .ok (if x.isZero then .real Double.infinity else x), some fun _ => .ok (.real 1.0),
        ⟨.real 1e-12, .real 2.0, 50, .number (.whole 2)⟩⟩
    (((p.newton fun _ => pure ()).metered.run (.real 1.0)).runFrom (0, ())).2.1 = 4 := by
  decide +kernel

end Objective

end Newton

end Reckoner
