import Reckoner.Proofs.Scope.Memory

/-!
# Many requests to one scope

A scope that is used again and again answers each request as if it were the first one. What is
kept between requests is `Sound`: no name is marked, and the values that are remembered are those
that the names mean. One request keeps it, whether it is answered or fails, and so does any
number of them.
-/

namespace Reckoner.Scope

variable {α : Type} [Arithmetic α]

/-- What a scope may be asked for. -/
inductive Request where
  /-- The value of a variable. -/
  | lookup (name : String)
  /-- The value of an expression. -/
  | evaluate (e : Expr)
  /-- The value of an expression whose reductions are noted. -/
  | trace (e : Expr)
  /-- The value of an expression that is read from a text first. -/
  | read (source : String)

/-- What a scope answers, and the scope afterwards. -/
def answer (s : Scope α) : Request → Except Error α × Scope α
  | .lookup name => s.lookup name
  | .evaluate e => s.evaluate e
  | .trace e => s.advance (e.evaluateIn s.bindings true)
  | .read source =>
    match Expr.ofText source with
    | .ok e => s.evaluate e
    | .error e => (.error e, s)

/-- The answers to requests that are made one after the other, and the scope afterwards. -/
def answers : Scope α → List Request → List (Except Error α) × Scope α
  | s, [] => ([], s)
  | s, r :: rest =>
    let (outcome, s) := s.answer r
    let (outcomes, s) := answers s rest
    (outcome :: outcomes, s)

/-- What a request comes to without a scope. -/
def Request.outcome (bindings : Table (Binding α)) : Request → Except Error α
  | .lookup name => meaning bindings name
  | .evaluate e | .trace e => e.outcomeWith (meaning bindings)
  | .read source => Expr.ofText source >>= Expr.outcomeWith (meaning bindings)

variable {bindings : Table (Binding α)} {s : Scope α}

omit [Arithmetic α] in
theorem advance_fst {β : Type} (s : Scope α) (step : Run α β) :
    (s.advance step).1 = (step.runFrom s.memory).1 := rfl

omit [Arithmetic α] in
theorem advance_snd {β : Type} (s : Scope α) (step : Run α β) :
    (s.advance step).2 = ⟨s.bindings, (step.runFrom s.memory).2⟩ := rfl

/-- One request: the answer does not depend on what is remembered, and what is remembered stays
sound. -/
theorem answer_of_sound (hbindings : s.bindings = bindings) (hsound : Sound bindings [] s.memory)
    (r : Request) :
    (s.answer r).1 = r.outcome bindings ∧ (s.answer r).2.bindings = bindings ∧
      Sound bindings [] (s.answer r).2.memory := by
  have hadvance : ∀ {step : Run α α} {outcome : Except Error α},
      Action.Gives (Sound bindings []) step outcome →
      (s.advance step).1 = outcome ∧ (s.advance step).2.bindings = bindings ∧
        Sound bindings [] (s.advance step).2.memory := by
    intro step outcome hgives
    obtain ⟨houtcome, hkept⟩ := hgives s.memory hsound
    rw [advance_fst, advance_snd]
    exact ⟨houtcome, hbindings, hkept⟩
  subst hbindings
  cases r with
  | lookup name => exact hadvance (gives_lookup _ name)
  | evaluate e => exact hadvance (gives_evaluateIn false e)
  | trace e => exact hadvance (gives_evaluateIn true e)
  | read source =>
      rw [answer, Request.outcome]
      cases Expr.ofText source with
      | error e => exact ⟨rfl, rfl, hsound⟩
      | ok e => exact hadvance (gives_evaluateIn false e)

/-- Many requests, by induction on them. -/
theorem answers_of_sound (hbindings : s.bindings = bindings)
    (hsound : Sound bindings [] s.memory) (requests : List Request) :
    (s.answers requests).1 = requests.map (·.outcome bindings) ∧
      (s.answers requests).2.bindings = bindings ∧
      Sound bindings [] (s.answers requests).2.memory := by
  induction requests generalizing s with
  | nil => exact ⟨rfl, hbindings, hsound⟩
  | cons r rest ih =>
      obtain ⟨houtcome, hkept, hstep⟩ := answer_of_sound hbindings hsound r
      obtain ⟨houtcomes, hfinal⟩ := ih hkept hstep
      refine ⟨?_, hfinal⟩
      rw [List.map_cons, ← houtcome, ← houtcomes]
      rfl

theorem answer_ofTable (bindings : Table (Binding α)) (r : Request) :
    ((ofTable bindings).answer r).1 = r.outcome bindings :=
  (answer_of_sound rfl sound_fresh r).1

/-- Every answer is the one that a scope would give that has not been used before. After any number
of requests, answered or failed, no name is marked, and every value that is remembered is the one
that such a scope would find. -/
theorem answers_eq_fresh (bindings : Table (Binding α)) (requests : List Request) :
    ((ofTable bindings).answers requests).1 =
        requests.map (fun r => ((ofTable bindings).answer r).1) ∧
      ((ofTable bindings).answers requests).2.bindings = bindings ∧
      ((ofTable bindings).answers requests).2.memory.pending = [] ∧
      ∀ name v, ((ofTable bindings).answers requests).2.memory.resolved.find? name = some v →
        ((ofTable bindings).lookup name).1 = .ok v := by
  have hfresh : Sound bindings [] (ofTable bindings).memory := sound_fresh
  obtain ⟨houtcomes, hbindings, hsound⟩ := answers_of_sound (s := ofTable bindings) rfl hfresh requests
  simp only [answer_ofTable]
  refine ⟨houtcomes, hbindings, hsound.pending, fun name v hfind => ?_⟩
  have hlookup := answer_ofTable bindings (.lookup name)
  exact hlookup.trans (hsound.resolved hfind)

end Reckoner.Scope
