import Reckoner.Error

/-!
# Actions

A computation that may fail and that carries a state. What it has changed in the state when it
fails stays changed.
-/

namespace Reckoner

/-- A computation with a state of type `σ` that answers or fails. -/
abbrev Action (σ : Type) (β : Type) := ExceptT Error (StateM σ) β

namespace Action

variable {σ β : Type}

/-- The outcome from a state, and the state after it. -/
def runFrom (a : Action σ β) (s : σ) : Except Error β × σ := StateT.run (ExceptT.run a) s

/-- A computation given by its outcome and its next state. -/
def ofFun (f : σ → Except Error β × σ) : Action σ β := ExceptT.mk (fun s => f s)

/-- An outcome that leaves the state alone. -/
def ofExcept (outcome : Except Error β) : Action σ β := ExceptT.mk (pure outcome)

/-- Fails for a reason that has no place in a text. -/
def fail (cause : Cause) : Action σ β := ofExcept (.error (.of cause))

/-- The result of an operation that may have a cause to fail. -/
def ofCause (outcome : Except Cause β) : Action σ β := ofExcept (outcome.mapError .of)

/-- The result of an arithmetic operation. -/
def ofFault (outcome : Except Fault β) : Action σ β :=
  ofExcept (outcome.mapError Fault.toError)

/-- Changes the state. -/
def update (f : σ → σ) : Action σ Unit := ofFun fun s => (.ok (), f s)

/-- Changes the state after a computation, whether it answers or fails. -/
def thenUpdate (a : Action σ β) (f : σ → σ) : Action σ β :=
  ofFun fun s => let (outcome, s) := a.runFrom s; (outcome, f s)

end Action

end Reckoner
