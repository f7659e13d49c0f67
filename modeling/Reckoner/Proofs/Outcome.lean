import Reckoner.Action
import Mathlib.Tactic.Common

/-!
# Outcomes in sequence

What a bind says about its two parts, for plain outcomes, for actions that only carry one, for
actions that have one outcome, or only answers of one kind, from all states that meet a condition,
and keep to the condition, for actions that answer from some state or other, and for two actions of
which the second one has an answer to match each answer of the first.
-/

namespace Reckoner

/-- A bind that succeeds has succeeded in both parts. -/
theorem exists_of_bind_eq_ok {ε β γ : Type} {x : Except ε β} {f : β → Except ε γ} {c : γ}
    (h : x >>= f = .ok c) : ∃ b, x = .ok b ∧ f b = .ok c := by
  cases x with
  | error e => cases h
  | ok b => exact ⟨b, rfl, h⟩

theorem bind_ok {ε β γ : Type} (b : β) (f : β → Except ε γ) : (.ok b : Except ε β) >>= f = f b :=
  rfl

theorem mapError_eq_ok {ε δ β : Type} {f : ε → δ} {outcome : Except ε β} {b : β}
    (h : outcome.mapError f = .ok b) : outcome = .ok b := by
  cases outcome with
  | error => cases h
  | ok => cases h; rfl

theorem eq_ok_of_toOption {ε β : Type} {outcome : Except ε β} {b : β}
    (h : outcome.toOption = some b) : outcome = .ok b := by
  cases outcome with
  | error => cases h
  | ok => cases h; rfl

/-- The answers to all items, in order. -/
theorem forall₂_of_mapM_eq_ok {ε β γ : Type} {f : β → Except ε γ} {items : List β} {found : List γ}
    (h : items.mapM f = .ok found) : List.Forall₂ (fun item v => f item = .ok v) items found := by
  induction items generalizing found with
  | nil => cases h; exact .nil
  | cons item items ih =>
      rw [List.mapM_cons] at h
      obtain ⟨v, hv, h⟩ := exists_of_bind_eq_ok h
      obtain ⟨vs, hvs, h⟩ := exists_of_bind_eq_ok h
      cases h
      exact .cons hv (ih hvs)

theorem forall_of_mapM_eq_ok {ε β γ : Type} {f : β → Except ε γ} {p : γ → Prop}
    (hf : ∀ item v, f item = .ok v → p v) {items : List β} {found : List γ}
    (h : items.mapM f = .ok found) : ∀ v ∈ found, p v := by
  have hpairs := forall₂_of_mapM_eq_ok h
  clear h
  induction hpairs with
  | nil => exact List.forall_mem_nil _
  | cons hv _ ih => exact List.forall_mem_cons.mpr ⟨hf _ _ hv, ih⟩

namespace Action

variable {σ β γ : Type}

theorem ofExcept_bind (outcome : Except Error β) (f : β → Except Error γ) :
    (ofExcept (outcome >>= f) : Action σ γ) = ofExcept outcome >>= fun v => ofExcept (f v) := by
  cases outcome <;> rfl

theorem ofExcept_ok_bind (v : β) (f : β → Action σ γ) : ofExcept (.ok v) >>= f = f v := rfl

theorem ofCause_ok_bind (v : β) (f : β → Action σ γ) : ofCause (.ok v) >>= f = f v := rfl

theorem tryCatch_ofExcept_error (err : Error) (handle : Error → Action σ β) :
    tryCatch (ofExcept (.error err)) handle = handle err := rfl

theorem runFrom_ofExcept (outcome : Except Error β) (s : σ) :
    (ofExcept outcome : Action σ β).runFrom s = (outcome, s) := rfl

theorem runFrom_bind (a : Action σ β) (f : β → Action σ γ) (s : σ) :
    (a >>= f).runFrom s =
      match a.runFrom s with
      | (.ok v, t) => (f v).runFrom t
      | (.error e, t) => (.error e, t) := by
  unfold runFrom
  rw [ExceptT.run_bind]
  simp only [StateT.run_bind]
  cases h : StateT.run (ExceptT.run a) s with
  | mk outcome t => cases outcome <;> rfl

theorem runFrom_tryCatch (a : Action σ β) (handle : Error → Action σ β) (s : σ) :
    (tryCatch a handle).runFrom s =
      match a.runFrom s with
      | (.ok v, t) => (.ok v, t)
      | (.error err, t) => (handle err).runFrom t := by
  unfold runFrom
  rw [ExceptT.run_tryCatch, StateT.run_bind]
  cases StateT.run (ExceptT.run a) s with
  | mk found t => cases found <;> rfl

/-! ## Conditions on states -/

/-- From every state that meets the condition the action has the outcome, and the state after it
meets the condition again. -/
def Gives (inv : σ → Prop) (a : Action σ β) (outcome : Except Error β) : Prop :=
  ∀ s, inv s → (a.runFrom s).1 = outcome ∧ inv (a.runFrom s).2

variable {inv : σ → Prop} {a : Action σ β} {outcome : Except Error β}

theorem gives_ofExcept (outcome : Except Error β) : Gives inv (ofExcept outcome) outcome :=
  fun _ h => ⟨rfl, h⟩

theorem gives_of_eq {v : β} (h : outcome = .ok v) : Gives inv (ofExcept outcome) (.ok v) :=
  h ▸ gives_ofExcept _

theorem gives_ofCause {found : Except Cause β} {v : β} (h : found = .ok v) :
    Gives inv (ofCause found : Action σ β) (.ok v) := h ▸ gives_ofExcept _

theorem gives_ofFault {found : Except Fault β} {v : β} (h : found = .ok v) :
    Gives inv (ofFault found : Action σ β) (.ok v) := h ▸ gives_ofExcept _

theorem gives_pure (v : β) : Gives inv (pure v : Action σ β) (.ok v) := fun _ h => ⟨rfl, h⟩

theorem gives_update {f : σ → σ} (hf : ∀ s, inv s → inv (f s)) :
    Gives inv (update f) (.ok ()) := fun s h => ⟨rfl, hf s h⟩

theorem Gives.bind {f : β → Action σ γ} {g : β → Except Error γ} (ha : Gives inv a outcome)
    (hf : ∀ v, outcome = .ok v → Gives inv (f v) (g v)) :
    Gives inv (a >>= f) (outcome >>= g) := by
  intro s hs
  obtain ⟨houtcome, hinv⟩ := ha s hs
  rw [runFrom_bind]
  cases hrun : a.runFrom s with
  | mk found t =>
      rw [hrun] at houtcome hinv
      subst houtcome
      cases found with
      | error e => exact ⟨rfl, hinv⟩
      | ok v => exact hf v rfl t hinv

theorem Gives.after {f : β → Action σ γ} {v : β} {result : Except Error γ}
    (ha : Gives inv a (.ok v)) (hf : Gives inv (f v) result) : Gives inv (a >>= f) result :=
  ha.bind (g := fun _ => result) fun _ h => by cases h; exact hf

theorem Gives.map {f : β → γ} (ha : Gives inv a outcome) :
    Gives inv (f <$> a) (f <$> outcome) := by
  rw [← bind_pure_comp, ← bind_pure_comp]
  exact ha.bind fun v _ => gives_pure (f v)

theorem Gives.tryCatch {handle : Error → Action σ β} {handled : Error → Except Error β}
    (ha : Gives inv a outcome)
    (hhandle : ∀ err, outcome = .error err → Gives inv (handle err) (handled err)) :
    Gives inv (tryCatch a handle) (tryCatch outcome handled) := by
  intro s hs
  obtain ⟨houtcome, hinv⟩ := ha s hs
  rw [runFrom_tryCatch]
  cases hrun : a.runFrom s with
  | mk found t =>
      rw [hrun] at houtcome hinv
      subst houtcome
      cases found with
      | ok v => exact ⟨rfl, hinv⟩
      | error err => exact hhandle err rfl t hinv

/-! ## Answers -/

/-- From some state the action answers with the value. -/
def Returns (a : Action σ β) (v : β) : Prop := ∃ s, (a.runFrom s).1 = .ok v

theorem ok_of_returns {v : β} (h : Returns (ofExcept outcome : Action σ β) v) :
    outcome = .ok v := by
  obtain ⟨_, h⟩ := h
  exact h

theorem eq_of_returns {v w : β} (h : Returns (pure v : Action σ β) w) : v = w := by
  obtain ⟨_, h⟩ := h
  cases h
  rfl

theorem not_returns_fail {cause : Cause} {v : β} : ¬Returns (fail cause : Action σ β) v := by
  rintro ⟨_, h⟩
  cases h

theorem exists_of_returns_bind {f : β → Action σ γ} {w : γ} (h : Returns (a >>= f) w) :
    ∃ v, Returns a v ∧ Returns (f v) w := by
  obtain ⟨s, h⟩ := h
  rw [runFrom_bind] at h
  cases hrun : a.runFrom s with
  | mk found t =>
      rw [hrun] at h
      cases found with
      | error e => cases h
      | ok v => exact ⟨v, ⟨s, by rw [hrun]⟩, t, h⟩

theorem exists_of_returns_map {f : β → γ} {w : γ} (h : Returns (f <$> a) w) :
    ∃ v, Returns a v ∧ f v = w := by
  rw [← bind_pure_comp] at h
  obtain ⟨v, hv, h⟩ := exists_of_returns_bind h
  exact ⟨v, hv, eq_of_returns h⟩

theorem returns_of_tryCatch {handle : Error → Action σ β} {v : β}
    (h : Returns (tryCatch a handle) v) : Returns a v ∨ ∃ err, Returns (handle err) v := by
  obtain ⟨s, h⟩ := h
  rw [runFrom_tryCatch] at h
  cases ha : a.runFrom s with
  | mk found t =>
      rw [ha] at h
      cases found with
      | ok w => exact .inl ⟨s, by rw [ha]; exact h⟩
      | error err => exact .inr ⟨err, t, h⟩

/-! ## Answers that carry over -/

variable {δ ε : Type} {φ : β → γ} {ψ : δ → ε} {b : Action σ γ}

/-- Whatever the first action answers from some state, the second one answers with its image from
every state. -/
def Carries (φ : β → γ) (a : Action σ β) (b : Action σ γ) : Prop :=
  ∀ v, Returns a v → ∀ t, (b.runFrom t).1 = .ok (φ v)

theorem carries_of_not_returns (h : ∀ v, ¬Returns a v) : Carries φ a b :=
  fun v hv => absurd hv (h v)

theorem carries_pure (v : β) : Carries φ (pure v : Action σ β) (pure (φ v)) := by
  intro w hw t
  rw [← eq_of_returns hw]
  rfl

theorem carries_ofExcept {x : Except Error β} {y : Except Error γ}
    (h : ∀ v, x = .ok v → y = .ok (φ v)) :
    Carries φ (ofExcept x : Action σ β) (ofExcept y) := fun v hv _ => h v (ok_of_returns hv)

theorem carries_ofFault {x : Except Fault β} {y : Except Fault γ}
    (h : ∀ v, x = .ok v → y = .ok (φ v)) :
    Carries φ (ofFault x : Action σ β) (ofFault y) := by
  refine carries_ofExcept fun v hv => ?_
  rw [h v (mapError_eq_ok hv)]
  rfl

theorem carries_ofCause {x : Except Cause β} {y : Except Cause γ}
    (h : ∀ v, x = .ok v → y = .ok (φ v)) :
    Carries φ (ofCause x : Action σ β) (ofCause y) := by
  refine carries_ofExcept fun v hv => ?_
  rw [h v (mapError_eq_ok hv)]
  rfl

theorem carries_of_gives {c : Action σ Unit} (h : Gives (fun _ => True) c (.ok ()))
    (a : Action σ Unit) : Carries id a c := fun _ _ t => (h t trivial).1

theorem Carries.bind {f : β → Action σ δ} {g : γ → Action σ ε} (h : Carries φ a b)
    (hf : ∀ v, Returns a v → Carries ψ (f v) (g (φ v))) : Carries ψ (a >>= f) (b >>= g) := by
  intro w hw t
  obtain ⟨v, hv, hw⟩ := exists_of_returns_bind hw
  have hb := h v hv t
  rw [runFrom_bind]
  cases hrun : b.runFrom t with
  | mk found s =>
      rw [hrun] at hb
      cases hb
      exact hf v hv w hw s

/-- Both actions start with the same outcome. -/
theorem carries_same {outcome : Except Error β} {f : β → Action σ δ} {g : β → Action σ ε}
    (hf : ∀ v, outcome = .ok v → Carries ψ (f v) (g v)) :
    Carries ψ (ofExcept outcome >>= f) (ofExcept outcome >>= g) :=
  Carries.bind (carries_ofExcept (φ := id) fun _ h => h) fun v hv => hf v (ok_of_returns hv)

theorem Carries.map {c : Action σ β} (h : Carries id a c) (f : β → γ) :
    Carries id (f <$> a) (f <$> c) := by
  rw [← bind_pure_comp, ← bind_pure_comp]
  exact h.bind fun v _ => carries_pure (φ := id) (f v)

theorem carries_ite {test : Bool} {a' : Action σ β} {b' : Action σ γ}
    (ha : test = true → Carries φ a b) (ha' : test = false → Carries φ a' b') :
    Carries φ (if test then a else a') (if test then b else b') := by
  cases test with
  | true => exact ha rfl
  | false => exact ha' rfl

end Action

end Reckoner
