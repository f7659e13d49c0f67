import Reckoner.Proofs.Outcome

/-!
# Reasons to fail

Outcomes that are errors only for certain reasons, and outcomes that besides are answers only of a
certain kind; the same for actions, from states that meet a condition. What is put together from
such outcomes fails only for these reasons too, so each function answers for the reasons of its own.
-/

namespace Reckoner

variable {ε δ β γ : Type}

/-- An outcome that is an error only for reasons that meet a condition. -/
def FailsOnly (p : ε → Prop) (outcome : Except ε β) : Prop := ∀ err, outcome = .error err → p err

variable {p q : ε → Prop} {outcome : Except ε β}

theorem failsOnly_ok (b : β) : FailsOnly p (.ok b : Except ε β) := fun _ h => by cases h

theorem failsOnly_pure (b : β) : FailsOnly p (pure b : Except ε β) := failsOnly_ok b

theorem failsOnly_error {err : ε} (h : p err) : FailsOnly p (.error err : Except ε β) :=
  fun _ herr => by cases herr; exact h

theorem failsOnly_unless {c : Prop} [Decidable c] {err : ε} {b : β} (h : p err) :
    FailsOnly p (if c then .error err else .ok b : Except ε β) := by
  split
  case isTrue => exact failsOnly_error h
  case isFalse => exact failsOnly_ok b

theorem FailsOnly.mono (h : FailsOnly p outcome) (hpq : ∀ err, p err → q err) :
    FailsOnly q outcome := fun err herr => hpq err (h err herr)

theorem FailsOnly.bind {f : β → Except ε γ} (h : FailsOnly p outcome)
    (hf : ∀ b, outcome = .ok b → FailsOnly p (f b)) : FailsOnly p (outcome >>= f) := by
  intro err herr
  cases houtcome : outcome with
  | error first =>
      rw [houtcome] at herr
      cases herr
      exact h _ houtcome
  | ok b =>
      rw [houtcome] at herr
      exact hf b houtcome err herr

/-- A bind that fails only for these reasons has parts that do. -/
theorem FailsOnly.of_bind {f : β → Except ε γ} (h : FailsOnly p (outcome >>= f)) :
    FailsOnly p outcome ∧ ∀ b, outcome = .ok b → FailsOnly p (f b) := by
  constructor
  · rintro err rfl
    exact h err rfl
  · rintro b rfl err herr
    exact h err herr

theorem FailsOnly.mapError {f : ε → δ} {p : δ → Prop}
    (h : FailsOnly (fun err => p (f err)) outcome) :
    FailsOnly p (outcome.mapError f) := by
  intro err herr
  cases houtcome : outcome with
  | error first =>
      rw [houtcome] at herr
      cases herr
      exact h _ houtcome
  | ok b => rw [houtcome] at herr; cases herr

theorem failsOnly_mapM {f : β → Except ε γ} {items : List β}
    (h : ∀ item ∈ items, FailsOnly p (f item)) : FailsOnly p (items.mapM f) := by
  induction items with
  | nil => exact failsOnly_pure _
  | cons item items ih =>
      rw [List.mapM_cons]
      have hitems := ih fun other hmem => h other (List.mem_cons_of_mem _ hmem)
      exact (h item List.mem_cons_self).bind fun _ _ => hitems.bind fun _ _ => failsOnly_pure _

/-! ## Answers and errors -/

/-- The outcome is an answer of one kind, or an error for reasons of another one. -/
def Meets (Q : β → Prop) (p : ε → Prop) : Except ε β → Prop
  | .ok b => Q b
  | .error err => p err

section Meets

variable {Q : β → Prop} {R : γ → Prop}

theorem FailsOnly.meets (h : FailsOnly p outcome) (hQ : ∀ b, outcome = .ok b → Q b) :
    Meets Q p outcome := by
  cases outcome with
  | ok b => exact hQ b rfl
  | error err => exact h err rfl

theorem FailsOnly.meets_true (h : FailsOnly p outcome) : Meets (fun _ => True) p outcome :=
  h.meets fun _ _ => trivial

theorem Meets.failsOnly (h : Meets Q p outcome) : FailsOnly p outcome := by
  rintro err rfl
  exact h

theorem Meets.mono {other : β → Prop} (h : Meets Q p outcome) (hQ : ∀ b, Q b → other b)
    (hpq : ∀ err, p err → q err) : Meets other q outcome := by
  cases outcome with
  | ok b => exact hQ b h
  | error err => exact hpq err h

theorem Meets.bind {f : β → Except ε γ} (h : Meets Q p outcome)
    (hf : ∀ b, Q b → Meets R p (f b)) : Meets R p (outcome >>= f) := by
  cases outcome with
  | ok b => exact hf b h
  | error err => exact h

theorem Meets.mono_answer {other : β → Prop} (h : Meets Q p outcome) (hQ : ∀ b, Q b → other b) :
    Meets other p outcome := h.mono hQ fun _ herr => herr

theorem Meets.mono_error (h : Meets Q p outcome) (hpq : ∀ err, p err → q err) :
    Meets Q q outcome := h.mono (fun _ hb => hb) hpq

/-- What the first outcome answers with does not matter. -/
theorem Meets.andThen {f : β → Except ε γ} (h : Meets (fun _ => True) p outcome)
    (hf : ∀ b, Meets R p (f b)) : Meets R p (outcome >>= f) := h.bind fun b _ => hf b

theorem Meets.map {f : β → γ} (h : Meets Q p outcome) (hf : ∀ b, Q b → R (f b)) :
    Meets R p (f <$> outcome) := by
  cases outcome with
  | ok b => exact hf b h
  | error err => exact h

theorem Meets.mapError {f : ε → δ} {p : δ → Prop} (h : Meets Q (fun err => p (f err)) outcome) :
    Meets Q p (outcome.mapError f) := by
  cases outcome with
  | ok b => exact h
  | error err => exact h

/-- An outcome without errors is an answer. -/
theorem Meets.exists_ok (h : Meets Q (fun _ => False) outcome) :
    ∃ b, outcome = .ok b ∧ Q b := by
  cases outcome with
  | ok b => exact ⟨b, rfl, h⟩
  | error err => exact h.elim

end Meets

namespace Action

variable {σ : Type} {inv : σ → Prop} {Q : β → Prop} {R : γ → Prop} {p q : Error → Prop}
  {a : Action σ β}

/-- From every state that meets the condition the action answers with a value of one kind, or fails
for reasons of another one, and the state after it meets the condition again. -/
def Ends (inv : σ → Prop) (Q : β → Prop) (p : Error → Prop) (a : Action σ β) : Prop :=
  ∀ s, inv s → inv (a.runFrom s).2 ∧ Meets Q p (a.runFrom s).1

theorem ends_ofExcept {outcome : Except Error β} (h : Meets Q p outcome) :
    Ends inv Q p (ofExcept outcome : Action σ β) := fun _ hs => ⟨hs, h⟩

theorem ends_ofCause {outcome : Except Cause β} (h : Meets Q (fun cause => p (.of cause)) outcome) :
    Ends inv Q p (ofCause outcome : Action σ β) := ends_ofExcept h.mapError

theorem ends_ofFault {outcome : Except Fault β}
    (h : Meets Q (fun fault => p fault.toError) outcome) :
    Ends inv Q p (ofFault outcome : Action σ β) := ends_ofExcept h.mapError

theorem ends_pure {b : β} (h : Q b) : Ends inv Q p (pure b : Action σ β) :=
  fun _ hs => ⟨hs, h⟩

theorem ends_fail {cause : Cause} (h : p (.of cause)) :
    Ends inv Q p (fail cause : Action σ β) := fun _ hs => ⟨hs, h⟩

theorem ends_update {f : σ → σ} (hf : ∀ s, inv s → inv (f s)) :
    Ends inv (fun _ => True) p (update f) := fun s hs => ⟨hf s hs, trivial⟩

theorem Ends.mono {other : β → Prop} (h : Ends inv Q p a) (hQ : ∀ b, Q b → other b)
    (hpq : ∀ err, p err → q err) : Ends inv other q a :=
  fun s hs => ⟨(h s hs).1, (h s hs).2.mono hQ hpq⟩

theorem Ends.mono_error (h : Ends inv Q p a) (hpq : ∀ err, p err → q err) : Ends inv Q q a :=
  h.mono (fun _ hb => hb) hpq

theorem Ends.bind {f : β → Action σ γ} (h : Ends inv Q p a)
    (hf : ∀ b, Q b → Ends inv R p (f b)) : Ends inv R p (a >>= f) := by
  intro s hs
  obtain ⟨hinv, hmeets⟩ := h s hs
  rw [runFrom_bind]
  cases hrun : a.runFrom s with
  | mk found t =>
      rw [hrun] at hinv hmeets
      cases found with
      | ok b => exact hf b hmeets t hinv
      | error err => exact ⟨hinv, hmeets⟩

theorem ends_pure_bind {b : β} {f : β → Action σ γ} (h : Ends inv R p (f b)) :
    Ends inv R p (pure b >>= f) := by
  rw [pure_bind]
  exact h

theorem Ends.andThen {f : β → Action σ γ} (h : Ends inv (fun _ => True) p a)
    (hf : ∀ b, Ends inv R p (f b)) : Ends inv R p (a >>= f) := h.bind fun b _ => hf b

theorem Ends.map {f : β → γ} (h : Ends inv Q p a) (hf : ∀ b, Q b → R (f b)) :
    Ends inv R p (f <$> a) := by
  rw [← bind_pure_comp]
  exact h.bind fun b hb => ends_pure (hf b hb)

theorem Ends.tryCatch {handle : Error → Action σ β} (h : Ends inv Q q a)
    (hhandle : ∀ err, q err → Ends inv Q p (handle err)) :
    Ends inv Q p (tryCatch a handle) := by
  intro s hs
  obtain ⟨hinv, hmeets⟩ := h s hs
  rw [runFrom_tryCatch]
  cases hrun : a.runFrom s with
  | mk found t =>
      rw [hrun] at hinv hmeets
      cases found with
      | ok b => exact ⟨hinv, hmeets⟩
      | error err => exact hhandle err hmeets t hinv

theorem Gives.ends {outcome : Except Error β} (h : Gives inv a outcome)
    (hmeets : Meets Q p outcome) : Ends inv Q p a := by
  intro s hs
  obtain ⟨houtcome, hinv⟩ := h s hs
  exact ⟨hinv, houtcome.symm ▸ hmeets⟩

end Action

/-! ## Errors of the engine and accidents -/

/-- The cause has a code, or else it is one of certain accidents. -/
def Cause.IsCodedOr (accident : Cause → Prop) (cause : Cause) : Prop :=
  cause.code?.isSome = true ∨ accident cause

/-- The error has a code, or else it is one of certain accidents. -/
def Error.IsCodedOr (accident : Cause → Prop) (err : Error) : Prop := err.cause.IsCodedOr accident

section Coded

variable {accident other : Cause → Prop}

theorem Cause.IsCodedOr.mono {cause : Cause} (h : cause.IsCodedOr accident)
    (hother : ∀ cause, accident cause → other cause) : cause.IsCodedOr other :=
  h.imp_right (hother cause)

theorem Error.IsCodedOr.mono {err : Error} (h : err.IsCodedOr accident)
    (hother : ∀ cause, accident cause → other cause) : err.IsCodedOr other :=
  Cause.IsCodedOr.mono h hother

theorem Meets.ofCause {Q : β → Prop} {outcome : Except Cause β}
    (h : Meets Q (Cause.IsCodedOr accident) outcome) :
    Meets Q (Error.IsCodedOr accident) (outcome.mapError .of) := Meets.mapError h

theorem Error.cause_within (err : Error) (text : String) : (err.within text).cause = err.cause := by
  unfold within
  split <;> rfl

theorem Error.IsCodedOr.within {err : Error} (h : err.IsCodedOr accident) (text : String) :
    (err.within text).IsCodedOr accident := by
  rw [IsCodedOr, cause_within]
  exact h

end Coded

/-- The kinds of errors that texts are refused with. -/
def Kind.IsSyntactic (kind : Kind) : Prop := kind = .lexical ∨ kind = .grammatical

/-- What texts are refused with are errors of the engine. -/
theorem Cause.code_of_isSyntactic {cause : Cause} (h : cause.kind.IsSyntactic) :
    cause.code?.isSome = true := by
  cases cause with
  | arithmetic fault => rcases h with h | h <;> cases fault <;> cases h
  | misshapen how => rcases h with h | h <;> cases how <;> cases h
  | _ => first | rfl | (rcases h with h | h <;> cases h)

end Reckoner
