import Reckoner.Proofs.Expr.Failure
import Reckoner.Proofs.Scope.Memory

/-!
# Unfolding

Evaluation without a memory: wherever a name stands for an expression, the expression is evaluated
in its place, and nothing is remembered or marked. This need not end, so it comes to something only
if some depth suffices, that is, if it does not matter what names mean beyond that depth.

Evaluation comes to the same, except that it breaks off with an error of its own when a name is
needed for its own value; that happens just where unfolding never ends.
-/

namespace Reckoner

variable {α : Type} [Arithmetic α] {bindings : Table (Binding α)}

/-- The error says that a name is needed for its own value. -/
def Error.IsCircular (err : Error) : Prop := err.cause.kind = .circular

/-- The outcome of a name, by putting expressions in the place of names up to a depth. -/
def unfoldOr (beyond : String → Except Error α) (bindings : Table (Binding α)) :
    Nat → String → Except Error α
  | 0, name => beyond name
  | depth + 1, name =>
    match bindings.find? name with
    | none => .error (.of (.undefinedVariable name))
    | some (.number value) => (Arithmetic.adopt value).mapError .of
    | some binding =>
      binding.expression name >>= Expr.outcomeWith (unfoldOr beyond bindings depth)

/-- Unfolding ends with the outcome: some depth suffices for it. -/
def Expr.UnfoldsTo (bindings : Table (Binding α)) (e : Expr) (outcome : Except Error α) : Prop :=
  ∃ depth, ∀ beyond, e.outcomeWith (unfoldOr beyond bindings depth) = outcome

variable {beyond : String → Except Error α}

theorem unfoldOr_none {name : String} (h : bindings.find? name = none) (depth : Nat) :
    unfoldOr beyond bindings (depth + 1) name = .error (.of (.undefinedVariable name)) := by
  simp only [unfoldOr, h]

theorem unfoldOr_number {name : String} {value : α}
    (h : bindings.find? name = some (.number value)) (depth : Nat) :
    unfoldOr beyond bindings (depth + 1) name = (Arithmetic.adopt value).mapError .of := by
  simp only [unfoldOr, h]

theorem unfoldOr_expression {name : String} {binding : Binding α}
    (h : bindings.find? name = some binding) (hexpression : binding.IsExpression) (depth : Nat) :
    unfoldOr beyond bindings (depth + 1) name =
      binding.expression name >>= Expr.outcomeWith (unfoldOr beyond bindings depth) := by
  cases binding with
  | number => exact hexpression.elim
  | _ => simp only [unfoldOr, h]

/-! ## What evaluation comes to is what unfolding comes to -/

/-- By induction on the depth: as long as no name is needed for its own value, nothing depends on
the marks. -/
theorem unfoldOr_eq_of_failsOnly {depth : Nat} {path : List String} {name : String}
    (h : FailsOnly (fun err => ¬ err.IsCircular) (meaningWithin bindings depth path name)) :
    unfoldOr beyond bindings depth name = meaningWithin bindings depth path name := by
  induction depth generalizing path name with
  | zero => exact absurd rfl (h _ rfl)
  | succ depth ih =>
      cases hfind : bindings.find? name with
      | none => rw [unfoldOr_none hfind, meaningWithin_none hfind]
      | some binding =>
          by_cases hexpression : binding.IsExpression
          · rw [meaningWithin_expression hfind hexpression] at h ⊢
            rw [unfoldOr_expression hfind hexpression]
            split at h
            case isTrue => exact absurd rfl (h _ rfl)
            case isFalse hpath =>
                rw [if_neg hpath]
                cases he : binding.expression name with
                | error err => rfl
                | ok e =>
                    have houtcome := h.of_bind.2 e he
                    rw [bind_ok, bind_ok]
                    exact Expr.outcomeWith_eq_of_failsOnly e (fun other _ _ hother => ih hother)
                      houtcome
          · cases binding with
            | number value => rw [unfoldOr_number hfind, meaningWithin_number hfind]
            | _ => exact absurd trivial hexpression

/-! ## What unfolding comes to is what evaluation comes to -/

/-- Unfolding that calls it circular when the depth is used up. -/
def unfoldWithin (bindings : Table (Binding α)) : Nat → String → Except Error α :=
  unfoldOr (fun name => .error (.of (.circularDefinition name))) bindings

/-- The depth suffices for the name. -/
def Suffices (bindings : Table (Binding α)) (depth : Nat) (name : String) : Prop :=
  FailsOnly (fun err => ¬ err.IsCircular) (unfoldWithin bindings depth name)

theorem not_suffices_zero (name : String) : ¬ Suffices bindings 0 name :=
  fun h => h _ rfl rfl

/-- More depth changes nothing where less suffices. -/
theorem Suffices.unfoldWithin_succ {depth : Nat} {name : String} (h : Suffices bindings depth name) :
    unfoldWithin bindings (depth + 1) name = unfoldWithin bindings depth name := by
  induction depth generalizing name with
  | zero => exact absurd h (not_suffices_zero name)
  | succ depth ih =>
      cases hfind : bindings.find? name with
      | none => rw [unfoldWithin, unfoldOr_none hfind, unfoldOr_none hfind]
      | some binding =>
          by_cases hexpression : binding.IsExpression
          · rw [Suffices, unfoldWithin, unfoldOr_expression hfind hexpression] at h
            rw [unfoldWithin, unfoldOr_expression hfind hexpression,
              unfoldOr_expression hfind hexpression]
            cases he : binding.expression name with
            | error err => rfl
            | ok e =>
                rw [bind_ok, bind_ok]
                exact Expr.outcomeWith_eq_of_failsOnly e (fun other _ _ hother => ih hother)
                  (h.of_bind.2 e he)
          · cases binding with
            | number value => rw [unfoldWithin, unfoldOr_number hfind, unfoldOr_number hfind]
            | _ => exact absurd trivial hexpression

theorem Suffices.succ {depth : Nat} {name : String} (h : Suffices bindings depth name) :
    Suffices bindings (depth + 1) name := by
  rw [Suffices, h.unfoldWithin_succ]
  exact h

/-- By induction on the depth that suffices for the name: a name that waits for it needs more, so
the name and what it needs are not marked. -/
theorem Suffices.meaningWithin_eq {depth : Nat} {name : String} (h : Suffices bindings depth name)
    {room : Nat} {path : List String} (hroom : Room bindings room path)
    (hpath : ∀ waiting ∈ path, ¬ Suffices bindings depth waiting) :
    meaningWithin bindings room path name = unfoldWithin bindings depth name := by
  induction depth generalizing name room path with
  | zero => exact absurd h (not_suffices_zero name)
  | succ depth ih =>
      have hbefore : ∀ waiting ∈ path, ¬ Suffices bindings depth waiting :=
        fun waiting hmem hwaiting => hpath waiting hmem hwaiting.succ
      -- where less depth suffices too the outcome is the same, so only the least depth is left
      by_cases hless : Suffices bindings depth name
      · rw [hless.unfoldWithin_succ]
        exact ih hless hroom hbefore
      · obtain ⟨room, rfl⟩ := hroom.exists_succ
        have hmarked : name ∉ path := fun hmem => hpath name hmem h
        cases hfind : bindings.find? name with
        | none => rw [unfoldWithin, unfoldOr_none hfind, meaningWithin_none hfind]
        | some binding =>
            by_cases hexpression : binding.IsExpression
            · have hcontains : ¬ path.contains name = true := by simpa using hmarked
              rw [Suffices, unfoldWithin, unfoldOr_expression hfind hexpression] at h
              rw [meaningWithin_expression hfind hexpression, if_neg hcontains, unfoldWithin,
                unfoldOr_expression hfind hexpression]
              cases he : binding.expression name with
              | error err => rfl
              | ok e =>
                  have hneeded : ∀ waiting ∈ name :: path, ¬ Suffices bindings depth waiting :=
                    List.forall_mem_cons.mpr ⟨hless, hbefore⟩
                  rw [bind_ok, bind_ok]
                  exact Expr.outcomeWith_eq_of_failsOnly e
                    (fun other _ _ hother => ih hother (hroom.cons hmarked hfind) hneeded)
                    (h.of_bind.2 e he)
            · cases binding with
              | number value => rw [unfoldWithin, unfoldOr_number hfind, meaningWithin_number hfind]
              | _ => exact absurd trivial hexpression

namespace Expr

variable {e : Expr} {outcome : Except Error α}

theorem unfoldsTo_of_evaluate (h : FailsOnly (fun err => ¬ err.IsCircular) (e.evaluate bindings)) :
    e.UnfoldsTo bindings (e.evaluate bindings) := by
  rw [evaluate_eq_outcomeWith] at h ⊢
  exact ⟨_, fun _ => outcomeWith_eq_of_failsOnly e
    (fun _ _ _ hname => unfoldOr_eq_of_failsOnly hname) h⟩

theorem UnfoldsTo.evaluate_eq (h : e.UnfoldsTo bindings outcome)
    (houtcome : FailsOnly (fun err => ¬ err.IsCircular) outcome) :
    e.evaluate bindings = outcome := by
  obtain ⟨depth, hdepth⟩ := h
  have hwithin : e.outcomeWith (unfoldWithin bindings depth) = outcome := hdepth _
  rw [evaluate_eq_outcomeWith, ← hwithin]
  exact outcomeWith_eq_of_failsOnly e
    (fun name _ _ hname => Suffices.meaningWithin_eq hname room_nil (List.forall_mem_nil _))
    (hwithin ▸ houtcome)

end Expr

end Reckoner
