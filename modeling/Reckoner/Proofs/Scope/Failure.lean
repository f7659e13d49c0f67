import Reckoner.Proofs.Expr.Failure
import Reckoner.Proofs.Expr.Position
import Reckoner.Proofs.Scope.Memory

/-!
# Errors of evaluation

Evaluation fails because a node does, because a name is undefined or circular, because a number from
outside has no normal form, or because what a variable is bound to is refused. A variable is called
undefined only if nothing is bound to it and the expression leads to it: it occurs there, or in what
is bound to a variable that the expression leads to.
-/

namespace Reckoner

variable {α : Type} {p : Error → Prop} {bindings : Table (Binding α)}

/-- What variables are bound to is refused with none but the errors. -/
def RefusedOnly (p : Error → Prop) (bindings : Table (Binding α)) : Prop :=
  ∀ name binding, bindings.find? name = some binding → FailsOnly p (binding.expression name)

theorem RefusedOnly.without (h : RefusedOnly p bindings) (names : List String) :
    RefusedOnly p (bindings.without names) := by
  intro name binding hfind
  rw [Table.find?_without] at hfind
  split at hfind
  case isTrue => cases hfind
  case isFalse => exact h name binding hfind

theorem RefusedOnly.insert (h : RefusedOnly p bindings) {name : String} {binding : Binding α}
    (hbinding : FailsOnly p (binding.expression name)) :
    RefusedOnly p (bindings.insert name binding) := by
  intro other found hfind
  rw [Table.find?_insert] at hfind
  split at hfind
  case isTrue heq => cases hfind; exact heq ▸ hbinding
  case isFalse => exact h other found hfind

/-- The errors that evaluation has of its own are among the errors. -/
structure EvaluationFailsOnly (α : Type) [Arithmetic α] (p : Error → Prop) : Prop where
  nodes : Expr.NodesFailOnly α p
  adopt : ∀ value : α, FailsOnly p ((Arithmetic.adopt value : Except Cause α).mapError .of)
  undefined : ∀ name, p (.of (.undefinedVariable name))
  circular : ∀ name, p (.of (.circularDefinition name))

namespace EvaluationFailsOnly

variable [Arithmetic α]

/-- By induction on the depth. -/
theorem failsOnly_meaningWithin (hp : EvaluationFailsOnly α p) (h : RefusedOnly p bindings)
    (depth : Nat) (path : List String) (name : String) :
    FailsOnly p (meaningWithin bindings depth path name) := by
  induction depth generalizing path name with
  | zero => exact failsOnly_error (hp.circular name)
  | succ depth ih =>
      rw [meaningWithin]
      split
      case h_1 => exact failsOnly_error (hp.undefined name)
      case h_2 => exact hp.adopt _
      case h_3 binding _ hfind =>
          split
          case isTrue => exact failsOnly_error (hp.circular name)
          case isFalse =>
              exact (h name binding hfind).bind fun e _ =>
                Expr.failsOnly_outcomeWith hp.nodes (ih _) e

theorem failsOnly_meaning (hp : EvaluationFailsOnly α p) (h : RefusedOnly p bindings)
    (name : String) : FailsOnly p (meaning bindings name) := hp.failsOnly_meaningWithin h _ _ name

theorem failsOnly_evaluate (hp : EvaluationFailsOnly α p) (h : RefusedOnly p bindings) (e : Expr) :
    FailsOnly p (e.evaluate bindings) := by
  rw [Expr.evaluate_eq_outcomeWith]
  exact Expr.failsOnly_outcomeWith hp.nodes (hp.failsOnly_meaning h) e

end EvaluationFailsOnly

/-! ## Numbers -/

/-- What evaluation among numbers fails with. -/
inductive Cause.IsOfEvaluation : Cause → Prop
  | node {cause : Cause} (h : cause.IsOfNode) : IsOfEvaluation cause
  | syntactic {cause : Cause} (h : cause.kind.IsSyntactic) : IsOfEvaluation cause
  | undefined (name : String) : IsOfEvaluation (.undefinedVariable name)
  | circular (name : String) : IsOfEvaluation (.circularDefinition name)
  | invalid (name shown : String) : IsOfEvaluation (.invalidBinding name shown)

/-- The error is one that evaluation fails with. -/
def Error.IsOfEvaluation (err : Error) : Prop := err.cause.IsOfEvaluation

theorem evaluationFailsOnly_isOfEvaluation :
    EvaluationFailsOnly Scalar Error.IsOfEvaluation where
  nodes := Scalar.nodesFailOnly fun _ => .node
  adopt _ := FailsOnly.mapError (Scalar.failsOnly_faulty (fun _ => .node trivial) _)
  undefined name := .undefined name
  circular name := .circular name

theorem refusedOnly_isOfEvaluation (bindings : Table (Binding Scalar)) :
    RefusedOnly Error.IsOfEvaluation bindings := by
  intro name binding _
  cases binding with
  | number => exact failsOnly_error (.undefined name)
  | other shown => exact failsOnly_error (.invalid name shown)
  | tree e => exact failsOnly_ok e
  | text source => exact fun err herr => .syntactic (Expr.isRefusalOf_of_ofText herr).kind

theorem Expr.isOfEvaluation_evaluate (bindings : Table (Binding Scalar)) (e : Expr) :
    FailsOnly Error.IsOfEvaluation (e.evaluate bindings) :=
  evaluationFailsOnly_isOfEvaluation.failsOnly_evaluate (refusedOnly_isOfEvaluation bindings) e

/-! ## Undefined variables -/

section

variable {bindings : Table (Binding Scalar)}

/-- The error is not about an undefined variable. -/
def Error.IsBound (err : Error) : Prop := ∀ name, err.cause ≠ .undefinedVariable name

/-- An undefined variable that the error is about is not bound, and the name needs it. -/
def Error.Misses (bindings : Table (Binding Scalar)) (name : String) (err : Error) : Prop :=
  ∀ missing, err.cause = .undefinedVariable missing →
    bindings.find? missing = none ∧ Relation.ReflTransGen (Needs bindings) name missing

theorem Error.IsBound.misses {err : Error} (h : err.IsBound) (name : String) :
    err.Misses bindings name := fun missing hcause => absurd hcause (h missing)

theorem isBound_of_isOfNode {cause : Cause} (h : cause.IsOfNode) : (Error.of cause).IsBound := by
  rintro name rfl
  exact h

/-- What stands for a variable may be refused, but it does not miss any variable. -/
theorem Binding.isBound_expression {binding : Binding Scalar} (h : binding.IsExpression)
    (name : String) : FailsOnly Error.IsBound (binding.expression name) := by
  cases binding with
  | number => exact h.elim
  | other => exact failsOnly_error fun _ hcause => by cases hcause
  | tree e => exact failsOnly_ok e
  | text source =>
      intro err herr missing hcause
      have hkind := (Expr.isRefusalOf_of_ofText herr).kind
      rw [hcause] at hkind
      rcases hkind with hkind | hkind <;> cases hkind

theorem isBound_adopt (value : Scalar) :
    FailsOnly Error.IsBound ((Arithmetic.adopt value : Except Cause Scalar).mapError .of) :=
  FailsOnly.mapError (Scalar.failsOnly_faulty (fun _ _ hcause => by cases hcause) _)

/-- By induction on the depth. -/
theorem misses_meaningWithin (depth : Nat) (path : List String) (name : String) :
    FailsOnly (Error.Misses bindings name) (meaningWithin bindings depth path name) := by
  induction depth generalizing path name with
  | zero => exact failsOnly_error fun _ hcause => by cases hcause
  | succ depth ih =>
      cases hfind : bindings.find? name with
      | none =>
          rw [meaningWithin_none hfind]
          refine failsOnly_error fun missing hcause => ?_
          cases hcause
          exact ⟨hfind, .refl⟩
      | some binding =>
          by_cases hexpression : binding.IsExpression
          · rw [meaningWithin_expression hfind hexpression]
            split
            case isTrue => exact failsOnly_error fun _ hcause => by cases hcause
            case isFalse =>
                refine ((binding.isBound_expression hexpression name).mono
                  fun _ h => h.misses name).bind fun e he => ?_
                refine Expr.failsOnly_outcomeWith_of_free
                  (Scalar.nodesFailOnly fun _ h => (isBound_of_isOfNode h).misses name) e
                  fun next hmem hfree => ?_
                have hneeds : Needs bindings name next := ⟨binding, e, hfind, he, hmem, hfree⟩
                refine (ih (name :: path) next).mono fun err hmisses missing hcause => ?_
                obtain ⟨hnone, hreached⟩ := hmisses missing hcause
                exact ⟨hnone, hreached.head hneeds⟩
          · cases binding with
            | number value =>
                rw [meaningWithin_number hfind]
                exact (isBound_adopt value).mono fun _ h => h.misses name
            | _ => exact absurd trivial hexpression

theorem misses_meaning (name : String) :
    FailsOnly (Error.Misses bindings name) (meaning bindings name) :=
  misses_meaningWithin _ _ _

/-- A variable that is bound is never called undefined. -/
theorem Expr.failsOnly_evaluate_of_bound {name : String} {binding : Binding Scalar}
    (h : bindings.find? name = some binding) (e : Expr) :
    FailsOnly (fun err => err.cause ≠ .undefinedVariable name) (e.evaluate bindings) := by
  rw [evaluate_eq_outcomeWith]
  refine failsOnly_outcomeWith (Scalar.nodesFailOnly fun _ h => isBound_of_isOfNode h name)
    (fun other => ?_) e
  refine (misses_meaning other).mono fun err hmisses hcause => ?_
  rw [(hmisses name hcause).1] at h
  cases h

end

end Reckoner
