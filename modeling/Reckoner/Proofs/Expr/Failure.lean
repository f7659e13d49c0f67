import Reckoner.Proofs.Expr.Outcome
import Reckoner.Proofs.Failure

/-!
# Errors of expressions

An expression fails because one of its nodes does or because one of its free names has no value.
Evaluation stops at the first error, so two ways to look names up give the same outcome if they
agree wherever the first one does not fail for certain reasons, and the outcome is not an error for
such a reason either.
-/

namespace Reckoner

variable {α : Type} [Arithmetic α] {p : Error → Prop}

namespace Expr

/-- The errors that nodes have of their own, apart from those of names, meet a condition. -/
structure NodesFailOnly (α : Type) [Arithmetic α] (p : Error → Prop) : Prop where
  constant : ∀ name, p (.of (.missingName name))
  operator : ∀ op (a b : α), FailsOnly p ((Operator.evaluate op a b).mapError .of)
  call : ∀ name (values : List α),
    FailsOnly p ((Function.evaluateNamed name values).mapError .of)
  blank : p (.of .blankOperation)
  foreign : ∀ type, p (.of (.notANode type "evaluate"))

section Free

variable {values : String → Except Error α}

mutual

/-- By induction on the tree: an error comes from a node or from a free name. -/
theorem failsOnly_outcomeWith_of_free (hnodes : NodesFailOnly α p) :
    ∀ e : Expr, ForFree (fun name => FailsOnly p (values name)) e.names →
      FailsOnly p (e.outcomeWith values)
  | .number _, _ | .imaginary _, _ => failsOnly_ok _
  | .constant name, _ => by
      rw [outcomeWith]
      split
      case h_1 => exact failsOnly_ok _
      case h_2 => exact failsOnly_error (hnodes.constant _)
  | .var name, h => by
      cases hconstant : Constant.ofName? name with
      | some c =>
          simp only [outcomeWith, hconstant]
          exact failsOnly_ok _
      | none =>
          simp only [outcomeWith, hconstant]
          exact h.var hconstant
  | .negate e, h => by
      rw [outcomeWith]
      exact (failsOnly_outcomeWith_of_free hnodes e h).bind fun _ _ => failsOnly_ok _
  | .binary op l r, h => by
      rw [names, forFree_append] at h
      rw [outcomeWith]
      exact (failsOnly_outcomeWith_of_free hnodes l h.1).bind fun _ _ =>
        (failsOnly_outcomeWith_of_free hnodes r h.2).bind fun _ _ => hnodes.operator op _ _
  | .call name args, h => by
      rw [outcomeWith]
      exact (failsOnly_outcomesWith_of_free hnodes args h).bind fun _ _ => hnodes.call name _
  | .blank, _ => failsOnly_error hnodes.blank
  | .foreign .., _ => failsOnly_error (hnodes.foreign _)

theorem failsOnly_outcomesWith_of_free (hnodes : NodesFailOnly α p) :
    ∀ es : List Expr, ForFree (fun name => FailsOnly p (values name)) (namesAll es) →
      FailsOnly p (outcomesWith values es)
  | [], _ => failsOnly_ok _
  | e :: rest, h => by
      rw [namesAll, forFree_append] at h
      rw [outcomesWith]
      exact (failsOnly_outcomeWith_of_free hnodes e h.1).bind fun _ _ =>
        (failsOnly_outcomesWith_of_free hnodes rest h.2).bind fun _ _ => failsOnly_ok _

end

theorem failsOnly_outcomeWith (hnodes : NodesFailOnly α p)
    (hvalues : ∀ name, FailsOnly p (values name)) (e : Expr) : FailsOnly p (e.outcomeWith values) :=
  failsOnly_outcomeWith_of_free hnodes e fun name _ _ => hvalues name

theorem failsOnly_outcomesWith (hnodes : NodesFailOnly α p)
    (hvalues : ∀ name, FailsOnly p (values name)) (es : List Expr) :
    FailsOnly p (outcomesWith values es) :=
  failsOnly_outcomesWith_of_free hnodes es fun name _ _ => hvalues name

end Free

section Agreement

variable {f g : String → Except Error α}

mutual

/-- Names behind the first error do not matter, so the outcome stays the same if names with
outcomes of other kinds than the excluded errors keep theirs. -/
theorem outcomeWith_eq_of_failsOnly :
    ∀ e : Expr, ForFree (fun name => FailsOnly p (f name) → g name = f name) e.names →
      FailsOnly p (e.outcomeWith f) → e.outcomeWith g = e.outcomeWith f
  | .number _, _, _ | .imaginary _, _, _ | .constant _, _, _ | .blank, _, _
  | .foreign .., _, _ => rfl
  | .var name, h, houtcome => by
      cases hconstant : Constant.ofName? name with
      | some c => simp only [outcomeWith, hconstant]
      | none =>
          simp only [outcomeWith, hconstant] at houtcome ⊢
          exact h.var hconstant houtcome
  | .negate e, h, houtcome => by
      rw [outcomeWith] at houtcome ⊢
      rw [outcomeWith, outcomeWith_eq_of_failsOnly e h houtcome.of_bind.1]
  | .binary op l r, h, houtcome => by
      rw [names, forFree_append] at h
      rw [outcomeWith] at houtcome ⊢
      obtain ⟨hl, hrest⟩ := houtcome.of_bind
      rw [outcomeWith, outcomeWith_eq_of_failsOnly l h.1 hl]
      cases hleft : l.outcomeWith f with
      | error err => rfl
      | ok a =>
          obtain ⟨hr, -⟩ := (hrest a hleft).of_bind
          rw [bind_ok, bind_ok, outcomeWith_eq_of_failsOnly r h.2 hr]
  | .call name args, h, houtcome => by
      rw [outcomeWith] at houtcome ⊢
      rw [outcomeWith, outcomesWith_eq_of_failsOnly args h houtcome.of_bind.1]

theorem outcomesWith_eq_of_failsOnly :
    ∀ es : List Expr, ForFree (fun name => FailsOnly p (f name) → g name = f name) (namesAll es) →
      FailsOnly p (outcomesWith f es) → outcomesWith g es = outcomesWith f es
  | [], _, _ => rfl
  | e :: rest, h, houtcome => by
      rw [namesAll, forFree_append] at h
      rw [outcomesWith] at houtcome ⊢
      obtain ⟨he, hrest⟩ := houtcome.of_bind
      rw [outcomesWith, outcomeWith_eq_of_failsOnly e h.1 he]
      cases hvalue : e.outcomeWith f with
      | error err => rfl
      | ok v =>
          obtain ⟨hvalues, -⟩ := (hrest v hvalue).of_bind
          rw [bind_ok, bind_ok, outcomesWith_eq_of_failsOnly rest h.2 hvalues]

end

end Agreement

end Expr

/-! ## Numbers -/

/-- What nodes fail with among numbers. -/
def Cause.IsOfNode : Cause → Prop
  | .missingName _ | .arithmetic _ | .unknownFunction _ | .arity .. | .complexArgument _ => True
  | .blankOperation | .notANode .. => True
  | _ => False

namespace Scalar

theorem failsOnly_faulty {β : Type} {p : Cause → Prop} (hp : ∀ fault, p (.arithmetic fault))
    (outcome : Except Fault β) : FailsOnly p (faulty outcome) :=
  FailsOnly.mapError fun fault _ => hp fault

theorem failsOnly_evaluateOperator (op : String) (a b : Scalar) :
    FailsOnly Cause.IsOfNode (Operator.evaluate op a b) := by
  unfold Operator.evaluate
  split
  case h_1 => exact failsOnly_faulty (fun _ => trivial) _
  case h_2 => exact failsOnly_error trivial

theorem failsOnly_evaluateNamed (name : String) (args : List Scalar) :
    FailsOnly Cause.IsOfNode (Function.evaluateNamed name args) := by
  unfold Function.evaluateNamed
  split
  case h_2 => exact failsOnly_error trivial
  case h_1 f _ =>
      unfold Function.evaluate
      split
      case isFalse => exact failsOnly_error trivial
      case isTrue =>
          change FailsOnly Cause.IsOfNode (applyFunction f args)
          unfold applyFunction
          split
          case isTrue => exact failsOnly_error trivial
          case isFalse => exact failsOnly_faulty (fun _ => trivial) _

theorem nodesFailOnly (hp : ∀ cause : Cause, cause.IsOfNode → p (.of cause)) :
    Expr.NodesFailOnly Scalar p where
  constant _ := hp _ trivial
  operator op a b := FailsOnly.mapError ((failsOnly_evaluateOperator op a b).mono hp)
  call name args := FailsOnly.mapError ((failsOnly_evaluateNamed name args).mono hp)
  blank := hp _ trivial
  foreign _ := hp _ trivial

end Scalar

end Reckoner
