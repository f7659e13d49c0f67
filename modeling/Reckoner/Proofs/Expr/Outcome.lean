import Reckoner.Expr.Evaluation
import Reckoner.Proofs.Expr.Variables
import Reckoner.Proofs.Outcome

/-!
# Outcomes without a scope

`outcomeWith` is what evaluation comes to when every name has an outcome of its own. Only the free
names matter for it, and all of them have values where the expression has one. Evaluation whose
look-ups have these outcomes, whatever they do to the state, has this outcome too.
-/

namespace Reckoner

variable {α : Type} [Arithmetic α]

namespace Expr

/-- A condition on the free names among some names. -/
def ForFree (p : String → Prop) (names : List String) : Prop :=
  ∀ name ∈ names, Constant.isName name = false → p name

theorem forFree_append {p : String → Prop} {xs ys : List String} :
    ForFree p (xs ++ ys) ↔ ForFree p xs ∧ ForFree p ys :=
  List.forall_mem_append

theorem ForFree.var {p : String → Prop} {name : String} (h : ForFree p (var name).names)
    (hconstant : Constant.ofName? name = none) : p name :=
  h name List.mem_cons_self (by rw [Constant.isName, hconstant]; rfl)

mutual

/-- The outcome of an expression whose names have outcomes. -/
def outcomeWith (values : String → Except Error α) : Expr → Except Error α
  | number x => .ok (Arithmetic.number x)
  | imaginary x => .ok (Arithmetic.imaginary x)
  | constant name =>
    match Constant.ofName? name with
    | some c => .ok (Arithmetic.constant c)
    | none => .error (.of (.missingName name))
  | var name =>
    match Constant.ofName? name with
    | some c => .ok (Arithmetic.constant c)
    | none => values name
  | negate e => outcomeWith values e >>= fun v => .ok (Arithmetic.negate v)
  | binary op l r =>
    outcomeWith values l >>= fun a => outcomeWith values r >>= fun b =>
      (Operator.evaluate op a b).mapError .of
  | call name args =>
    outcomesWith values args >>= fun vs => (Function.evaluateNamed name vs).mapError .of
  | blank => .error (.of .blankOperation)
  | foreign type _ => .error (.of (.notANode type "evaluate"))

/-- The outcomes of arguments, up to the first error. -/
def outcomesWith (values : String → Except Error α) : List Expr → Except Error (List α)
  | [] => .ok []
  | e :: rest =>
    outcomeWith values e >>= fun v => outcomesWith values rest >>= fun vs => .ok (v :: vs)

end

/-! ## Free names -/

section Names

variable {f g : String → Except Error α}

mutual

/-- Only the free names matter. -/
theorem outcomeWith_congr : ∀ e : Expr, ForFree (fun name => f name = g name) e.names →
    outcomeWith f e = outcomeWith g e
  | .var name, h => by
      cases hconstant : Constant.ofName? name with
      | some c => simp only [outcomeWith, hconstant]
      | none =>
          simp only [outcomeWith, hconstant]
          exact h.var hconstant
  | .negate e, h => by
      rw [outcomeWith, outcomeWith, outcomeWith_congr e h]
  | .binary _ l r, h => by
      rw [names, forFree_append] at h
      rw [outcomeWith, outcomeWith, outcomeWith_congr l h.1, outcomeWith_congr r h.2]
  | .call _ args, h => by
      rw [outcomeWith, outcomeWith, outcomesWith_congr args h]
  | .number _, _ | .imaginary _, _ | .constant _, _ | .blank, _ | .foreign .., _ => rfl

theorem outcomesWith_congr : ∀ es : List Expr,
    ForFree (fun name => f name = g name) (namesAll es) → outcomesWith f es = outcomesWith g es
  | [], _ => rfl
  | e :: rest, h => by
      rw [namesAll, forFree_append] at h
      rw [outcomesWith, outcomesWith, outcomeWith_congr e h.1, outcomesWith_congr rest h.2]

end

mutual

/-- Where an expression has a value, all of its free names have one. -/
theorem exists_of_outcomeWith : ∀ (e : Expr) {v : α}, outcomeWith f e = .ok v →
    ForFree (fun name => ∃ w, f name = .ok w) e.names
  | .var name, v, h => by
      intro other hother hfree
      rw [List.mem_singleton.mp hother] at hfree ⊢
      have hconstant : Constant.ofName? name = none := by simpa [Constant.isName] using hfree
      simp only [outcomeWith, hconstant] at h
      exact ⟨v, h⟩
  | .negate e, _, h => by
      rw [outcomeWith] at h
      obtain ⟨_, he, -⟩ := exists_of_bind_eq_ok h
      exact exists_of_outcomeWith e he
  | .binary _ l r, _, h => by
      rw [outcomeWith] at h
      obtain ⟨_, hl, h⟩ := exists_of_bind_eq_ok h
      obtain ⟨_, hr, -⟩ := exists_of_bind_eq_ok h
      exact forFree_append.mpr ⟨exists_of_outcomeWith l hl, exists_of_outcomeWith r hr⟩
  | .call _ args, _, h => by
      rw [outcomeWith] at h
      obtain ⟨_, hargs, -⟩ := exists_of_bind_eq_ok h
      exact exists_of_outcomesWith args hargs
  | .number _, _, _ | .imaginary _, _, _ | .constant _, _, _ | .blank, _, _
  | .foreign .., _, _ => fun _ hname => by cases hname

theorem exists_of_outcomesWith : ∀ (es : List Expr) {vs : List α}, outcomesWith f es = .ok vs →
    ForFree (fun name => ∃ w, f name = .ok w) (namesAll es)
  | [], _, _ => fun _ hname => by cases hname
  | e :: rest, _, h => by
      rw [outcomesWith] at h
      obtain ⟨_, he, h⟩ := exists_of_bind_eq_ok h
      obtain ⟨_, hrest, -⟩ := exists_of_bind_eq_ok h
      exact forFree_append.mpr ⟨exists_of_outcomeWith e he, exists_of_outcomesWith rest hrest⟩

end

end Names

/-! ## Evaluation in a state -/

section State

open Reckoner.Action

variable {inv : Memory α → Prop} {lookup : String → Run α α} {values : String → Except Error α}
  {traced : Bool}

omit [Arithmetic α] in
theorem gives_noted (hnote : ∀ m reductions, inv m → inv { m with reductions })
    (result : Except Cause α) (reduction : α → Reduction α) :
    Gives inv (do
      let v ← Action.ofCause result
      Run.note traced (reduction v)
      return v) (result.mapError .of) := by
  cases result with
  | error cause => exact gives_ofExcept _
  | ok v =>
      have hstep : Gives inv (Run.note traced (reduction v)) (.ok ()) := by
        refine gives_update fun m hm => ?_
        cases traced with
        | false => exact hm
        | true => exact hnote m _ hm
      exact hstep.bind fun _ _ => gives_pure v

mutual

/-- Evaluation has the outcome that the outcomes of its look-ups come to. -/
theorem gives_evaluateWith (hnote : ∀ m reductions, inv m → inv { m with reductions }) :
    ∀ e : Expr, ForFree (fun name => Gives inv (lookup name) (values name)) e.names →
      Gives inv (evaluateWith lookup traced e) (outcomeWith values e)
  | .number x, _ => gives_pure _
  | .imaginary x, _ => gives_pure _
  | .constant name, _ => by
      cases hconstant : Constant.ofName? name with
      | some c =>
          simp only [evaluateWith, outcomeWith, hconstant]
          exact gives_pure _
      | none =>
          simp only [evaluateWith, outcomeWith, hconstant]
          exact gives_ofExcept _
  | .var name, h => by
      cases hconstant : Constant.ofName? name with
      | some c =>
          simp only [evaluateWith, outcomeWith, hconstant]
          exact gives_pure _
      | none =>
          simp only [evaluateWith, outcomeWith, hconstant]
          exact h.var hconstant
  | .negate e, h => by
      rw [evaluateWith, outcomeWith]
      exact (gives_evaluateWith hnote e h).bind fun _ _ => gives_pure _
  | .binary op l r, h => by
      rw [names, forFree_append] at h
      rw [evaluateWith, outcomeWith]
      refine (gives_evaluateWith hnote l h.1).bind fun a _ =>
        (gives_evaluateWith hnote r h.2).bind fun b _ => ?_
      exact gives_noted hnote _ _
  | .call name args, h => by
      rw [evaluateWith, outcomeWith]
      exact (gives_evaluateAllWith hnote args h).bind fun values _ => gives_noted hnote _ _
  | .blank, _ => gives_ofExcept _
  | .foreign .., _ => gives_ofExcept _

theorem gives_evaluateAllWith (hnote : ∀ m reductions, inv m → inv { m with reductions }) :
    ∀ es : List Expr, ForFree (fun name => Gives inv (lookup name) (values name)) (namesAll es) →
      Gives inv (evaluateAllWith lookup traced es) (outcomesWith values es)
  | [], _ => gives_pure _
  | e :: rest, h => by
      rw [namesAll, forFree_append] at h
      rw [evaluateAllWith, outcomesWith]
      exact (gives_evaluateWith hnote e h.1).bind fun _ _ =>
        (gives_evaluateAllWith hnote rest h.2).bind fun _ _ => gives_pure _

end

end State

end Expr

end Reckoner
