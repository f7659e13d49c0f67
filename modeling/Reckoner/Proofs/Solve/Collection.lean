import Reckoner.Proofs.Scope.Override
import Reckoner.Solve.Linear

/-!
# Collected forms

What is collected of an expression depends on nothing but what its names mean: the form is that of
the recursion over the tree that asks for the meaning of each name anew.
-/

namespace Reckoner

open Reckoner.Action

/-- The error is about a linear form that is missing, so that another way is tried. -/
def Error.IsNonlinear (err : Error) : Prop := ∃ why, err.cause = .nonlinear why

/-- The error is not about a linear form that is missing. -/
def Error.IsFinal (err : Error) : Prop := ∀ why, err.cause ≠ .nonlinear why

variable {α : Type} [Numeric α]

namespace Expr

/-- The form of an expression without the unknown, in terms of the outcomes of its names. -/
def constantFormWith (values : String → Except Error α) (e : Expr) :
    Except Error (LinearForm α) := do
  return .ofConstant (← e.outcomeWith values)

/-- The form of an expression that must not contain the unknown. -/
def soleFormWith (values : String → Except Error α) (name : String) (why : Nonlinearity)
    (e : Expr) : Except Error (LinearForm α) := do
  if ← (e.mentions name).mapError .of then .error (.of (.nonlinear why))
  else constantFormWith values e

/-- The linear form of an expression in an unknown, in terms of the outcomes of its names. -/
def formWith (values : String → Except Error α) (name : String) :
    Expr → Except Error (LinearForm α)
  | var other => if other = name then .ok .unknown else constantFormWith values (var other)
  | negate e => LinearForm.negate <$> formWith values name e
  | binary op l r =>
    if op = "^" then soleFormWith values name .power (binary op l r)
    else do
      let f ← formWith values name l
      let g ← formWith values name r
      (LinearForm.combine op f g).mapError .of
  | call f args => soleFormWith values name (.insideFunction f) (call f args)
  | foreign type _ => .error (.of (.notANode type "collect_term"))
  | e => constantFormWith values e

theorem constantFormWith_of_soleFormWith {values : String → Except Error α} {name : String}
    {why : Nonlinearity} {e : Expr} {form : LinearForm α}
    (h : e.soleFormWith values name why = .ok form) : e.constantFormWith values = .ok form := by
  obtain ⟨mentioned, -, h⟩ := exists_of_bind_eq_ok h
  cases mentioned with
  | true => cases h
  | false => exact h

/-- What is said of an expression and its form, by induction on the expression: an expression
without the unknown has its value as the form, and operators put the forms of operands together. -/
theorem of_formWith {p : Expr → LinearForm α → Prop} {values : String → Except Error α}
    {name : String}
    (hconstant : ∀ e form, e.constantFormWith values = .ok form → p e form)
    (hunknown : p (.var name) .unknown)
    (hnegate : ∀ e f, p e f → p (.negate e) f.negate)
    (hbinary : ∀ op l r f g form, p l f → p r g → LinearForm.combine op f g = .ok form →
      p (.binary op l r) form) :
    ∀ (e : Expr) {form : LinearForm α}, e.formWith values name = .ok form → p e form
  | .number _, _, h | .imaginary _, _, h | .constant _, _, h | .blank, _, h => hconstant _ _ h
  | .foreign .., _, h => by cases h
  | .var other, _, h => by
      rw [formWith] at h
      split at h
      case isTrue hother =>
          cases h
          exact hother ▸ hunknown
      case isFalse => exact hconstant _ _ h
  | .negate e, _, h => by
      rw [formWith] at h
      obtain ⟨f, hf, h⟩ := exists_of_bind_eq_ok h
      cases h
      exact hnegate e f (of_formWith hconstant hunknown hnegate hbinary e hf)
  | .binary op l r, _, h => by
      rw [formWith] at h
      split at h
      case isTrue => exact hconstant _ _ (constantFormWith_of_soleFormWith h)
      case isFalse =>
          obtain ⟨f, hf, h⟩ := exists_of_bind_eq_ok h
          obtain ⟨g, hg, h⟩ := exists_of_bind_eq_ok h
          exact hbinary op l r f g _ (of_formWith hconstant hunknown hnegate hbinary l hf)
            (of_formWith hconstant hunknown hnegate hbinary r hg) (mapError_eq_ok h)
  | .call .., _, h => hconstant _ _ (constantFormWith_of_soleFormWith h)

variable {bound : Table (Binding α)} {name : String}

/-- What is evaluated while a name is not bound keeps its value when the name is bound. -/
theorem exists_value_of_constantFormWith (hunbound : bound.find? name = none) {e : Expr}
    {form : LinearForm α} (h : e.constantFormWith (meaning bound) = .ok form) :
    ∃ value, form = .ofConstant value ∧
      ∀ binding, e.evaluate (bound.insert name binding) = .ok value := by
  obtain ⟨value, hvalue, h⟩ := exists_of_bind_eq_ok h
  cases h
  exact ⟨value, rfl, fun binding =>
    evaluate_insert hunbound binding (e.evaluate_eq_outcomeWith.trans hvalue)⟩

theorem gives_ofConstant (e : Expr) :
    Gives (Sound bound []) (do return LinearForm.ofConstant (← evaluateWith (lookup bound) false e))
      (constantFormWith (meaning bound) e) :=
  (gives_evaluateIn false e).bind fun _ _ => gives_pure _

theorem gives_collectConstant (why : Nonlinearity) (e : Expr) :
    Gives (Sound bound []) (collectConstant (lookup bound) name why e)
      (soleFormWith (meaning bound) name why e) := by
  refine Gives.bind (gives_ofExcept _) fun mentioned _ => ?_
  split
  case isTrue => exact gives_ofExcept _
  case isFalse => exact gives_ofConstant e

/-- By induction on the tree, one case for each node. -/
theorem gives_collectWith : ∀ e : Expr,
    Gives (Sound bound []) (collectWith (lookup bound) name e) (formWith (meaning bound) name e)
  | .number x => gives_ofConstant (.number x)
  | .imaginary x => gives_ofConstant (.imaginary x)
  | .constant c => gives_ofConstant (.constant c)
  | .blank => gives_ofConstant .blank
  | .foreign .. => gives_ofExcept _
  | .var other => by
      rw [collectWith, formWith]
      split
      case isTrue => exact gives_pure _
      case isFalse => exact gives_ofConstant (.var other)
  | .negate e => by
      rw [collectWith, formWith, map_eq_pure_bind]
      exact (gives_collectWith e).bind fun _ _ => gives_pure _
  | .binary op l r => by
      rw [collectWith, formWith]
      split
      case isTrue => exact gives_collectConstant _ _
      case isFalse =>
          refine (gives_collectWith l).bind fun f _ => ?_
          exact (gives_collectWith r).bind fun g _ => gives_ofExcept _
  | .call f args => gives_collectConstant _ _

/-- The form that is collected among bindings is the one that the meanings of the names have. -/
theorem collect_eq_formWith (e : Expr) : e.collect bound name = e.formWith (meaning bound) name :=
  (gives_collectWith e _ sound_fresh).1

end Expr

end Reckoner
