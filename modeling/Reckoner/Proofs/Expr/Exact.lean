import Reckoner.Proofs.Expr.Outcome
import Mathlib.Algebra.Field.Basic
import Mathlib.Data.List.Forall2

/-!
# Exact arithmetic

Where numbers are those of a field, a product may be divided by dividing its last factor, and so
may what has a sign. Expressions that differ in this have the same value, whatever their names
stand for.
-/

namespace Reckoner

/-- The multiplication and division of a field, in which nothing is divided by zero. What powers
and functions are makes no difference. -/
class ExactArithmetic (K : Type) [Field K] extends Arithmetic K where
  negate_eq (x : K) : negate x = -x
  multiply_eq (x y : K) : operate .multiply x y = .ok (x * y)
  divide_eq (x : K) {y : K} (hy : y ≠ 0) : operate .divide x y = .ok (x / y)
  divide_zero : ∃ cause, ∀ x, operate .divide x 0 = .error cause

open Classical in
/-- The operations of a field, in which there are no powers. -/
noncomputable def operateExactly {K : Type} [Field K] (op : Operator) (x y : K) :
    Except Cause K :=
  match op with
  | .add => .ok (x + y)
  | .subtract => .ok (x - y)
  | .multiply => .ok (x * y)
  | .divide => if y = 0 then .error (.arithmetic .divisionByZero) else .ok (x / y)
  | .power => .error (.missingName "^")

theorem nonempty_exactArithmetic (K : Type) [Field K] : Nonempty (ExactArithmetic K) :=
  ⟨{
    number := fun _ => 0
    imaginary := fun _ => 0
    constant := fun _ => 0
    negate := fun x => -x
    operate := operateExactly
    apply := fun f _ => .error (.unknownFunction f.name)
    adopt := .ok
    negate_eq := fun _ => rfl
    multiply_eq := fun _ _ => rfl
    divide_eq := fun _ _ hy => if_neg hy
    divide_zero := ⟨.arithmetic .divisionByZero, fun _ => if_pos rfl⟩ }⟩

section Laws

variable {K : Type} [Field K] [ExactArithmetic K]

theorem evaluate_multiply (x y : K) : Operator.evaluate "*" x y = .ok (x * y) :=
  ExactArithmetic.multiply_eq x y

/-- A division has an outcome that is linear in the dividend. -/
theorem evaluate_divide_of_linear (y : K) {f : K → K} (hf : ∀ x, f x / y = f (x / y)) (x : K) :
    Operator.evaluate "/" (f x) y = (Operator.evaluate "/" x y).map f := by
  change Arithmetic.operate .divide (f x) y = (Arithmetic.operate .divide x y).map f
  by_cases hy : y = 0
  · subst hy
    obtain ⟨cause, hcause⟩ := ExactArithmetic.divide_zero (K := K)
    rw [hcause, hcause]
    rfl
  · rw [ExactArithmetic.divide_eq (f x) hy, ExactArithmetic.divide_eq x hy, hf]
    rfl

theorem evaluate_divide_multiply (x y z : K) :
    Operator.evaluate "/" (x * y) z = (Operator.evaluate "/" y z).map (x * ·) :=
  evaluate_divide_of_linear z (fun w => mul_div_assoc x w z) y

theorem evaluate_divide_negate (x y : K) :
    Operator.evaluate "/" (Arithmetic.negate x) y =
      (Operator.evaluate "/" x y).map Arithmetic.negate := by
  have hneg : (Arithmetic.negate : K → K) = fun x => -x := funext ExactArithmetic.negate_eq
  rw [hneg]
  exact evaluate_divide_of_linear y (fun w => neg_div y w) x

end Laws

namespace Expr

/-- The expressions have the same outcome in all exact arithmetic. -/
def SameValue (a b : Expr) : Prop :=
  ∀ (K : Type) [Field K] [ExactArithmetic K] (values : String → Except Error K),
    a.outcomeWith values = b.outcomeWith values

/-- The expressions have the same outcomes one by one. -/
abbrev SameValues (as bs : List Expr) : Prop := List.Forall₂ SameValue as bs

namespace SameValue

variable {a b c d : Expr}

theorem refl (a : Expr) : SameValue a a := fun _ _ _ _ => rfl

theorem trans (h : SameValue a b) (h' : SameValue b c) : SameValue a c :=
  fun K _ _ values => (h K values).trans (h' K values)

theorem negate (h : SameValue a b) : SameValue (.negate a) (.negate b) := by
  intro K _ _ values
  rw [outcomeWith, outcomeWith, h K values]

theorem binary (op : String) (h : SameValue a b) (h' : SameValue c d) :
    SameValue (.binary op a c) (.binary op b d) := by
  intro K _ _ values
  rw [outcomeWith, outcomeWith, h K values, h' K values]

theorem outcomes {as bs : List Expr} (h : SameValues as bs) {K : Type} [Field K]
    [ExactArithmetic K] (values : String → Except Error K) :
    outcomesWith values as = outcomesWith values bs := by
  induction h with
  | nil => rfl
  | cons hhead _ ih => rw [outcomesWith, outcomesWith, hhead K values, ih]

theorem call (name : String) {as bs : List Expr} (h : SameValues as bs) :
    SameValue (.call name as) (.call name bs) := by
  intro K _ _ values
  rw [outcomeWith, outcomeWith, outcomes h values]

/-- A product is divided by dividing its last factor. -/
theorem divide_multiply (a b c : Expr) :
    SameValue (.binary "/" (.binary "*" a b) c) (.binary "*" a (.binary "/" b c)) := by
  intro K _ _ values
  simp only [outcomeWith]
  cases a.outcomeWith values with
  | error e => rfl
  | ok x =>
      cases b.outcomeWith values with
      | error e => rfl
      | ok y =>
          simp only [bind_ok, evaluate_multiply, Except.mapError]
          cases c.outcomeWith values with
          | error e => rfl
          | ok z =>
              simp only [bind_ok, evaluate_divide_multiply]
              cases Operator.evaluate "/" y z with
              | error cause => rfl
              | ok w => rfl

/-- What has a sign is divided under the sign. -/
theorem divide_negate (a b : Expr) :
    SameValue (.binary "/" (.negate a) b) (.negate (.binary "/" a b)) := by
  intro K _ _ values
  simp only [outcomeWith]
  cases a.outcomeWith values with
  | error e => rfl
  | ok x =>
      cases b.outcomeWith values with
      | error e => rfl
      | ok y =>
          simp only [bind_ok, evaluate_divide_negate]
          cases Operator.evaluate "/" x y with
          | error cause => rfl
          | ok w => rfl

end SameValue

theorem SameValues.refl (as : List Expr) : SameValues as as :=
  List.forall₂_same.mpr fun a _ => .refl a

theorem SameValues.append {as bs cs ds : List Expr} (h : SameValues as bs) (h' : SameValues cs ds) :
    SameValues (as ++ cs) (bs ++ ds) := List.rel_append h h'

end Expr

end Reckoner
