import Reckoner.Proofs.Double.Value
import Reckoner.Proofs.Outcome
import Reckoner.Solve.Linear
import Mathlib.Algebra.Order.Field.Basic
import Mathlib.Algebra.Order.Field.Rat
import Mathlib.Tactic.FieldSimp
import Mathlib.Tactic.Positivity
import Mathlib.Tactic.Ring

/-!
# Exact numbers to solve with

Where the numbers are those of an ordered field, and nothing is rounded, a number agrees with
itself, so that a linear form agrees with its own values, and its root is the root of the field.
-/

namespace Reckoner

/-- The exact arithmetic of a field. Nothing is said of division by zero, of powers, functions and
constants, of other literals than zero and one, and of sizes and their order. -/
class ExactField (K : Type) [Field K] [Numeric K] : Prop where
  number_zero : (Arithmetic.number 0.0 : K) = 0
  number_one : (Arithmetic.number 1.0 : K) = 1
  negate_eq (x : K) : Arithmetic.negate x = -x
  adopt_eq (x : K) : Arithmetic.adopt x = .ok x
  operate_add (x y : K) : Arithmetic.operate .add x y = .ok (x + y)
  operate_subtract (x y : K) : Arithmetic.operate .subtract x y = .ok (x - y)
  operate_multiply (x y : K) : Arithmetic.operate .multiply x y = .ok (x * y)
  operate_divide (x : K) {y : K} (hy : y ≠ 0) : Arithmetic.operate .divide x y = .ok (x / y)
  add_eq (x y : K) : Numeric.add x y = .ok (x + y)
  sub_eq (x y : K) : Numeric.sub x y = .ok (x - y)
  mul_eq (x y : K) : Numeric.mul x y = .ok (x * y)
  div_eq (x : K) {y : K} (hy : y ≠ 0) : Numeric.div x y = .ok (x / y)
  isZero_iff (x : K) : Numeric.isZero x = true ↔ x = 0

/-- The exact arithmetic of an ordered field. Nothing is said of division by zero, of powers,
functions and constants, and of other literals than those that solving uses. -/
class ExactNumeric (K : Type) [Field K] [LinearOrder K] [IsStrictOrderedRing K] extends
    Numeric K where
  number_zero : number 0.0 = 0
  number_one : number 1.0 = 1
  number_two : number 2.0 = 2
  number_billionth : 0 ≤ number 1e-9
  negate_eq (x : K) : negate x = -x
  adopt_eq (x : K) : adopt x = .ok x
  operate_add (x y : K) : operate .add x y = .ok (x + y)
  operate_subtract (x y : K) : operate .subtract x y = .ok (x - y)
  operate_multiply (x y : K) : operate .multiply x y = .ok (x * y)
  operate_divide (x : K) {y : K} (hy : y ≠ 0) : operate .divide x y = .ok (x / y)
  add_eq (x y : K) : add x y = .ok (x + y)
  sub_eq (x y : K) : sub x y = .ok (x - y)
  mul_eq (x y : K) : mul x y = .ok (x * y)
  div_eq (x : K) {y : K} (hy : y ≠ 0) : div x y = .ok (x / y)
  abs_eq (x : K) : abs x = .ok |x|
  isZero_eq (x : K) : isZero x = decide (x = 0)
  less_eq (x y : K) : less x y = decide (x < y)
  atMost_eq (x y : K) : atMost x y = decide (x ≤ y)

instance ExactNumeric.toExactField (K : Type) [Field K] [LinearOrder K] [IsStrictOrderedRing K]
    [ExactNumeric K] : ExactField K where
  number_zero := number_zero
  number_one := number_one
  negate_eq := negate_eq
  adopt_eq := adopt_eq
  operate_add := operate_add
  operate_subtract := operate_subtract
  operate_multiply := operate_multiply
  operate_divide := operate_divide
  add_eq := add_eq
  sub_eq := sub_eq
  mul_eq := mul_eq
  div_eq := div_eq
  isZero_iff x := by rw [isZero_eq, decide_eq_true_iff]

/-! ## Rational numbers -/

theorem Double.exact_zero : exact 0.0 = 0 := by decide +kernel

theorem Double.exact_one : exact 1.0 = 1 := by decide +kernel

theorem Double.exact_two : exact 2.0 = 2 := by decide +kernel

theorem Double.exact_billionth : 0 ≤ exact 1e-9 := by decide +kernel

/-- Exact rational numbers with any powers and functions. -/
abbrev rationals (power : ℚ → ℚ → Except Cause ℚ) (apply : Function → List ℚ → Except Cause ℚ) :
    ExactNumeric ℚ where
  number := Double.exact
  imaginary := Double.exact
  constant c := Double.exact c.value
  negate x := -x
  operate
    | .add, x, y => .ok (x + y)
    | .subtract, x, y => .ok (x - y)
    | .multiply, x, y => .ok (x * y)
    | .divide, x, y => if y = 0 then .error (.arithmetic .divisionByZero) else .ok (x / y)
    | .power, x, y => power x y
  apply := apply
  adopt := .ok
  add x y := .ok (x + y)
  sub x y := .ok (x - y)
  mul x y := .ok (x * y)
  div x y := if y = 0 then .error .divisionByZero else .ok (x / y)
  abs x := .ok |x|
  isZero x := decide (x = 0)
  isFinite _ := .ok true
  less x y := decide (x < y)
  atMost x y := decide (x ≤ y)
  number_zero := Double.exact_zero
  number_one := Double.exact_one
  number_two := Double.exact_two
  number_billionth := Double.exact_billionth
  negate_eq _ := rfl
  adopt_eq _ := rfl
  operate_add _ _ := rfl
  operate_subtract _ _ := rfl
  operate_multiply _ _ := rfl
  operate_divide _ _ hy := if_neg hy
  add_eq _ _ := rfl
  sub_eq _ _ := rfl
  mul_eq _ _ := rfl
  div_eq _ _ hy := if_neg hy
  abs_eq _ := rfl
  isZero_eq _ := rfl
  less_eq _ _ := rfl
  atMost_eq _ _ := rfl

/-! ## Linear forms -/

section Forms

open ExactNumeric

variable {K : Type} [Field K] [LinearOrder K] [IsStrictOrderedRing K] [ExactNumeric K]

theorem greater_eq_max (x y : K) : Numeric.greater x y = max x y := by
  rw [Numeric.greater, less_eq, max_def_lt]
  by_cases hlt : x < y
  · rw [decide_eq_true hlt, if_pos rfl, if_pos hlt]
  · rw [decide_eq_false hlt, if_neg Bool.false_ne_true, if_neg hlt]

/-- A number agrees with itself. -/
theorem close_self (x : K) : Numeric.close x x = .ok true := by
  have hscale : (0 : K) ≤ Arithmetic.number 1e-9 *
      Numeric.greater (Numeric.greater (Arithmetic.number 1.0) |x|) |x| := by
    rw [greater_eq_max]
    exact mul_nonneg number_billionth ((abs_nonneg x).trans (le_max_right _ _))
  simp only [Numeric.close, sub_eq, ExactNumeric.abs_eq, mul_eq, bind_ok, sub_self, abs_zero,
    atMost_eq, decide_eq_true hscale]
  rfl

namespace LinearForm

variable (f : LinearForm K)

/-- The value of a linear form. -/
def valueAt (v : K) : K := f.factor * v + f.constant

/-- A linear form agrees with its own values at the points where it is compared. -/
theorem agrees_valueAt : f.agrees (Arithmetic.number 1.0) (f.valueAt (Arithmetic.number 1.0))
    (Arithmetic.number 2.0) (f.valueAt (Arithmetic.number 2.0)) = .ok true := by
  have hslope : (f.valueAt 2 - f.valueAt 1) / (2 - 1) = f.factor := by
    rw [valueAt, valueAt]
    ring
  have hone : (2 - 1 : K) ≠ 0 := by norm_num
  simp only [agrees, value, number_one, number_two, sub_eq, div_eq _ hone, bind_ok, hslope,
    close_self, mul_eq, add_eq, if_true]
  exact close_self (f.valueAt 1)

theorem root_eq (h : f.factor ≠ 0) : f.root = .ok (-f.constant / f.factor) := by
  simp only [root, negate_eq, div_eq _ h, Except.mapError, bind_ok, adopt_eq]

omit [LinearOrder K] [IsStrictOrderedRing K] [ExactNumeric K] in
/-- The root of a linear form is the only point where it is zero. -/
theorem valueAt_eq_zero_iff (h : f.factor ≠ 0) (v : K) :
    f.valueAt v = 0 ↔ v = -f.constant / f.factor := by
  rw [valueAt, eq_div_iff h, eq_neg_iff_add_eq_zero, mul_comm]

end LinearForm

end Forms

end Reckoner
