import Reckoner.Arithmetic

/-!
# Numbers to solve equations with

`Numeric` has the operations of the numbers themselves, as the iteration for one unknown uses them:
unlike the operators of expressions they do not bring results to normal form, and they may have a
fault. `Line` has real numbers whose operations always have a result, as systems of equations use
them.
-/

namespace Reckoner

/-- Numbers on which an equation is solved. -/
class Numeric (α : Type) extends Arithmetic α where
  add : α → α → Except Fault α
  sub : α → α → Except Fault α
  mul : α → α → Except Fault α
  div : α → α → Except Fault α
  /-- The distance from zero, which is a real number. -/
  abs : α → Except Fault α
  isZero : α → Bool
  /-- No part is infinite or not a number. -/
  isFinite : α → Except Fault Bool
  /-- The first of two real numbers is smaller. -/
  less : α → α → Bool
  /-- The first of two real numbers is not greater. -/
  atMost : α → α → Bool

namespace Numeric

variable {α : Type} [Numeric α]

/-- The greater of two real numbers, the first one unless the second is greater. -/
def greater (a b : α) : α := if less a b then b else a

/-- Two numbers agree up to a billionth of the greatest of their sizes and one. -/
def close (a b : α) : Except Fault Bool := do
  let gap ← abs (← sub a b)
  let sizeA ← abs a
  let sizeB ← abs b
  let scale := greater (greater (Arithmetic.number 1.0) sizeA) sizeB
  return atMost gap (← mul (Arithmetic.number 1e-9) scale)

end Numeric

namespace Scalar

/-- The first of two real numbers is not greater. -/
def atMost (a b : Scalar) : Bool := order a b == some .lt || order a b == some .eq

instance : Numeric Scalar where
  add := add
  sub := sub
  mul := mul
  div := div
  abs := abs
  isZero := isZero
  isFinite := isFinite
  less := less
  atMost := atMost

end Scalar

/-- Real numbers on which a system of equations is solved. -/
class Line (ρ : Type) extends Add ρ, Sub ρ, Mul ρ, Div ρ, Neg ρ where
  ofFloat : Float → ρ
  abs : ρ → ρ
  sqrt : ρ → ρ
  isFinite : ρ → Bool
  less : ρ → ρ → Bool
  atMost : ρ → ρ → Bool

namespace Line

variable {ρ : Type} [Line ρ]

/-- Zero. -/
def zero : ρ := ofFloat 0.0

/-- The sum of the products of two lists, from left to right. -/
def dot (xs ys : List ρ) : ρ := (List.zipWith (· * ·) xs ys).foldl (· + ·) zero

/-- The length of a vector. -/
def norm (xs : List ρ) : ρ := sqrt (dot xs xs)

/-- The greater of two numbers, the first one unless the second is greater. -/
def greater (a b : ρ) : ρ := if less a b then b else a

/-- The number does not even compare with itself. -/
def isUnordered (a : ρ) : Bool := !atMost a a

/-- The first number stands before the second in the search for the greatest: it is not smaller, or
it compares with nothing. -/
def outranks (a b : ρ) : Bool := isUnordered a || atMost b a

end Line

instance : Line Float where
  ofFloat x := x
  abs := Float.abs
  sqrt := Float.sqrt
  isFinite := Float.isFinite
  less x y := x < y
  atMost x y := x ≤ y

end Reckoner
