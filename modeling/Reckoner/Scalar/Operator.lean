import Reckoner.Scalar.Basic

/-!
# Operators

The five binary operators. A division by zero is infinite or not a number, a negative power of
zero is infinite, and a power out of range is infinite with the sign that the exact power would
have. Every result is in normal form.
-/

namespace Reckoner

/-- The binary operators. -/
inductive Operator where
  | add | subtract | multiply | divide | power
  deriving DecidableEq, Repr

namespace Operator

/-- The sign that stands between the operands. -/
def symbol : Operator → String
  | .add => "+"
  | .subtract => "-"
  | .multiply => "*"
  | .divide => "/"
  | .power => "^"

def all : List Operator := [.add, .subtract, .multiply, .divide, .power]

/-- The operator with that sign. -/
def ofSymbol? (s : String) : Option Operator := all.find? (·.symbol == s)

end Operator

namespace Scalar

/-- Division of doubles with infinite results at zero. -/
def divideReal (x y : Float) : Float :=
  if y == 0.0 then
    if x.isNaN || x == 0.0 then Double.nan
    else Double.copySign Double.infinity x * Double.copySign 1.0 y
  else x / y

/-- Division with infinite results at zero; a complex numerator is divided part by part. -/
def divide (a b : Scalar) : Except Fault Scalar :=
  match div a b with
  | .error .divisionByZero =>
    do
      let z ← a.toComplex
      let w ← b.toComplex
      let re := divideReal z.re w.re
      if a.isComplex || b.isComplex then return .complex ⟨re, divideReal z.im w.re⟩
      else return .real re
  | result => result

/-- An odd number. -/
private def isOddNumber : Scalar → Bool
  | .whole n => n % 2 == 1
  | .real y => isOdd y
  | .complex _ => false

/-- The value of a power out of range: a negative base keeps its sign under an odd exponent, and
asks for an exponent that is within range itself. -/
def overflowedPower (a b : Scalar) : Except Fault Scalar :=
  match b with
  | .whole n =>
    if less a (.whole 0) then do
      let _ ← wholeToFloat n
      return .real (if isOddNumber b then -Double.infinity else Double.infinity)
    else .ok (.real Double.infinity)
  | _ =>
    .ok (.real (if less a (.whole 0) && isOddNumber b then -Double.infinity else Double.infinity))

/-- A power in normal form, infinite where the exact power is infinite or out of range. -/
def power (a b : Scalar) : Except Fault Scalar :=
  match pow a b >>= settle with
  | .ok p => .ok p
  | .error .divisionByZero => .ok (.real Double.infinity)
  | .error _ => overflowedPower a b

end Scalar

/-- An operator on scalars. -/
def Operator.onScalars : Operator → Scalar → Scalar → Except Fault Scalar
  | .add, a, b => Scalar.add a b >>= Scalar.settle
  | .subtract, a, b => Scalar.sub a b >>= Scalar.settle
  | .multiply, a, b => Scalar.mul a b >>= Scalar.settle
  | .divide, a, b => Scalar.divide a b >>= Scalar.settle
  | .power, a, b => Scalar.power a b

end Reckoner
