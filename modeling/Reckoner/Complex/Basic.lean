import Reckoner.Double.Notation
import Reckoner.Double.Elementary

/-!
# Complex numbers

A pair of doubles. Each operation rounds every step once, in the order written here, and gives
zeros their signs accordingly: a double takes part as a number whose imaginary part is zero.
-/

namespace Reckoner

/-- A complex number with double parts. -/
structure Complex where
  re : Float
  im : Float
  deriving DecidableEq, Inhabited

namespace Complex

/-- A real number among the complex ones. -/
def ofFloat (x : Float) : Complex := ⟨x, 0.0⟩

def one : Complex := ⟨1.0, 0.0⟩

instance : Neg Complex := ⟨fun a => ⟨-a.re, -a.im⟩⟩

instance : Add Complex := ⟨fun a b => ⟨a.re + b.re, a.im + b.im⟩⟩

instance : Sub Complex := ⟨fun a b => ⟨a.re - b.re, a.im - b.im⟩⟩

instance : Mul Complex :=
  ⟨fun a b => ⟨a.re * b.re - a.im * b.im, a.re * b.im + a.im * b.re⟩⟩

/-- The number with the opposite imaginary part. -/
def conjugate (a : Complex) : Complex := ⟨a.re, -a.im⟩

/-- Both parts are zero. -/
def isZero (a : Complex) : Bool := a.re == 0.0 && a.im == 0.0

/-- Both parts are finite. -/
def isFinite (a : Complex) : Bool := a.re.isFinite && a.im.isFinite

/-- A part is infinite. -/
def hasInfinity (a : Complex) : Bool := a.re.isInf || a.im.isInf

/-- The quotient, in which numerator and denominator are scaled by the larger part of the
divisor. -/
def divide (a b : Complex) : Except Fault Complex :=
  if b.im.abs ≤ b.re.abs then
    if b.re == 0.0 then .error .divisionByZero
    else
      let scale := b.im / b.re
      let divisor := b.re + b.im * scale
      .ok ⟨(a.re + a.im * scale) / divisor, (a.im - a.re * scale) / divisor⟩
  else if b.re.abs ≤ b.im.abs then
    let scale := b.re / b.im
    let divisor := b.re * scale + b.im
    .ok ⟨(a.re * scale + a.im) / divisor, (a.im * scale - a.re) / divisor⟩
  else .ok ⟨Double.nan, Double.nan⟩

/-- The distance from zero. -/
def magnitude (a : Complex) : Except Fault Float :=
  let length := Double.hypotenuse a.re a.im
  if a.isFinite && !length.isFinite then .error .magnitudeTooLarge else .ok length

/-- The angle of the number seen from zero. An angle too small for a double is out of range. -/
def phase (a : Complex) : Except Fault Float :=
  let turn := Double.angle a.im a.re
  if Double.isZero turn && !Double.isZero a.im && a.re.isFinite then .error .outOfRange
  else .ok turn

/-- The number in words: the imaginary part with its unit, in parentheses behind a real part
unless that is the positive zero. -/
def text (a : Complex) : String :=
  if a.re == 0.0 && !Double.isNegative a.re then Double.compact a.im ++ "j"
  else "(" ++ Double.compact a.re ++ Double.compactSigned a.im ++ "j)"

end Complex

end Reckoner
