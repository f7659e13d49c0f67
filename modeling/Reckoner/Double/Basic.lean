/-!
# Doubles as exact numbers

A finite double is exactly a whole number times a power of two. Everything here goes through
that reading, so that rounding is done once and on whole numbers: `magnitude` takes a double
apart, `ofRatio` rounds a quotient of whole numbers to the nearest double, a tie going to the
even neighbour.
-/

namespace Reckoner.Double

/-- Two to a power. -/
abbrev twoTo (n : Nat) : Nat := Nat.pow 2 n

/-- The stored fraction bits. -/
def fractionBits (x : Float) : Nat := x.toBits.toNat % twoTo 52

/-- The stored exponent, biased by 1023. -/
def exponentBits (x : Float) : Nat := x.toBits.toNat / twoTo 52 % twoTo 11

/-- The sign bit, which zeros carry too. -/
def isNegative (x : Float) : Bool := x.toBits.toNat / twoTo 63 == 1

/-- A double that is zero, of either sign. -/
def isZero (x : Float) : Bool := x == 0.0

/-- The positive infinity. -/
def infinity : Float := Float.ofBits 0x7FF0000000000000

/-- The double that is not a number. -/
def nan : Float := Float.ofBits 0x7FF8000000000000

/-- The magnitude `significand * 2 ^ exponent`. -/
structure Magnitude where
  significand : Nat
  exponent : Int
  deriving DecidableEq

/-- The exact magnitude of a finite double. -/
def magnitude (x : Float) : Magnitude :=
  if exponentBits x = 0 then ⟨fractionBits x, -1074⟩
  else ⟨fractionBits x + twoTo 52, (exponentBits x : Int) - 1075⟩

/-- A positive power of a base as a quotient of whole numbers. -/
def powerRatio (base : Nat) (exponent : Int) : Nat × Nat :=
  (base.pow exponent.toNat, base.pow (-exponent).toNat)

/-- The exact magnitude of a finite double as a quotient. -/
def ratio (x : Float) : Nat × Nat :=
  let m := magnitude x
  let (up, down) := powerRatio 2 m.exponent
  (m.significand * up, down)

/-- The magnitude without its fractional part. -/
def wholePart (x : Float) : Nat := (ratio x).1 / (ratio x).2

/-- A finite double without a fractional part. -/
def isIntegral (x : Float) : Bool := x.isFinite && (ratio x).1 % (ratio x).2 == 0

/-- The whole number toward zero of a finite double. -/
def truncate (x : Float) : Int :=
  if isNegative x then -(wholePart x : Int) else wholePart x

/-- The largest whole number that a finite double does not fall below. -/
def floor (x : Float) : Int :=
  if isNegative x && !isIntegral x then truncate x - 1 else truncate x

/-- The smallest whole number that a finite double does not exceed. -/
def ceiling (x : Float) : Int :=
  if isNegative x || isIntegral x then truncate x else truncate x + 1

/-- A quotient rounded to a whole number, a tie going to the even neighbour. -/
def roundRatio (numerator denominator : Nat) : Nat :=
  let quotient := numerator / denominator
  let twice := 2 * (numerator % denominator)
  if twice < denominator then quotient
  else if denominator < twice then quotient + 1
  else quotient + quotient % 2

/-- The double of that magnitude bits and that sign. -/
def withSign (negative : Bool) (bits : Nat) : Float :=
  Float.ofBits (UInt64.ofNat (if negative then bits + twoTo 63 else bits))

/-- The exponent at which a positive quotient has a significand of 53 bits, or of fewer where
the exponent has reached its least value. -/
def targetExponent (numerator denominator : Nat) : Int :=
  let guess : Int := (numerator.log2 : Int) - denominator.log2 - 52
  let (up, down) := powerRatio 2 guess
  max (if numerator * down < twoTo 52 * (denominator * up) then guess - 1 else guess) (-1074)

/-- The double nearest to a quotient. Neighbouring magnitudes have neighbouring bit patterns, so
a significand that rounds up into the next power of two needs no case of its own. -/
def ofRatio (negative : Bool) (numerator denominator : Nat) : Float :=
  if numerator = 0 then withSign negative 0
  else
    let exponent := targetExponent numerator denominator
    let (up, down) := powerRatio 2 exponent
    let significand := roundRatio (numerator * down) (denominator * up)
    withSign negative (min ((exponent + 1074).toNat * twoTo 52 + significand) (0x7FF * twoTo 52))

/-- The double nearest to a whole number. -/
def ofInt (n : Int) : Float := ofRatio (n < 0) n.natAbs 1

/-- The double nearest to a whole number, if it is finite. -/
def ofInt? (n : Int) : Option Float :=
  let x := ofInt n
  if x.isFinite then some x else none

/-- The magnitude of the first with the sign of the second. -/
def copySign (x y : Float) : Float := if isNegative x == isNegative y then x else -x

/-- How a whole number compares with a double, exactly; nothing compares with what is not a
number. -/
def compareInt (n : Int) (x : Float) : Option Ordering :=
  if x.isNaN then none
  else if x.isInf then some (if isNegative x then .gt else .lt)
  else
    let (numerator, denominator) := ratio x
    let signed : Int := if isNegative x then -(numerator : Int) else numerator
    some (compare (n * denominator) signed)

end Reckoner.Double
