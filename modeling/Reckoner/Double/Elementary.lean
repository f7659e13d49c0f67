import Reckoner.Double.Basic
import Reckoner.Fault

/-!
# Elementary functions on doubles

Each function answers a double or a fault: a result that is not a number from an argument that is
one lies outside the domain, and so does an infinity from a finite argument unless the function
grows beyond all doubles, in which case the result is out of range.
-/

namespace Reckoner.Double

/-- The circle constant. -/
def pi : Float := Float.ofBits 0x400921FB54442D18

/-- The base of the natural logarithm. -/
def euler : Float := Float.ofBits 0x4005BF0A8B145769

/-- The natural logarithm of two. -/
def logTwo : Float := Float.ofBits 0x3FE62E42FEFA39EF

/-- The natural logarithm of ten. -/
def logTen : Float := Float.ofBits 0x40026BB1BBB55516

/-- The greatest finite double. -/
def largest : Float := Float.ofBits 0x7FEFFFFFFFFFFFFF

/-- The least positive double with a full significand. -/
def leastNormal : Float := Float.ofBits 0x0010000000000000

/-- How a function behaves where it has no finite value. -/
inductive Growth where
  /-- An infinite value is a pole. -/
  | bounded
  /-- An infinite value is a result that is out of range. -/
  | unbounded
  deriving DecidableEq

/-- A function with its faults. -/
def guarded (growth : Growth) (f : Float → Float) (x : Float) : Except Fault Float :=
  let y := f x
  if y.isNaN && !x.isNaN then .error .outsideDomain
  else if y.isInf && x.isFinite then
    .error (if growth = .unbounded then .outOfRange else .outsideDomain)
  else .ok y

/-- A side this much shorter than the other one does not lengthen the hypotenuse, relatively. -/
def negligibleSide : Float := Float.ofBits 0x3C90000000000000

/-- Sides beyond this have squares that overflow. -/
def wideSide : Float := Float.ofBits 0x5FE0000000000000

/-- Sides below this have squares that lose digits. -/
def narrowSide : Float := Float.ofBits 0x2340000000000000

/-- The scale between sides with such squares and the others. -/
def sideScale : Float := Float.ofBits 0x1A70000000000000

/-- The hypotenuse over two sides with harmless squares, of which the first is the longer one: the
square root of the sum of the squares, corrected by what its square is off. -/
def correctedRoot (long short : Float) : Float :=
  let root := (long * long + short * short).sqrt
  let excess :=
    if root ≤ 2.0 * short then
      let rest := root - short
      long * (2.0 * rest - long) + (rest - 2.0 * (long - short)) * rest
    else
      let rest := root - long
      2.0 * rest * (long - 2.0 * short) + ((4.0 * rest - short) * short + rest * rest)
  root - excess / (2.0 * root)

/-- The hypotenuse over two finite sides, of which the first is the longer one. -/
def orderedHypotenuse (long short : Float) : Float :=
  if wideSide < long then
    if short ≤ long * negligibleSide then long + short
    else correctedRoot (long * sideScale) (short * sideScale) / sideScale
  else if short < narrowSide then
    if short / negligibleSide ≤ long then long + short
    else correctedRoot (long / sideScale) (short / sideScale) * sideScale
  else if short ≤ long * negligibleSide then long + short
  else correctedRoot long short

/-- The length of the hypotenuse over two sides. -/
def hypotenuse (x y : Float) : Float :=
  if x.isInf || y.isInf then infinity
  else if x.isNaN || y.isNaN then nan
  else if x.abs < y.abs then orderedHypotenuse y.abs x.abs
  else orderedHypotenuse x.abs y.abs

/-- The angle of a point, from `-pi` to `pi`; an infinite point lies on an axis or a diagonal. -/
def angle (y x : Float) : Float :=
  if x.isNaN || y.isNaN then nan
  else if y.isInf then
    copySign ((if !x.isInf then 0.5 else if isNegative x then 0.75 else 0.25) * pi) y
  else if x.isInf || isZero y then copySign (if isNegative x then pi else 0.0) y
  else y.atan2 x

end Reckoner.Double
