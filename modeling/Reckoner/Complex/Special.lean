import Reckoner.Complex.Basic

/-!
# Complex functions at zeros, infinities and non-numbers

The values that the standard for complex arithmetic prescribes where a part of the argument is
not finite, and at the zeros, as one table for each function. The row goes by the real part and
the column by the imaginary part, in the order of `Place`. Entries for arguments with two ordinary
parts, or that a limit decides, are never looked up.
-/

namespace Reckoner.Complex.Special

/-- Where a double lies on the extended line. -/
inductive Place where
  | negativeInfinity | negative | negativeZero | positiveZero | positive | positiveInfinity
  | nowhere

/-- The place of a double. -/
def place (x : Float) : Place :=
  if x.isNaN then .nowhere
  else if x.isInf then if Double.isNegative x then .negativeInfinity else .positiveInfinity
  else if Double.isZero x then if Double.isNegative x then .negativeZero else .positiveZero
  else if Double.isNegative x then .negative else .positive

/-- The row or column of a place. -/
def Place.index : Place → Nat
  | .negativeInfinity => 0
  | .negative => 1
  | .negativeZero => 2
  | .positiveZero => 3
  | .positive => 4
  | .positiveInfinity => 5
  | .nowhere => 6

/-- A table of values by the places of both parts. -/
abbrev Table := List (List (Float × Float))

/-- The value for an argument. -/
def Table.at (t : Table) (z : Complex) : Complex :=
  let (re, im) := (t.getD (place z.re).index []).getD (place z.im).index (Double.nan, Double.nan)
  ⟨re, im⟩

def inf : Float := Double.infinity
def bad : Float := Double.nan
def pi : Float := Double.pi
def half : Float := 0.5 * Double.pi
def quarter : Float := 0.25 * Double.pi
def threeQuarters : Float := 0.75 * Double.pi

/-- Values of the arc cosine. -/
def arccosine : Table := [
  [(threeQuarters, inf), (pi, inf), (pi, inf), (pi, -inf), (pi, -inf), (threeQuarters, -inf),
    (bad, inf)],
  [(half, inf), (bad, bad), (bad, bad), (bad, bad), (bad, bad), (half, -inf), (bad, bad)],
  [(half, inf), (bad, bad), (half, 0.0), (half, -0.0), (bad, bad), (half, -inf), (half, bad)],
  [(half, inf), (bad, bad), (half, 0.0), (half, -0.0), (bad, bad), (half, -inf), (half, bad)],
  [(half, inf), (bad, bad), (bad, bad), (bad, bad), (bad, bad), (half, -inf), (bad, bad)],
  [(quarter, inf), (0.0, inf), (0.0, inf), (0.0, -inf), (0.0, -inf), (quarter, -inf),
    (bad, inf)],
  [(bad, inf), (bad, bad), (bad, bad), (bad, bad), (bad, bad), (bad, -inf), (bad, bad)]]

/-- Values of the inverse hyperbolic cosine. -/
def areaCosine : Table := [
  [(inf, -threeQuarters), (inf, -pi), (inf, -pi), (inf, pi), (inf, pi), (inf, threeQuarters),
    (inf, bad)],
  [(inf, -half), (bad, bad), (bad, bad), (bad, bad), (bad, bad), (inf, half), (bad, bad)],
  [(inf, -half), (bad, bad), (0.0, -half), (0.0, half), (bad, bad), (inf, half), (bad, bad)],
  [(inf, -half), (bad, bad), (0.0, -half), (0.0, half), (bad, bad), (inf, half), (bad, bad)],
  [(inf, -half), (bad, bad), (bad, bad), (bad, bad), (bad, bad), (inf, half), (bad, bad)],
  [(inf, -quarter), (inf, -0.0), (inf, -0.0), (inf, 0.0), (inf, 0.0), (inf, quarter),
    (inf, bad)],
  [(inf, bad), (bad, bad), (bad, bad), (bad, bad), (bad, bad), (inf, bad), (bad, bad)]]

/-- Values of the inverse hyperbolic sine. -/
def areaSine : Table := [
  [(-inf, -quarter), (-inf, -0.0), (-inf, -0.0), (-inf, 0.0), (-inf, 0.0), (-inf, quarter),
    (-inf, bad)],
  [(-inf, -half), (bad, bad), (bad, bad), (bad, bad), (bad, bad), (-inf, half), (bad, bad)],
  [(-inf, -half), (bad, bad), (-0.0, -0.0), (-0.0, 0.0), (bad, bad), (-inf, half), (bad, bad)],
  [(inf, -half), (bad, bad), (0.0, -0.0), (0.0, 0.0), (bad, bad), (inf, half), (bad, bad)],
  [(inf, -half), (bad, bad), (bad, bad), (bad, bad), (bad, bad), (inf, half), (bad, bad)],
  [(inf, -quarter), (inf, -0.0), (inf, -0.0), (inf, 0.0), (inf, 0.0), (inf, quarter),
    (inf, bad)],
  [(inf, bad), (bad, bad), (bad, -0.0), (bad, 0.0), (bad, bad), (inf, bad), (bad, bad)]]

/-- Values of the inverse hyperbolic tangent. -/
def areaTangent : Table := [
  [(-0.0, -half), (-0.0, -half), (-0.0, -half), (-0.0, half), (-0.0, half), (-0.0, half),
    (-0.0, bad)],
  [(-0.0, -half), (bad, bad), (bad, bad), (bad, bad), (bad, bad), (-0.0, half), (bad, bad)],
  [(-0.0, -half), (bad, bad), (-0.0, -0.0), (-0.0, 0.0), (bad, bad), (-0.0, half), (-0.0, bad)],
  [(0.0, -half), (bad, bad), (0.0, -0.0), (0.0, 0.0), (bad, bad), (0.0, half), (0.0, bad)],
  [(0.0, -half), (bad, bad), (bad, bad), (bad, bad), (bad, bad), (0.0, half), (bad, bad)],
  [(0.0, -half), (0.0, -half), (0.0, -half), (0.0, half), (0.0, half), (0.0, half), (0.0, bad)],
  [(0.0, -half), (bad, bad), (bad, bad), (bad, bad), (bad, bad), (0.0, half), (bad, bad)]]

/-- Values of the hyperbolic cosine. -/
def hyperbolicCosine : Table := [
  [(inf, bad), (bad, bad), (inf, 0.0), (inf, -0.0), (bad, bad), (inf, bad), (inf, bad)],
  [(bad, bad), (bad, bad), (bad, bad), (bad, bad), (bad, bad), (bad, bad), (bad, bad)],
  [(bad, 0.0), (bad, bad), (1.0, 0.0), (1.0, -0.0), (bad, bad), (bad, 0.0), (bad, 0.0)],
  [(bad, 0.0), (bad, bad), (1.0, -0.0), (1.0, 0.0), (bad, bad), (bad, 0.0), (bad, 0.0)],
  [(bad, bad), (bad, bad), (bad, bad), (bad, bad), (bad, bad), (bad, bad), (bad, bad)],
  [(inf, bad), (bad, bad), (inf, -0.0), (inf, 0.0), (bad, bad), (inf, bad), (inf, bad)],
  [(bad, bad), (bad, bad), (bad, 0.0), (bad, 0.0), (bad, bad), (bad, bad), (bad, bad)]]

/-- Values of the exponential. -/
def exponential : Table := [
  [(0.0, 0.0), (bad, bad), (0.0, -0.0), (0.0, 0.0), (bad, bad), (0.0, 0.0), (0.0, 0.0)],
  [(bad, bad), (bad, bad), (bad, bad), (bad, bad), (bad, bad), (bad, bad), (bad, bad)],
  [(bad, bad), (bad, bad), (1.0, -0.0), (1.0, 0.0), (bad, bad), (bad, bad), (bad, bad)],
  [(bad, bad), (bad, bad), (1.0, -0.0), (1.0, 0.0), (bad, bad), (bad, bad), (bad, bad)],
  [(bad, bad), (bad, bad), (bad, bad), (bad, bad), (bad, bad), (bad, bad), (bad, bad)],
  [(inf, bad), (bad, bad), (inf, -0.0), (inf, 0.0), (bad, bad), (inf, bad), (inf, bad)],
  [(bad, bad), (bad, bad), (bad, -0.0), (bad, 0.0), (bad, bad), (bad, bad), (bad, bad)]]

/-- Values of the logarithm. -/
def logarithm : Table := [
  [(inf, -threeQuarters), (inf, -pi), (inf, -pi), (inf, pi), (inf, pi), (inf, threeQuarters),
    (inf, bad)],
  [(inf, -half), (bad, bad), (bad, bad), (bad, bad), (bad, bad), (inf, half), (bad, bad)],
  [(inf, -half), (bad, bad), (-inf, -pi), (-inf, pi), (bad, bad), (inf, half), (bad, bad)],
  [(inf, -half), (bad, bad), (-inf, -0.0), (-inf, 0.0), (bad, bad), (inf, half), (bad, bad)],
  [(inf, -half), (bad, bad), (bad, bad), (bad, bad), (bad, bad), (inf, half), (bad, bad)],
  [(inf, -quarter), (inf, -0.0), (inf, -0.0), (inf, 0.0), (inf, 0.0), (inf, quarter),
    (inf, bad)],
  [(inf, bad), (bad, bad), (bad, bad), (bad, bad), (bad, bad), (inf, bad), (bad, bad)]]

/-- Values of the hyperbolic sine. -/
def hyperbolicSine : Table := [
  [(inf, bad), (bad, bad), (-inf, -0.0), (-inf, 0.0), (bad, bad), (inf, bad), (inf, bad)],
  [(bad, bad), (bad, bad), (bad, bad), (bad, bad), (bad, bad), (bad, bad), (bad, bad)],
  [(0.0, bad), (bad, bad), (-0.0, -0.0), (-0.0, 0.0), (bad, bad), (0.0, bad), (0.0, bad)],
  [(0.0, bad), (bad, bad), (0.0, -0.0), (0.0, 0.0), (bad, bad), (0.0, bad), (0.0, bad)],
  [(bad, bad), (bad, bad), (bad, bad), (bad, bad), (bad, bad), (bad, bad), (bad, bad)],
  [(inf, bad), (bad, bad), (inf, -0.0), (inf, 0.0), (bad, bad), (inf, bad), (inf, bad)],
  [(bad, bad), (bad, bad), (bad, -0.0), (bad, 0.0), (bad, bad), (bad, bad), (bad, bad)]]

/-- Values of the square root. -/
def squareRoot : Table := [
  [(inf, -inf), (0.0, -inf), (0.0, -inf), (0.0, inf), (0.0, inf), (inf, inf), (bad, inf)],
  [(inf, -inf), (bad, bad), (bad, bad), (bad, bad), (bad, bad), (inf, inf), (bad, bad)],
  [(inf, -inf), (bad, bad), (0.0, -0.0), (0.0, 0.0), (bad, bad), (inf, inf), (bad, bad)],
  [(inf, -inf), (bad, bad), (0.0, -0.0), (0.0, 0.0), (bad, bad), (inf, inf), (bad, bad)],
  [(inf, -inf), (bad, bad), (bad, bad), (bad, bad), (bad, bad), (inf, inf), (bad, bad)],
  [(inf, -inf), (inf, -0.0), (inf, -0.0), (inf, 0.0), (inf, 0.0), (inf, inf), (inf, bad)],
  [(inf, -inf), (bad, bad), (bad, bad), (bad, bad), (bad, bad), (inf, inf), (bad, bad)]]

/-- Values of the hyperbolic tangent. -/
def hyperbolicTangent : Table := [
  [(-1.0, 0.0), (bad, bad), (-1.0, -0.0), (-1.0, 0.0), (bad, bad), (-1.0, 0.0), (-1.0, 0.0)],
  [(bad, bad), (bad, bad), (bad, bad), (bad, bad), (bad, bad), (bad, bad), (bad, bad)],
  [(bad, bad), (bad, bad), (-0.0, -0.0), (-0.0, 0.0), (bad, bad), (bad, bad), (bad, bad)],
  [(bad, bad), (bad, bad), (0.0, -0.0), (0.0, 0.0), (bad, bad), (bad, bad), (bad, bad)],
  [(bad, bad), (bad, bad), (bad, bad), (bad, bad), (bad, bad), (bad, bad), (bad, bad)],
  [(1.0, 0.0), (bad, bad), (1.0, -0.0), (1.0, 0.0), (bad, bad), (1.0, 0.0), (1.0, 0.0)],
  [(bad, bad), (bad, bad), (bad, -0.0), (bad, 0.0), (bad, bad), (bad, bad), (bad, bad)]]

end Reckoner.Complex.Special
