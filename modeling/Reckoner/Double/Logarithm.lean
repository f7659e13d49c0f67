import Reckoner.Double.Basic

/-!
# The logarithm near one

`logOnePlus` is the natural logarithm of one more than its argument, which loses no digits near
zero. One more than the argument is a power of two times `1 + f` with a small `f`. The logarithm
of two comes in two parts, of which small multiples of the first one are exact, and the logarithm
of `1 + f` is `f` less half its square and a series in `f / (2 + f)`.
-/

namespace Reckoner.Double

/-- The logarithm of two, cut off. -/
private def logTwoLead : Float := Float.ofBits 0x3FE62E42FEE00000

/-- What has been cut off there. -/
private def logTwoRest : Float := Float.ofBits 0x3DEA39EF35793C76

/-- Half the square. -/
private def halfSquare (f : Float) : Float := 0.5 * f * f

/-- The logarithm of `1 + f` beyond `f` less half its square. -/
private def logSeries (f : Float) : Float :=
  let s := f / (2.0 + f)
  let z := s * s
  let z2 := z * z
  let z4 := z2 * z2
  let terms :=
    z * 6.666666666666735130e-01
      + z2 * (3.999999999940941908e-01 + z * 2.857142874366239149e-01)
      + z4 * (2.222219843214978396e-01 + z * 1.818357216161805012e-01)
      + z4 * z2 * (1.531383769920937332e-01 + z * 1.479819860511658591e-01)
  s * (halfSquare f + terms)

/-- One more than a number as `2 ^ power * (1 + excess)`, and what rounding has taken off it,
relatively. -/
structure OnePlus where
  power : Int
  excess : Float
  lost : Float

/-- The fraction bits of the square root of two, cut off: from there on the power is the next
one. -/
private def rootTwoFraction : Nat := 0x6A09E00000000

/-- The double with the given power of two and fraction bits. -/
private def factorOf (power : Int) (fraction : Nat) : Float :=
  withSign false ((1023 + power).toNat * twoTo 52 + fraction)

/-- One more than a number, taken apart. -/
def onePlus (x : Float) : OnePlus :=
  let small : Bool := x < Float.ofBits 0x4340000000000000
  let sum := if small then 1.0 + x else x
  let power : Int := (exponentBits sum : Int) - 1023
  let taken := if 0 < power then 1.0 - (sum - x) else x - (sum - 1.0)
  let lost := if small then taken / sum else 0.0
  if fractionBits sum < rootTwoFraction then ⟨power, factorOf 0 (fractionBits sum) - 1.0, lost⟩
  else ⟨power + 1, factorOf (-1) (fractionBits sum) - 1.0, lost⟩

/-- The logarithm of a number that has been taken apart. -/
def OnePlus.log (p : OnePlus) : Float :=
  let f := p.excess
  let k := ofInt p.power
  let lead := k * logTwoLead
  let rest := k * logTwoRest + p.lost
  if Float.ofBits 0xBEB8000000000000 ≤ f && f < Float.ofBits 0x3EB0000000000000 then
    let cubic := halfSquare f * (1.0 - 0.66666666666666666 * f)
    if p.power = 0 then f - cubic
    else if f == 0.0 then lead + rest
    else lead - ((cubic - rest) - f)
  else if p.power = 0 then f - (halfSquare f - logSeries f)
  else lead - ((halfSquare f - (logSeries f + rest)) - f)

/-- The logarithm of one more than the argument. -/
def logOnePlus (x : Float) : Float :=
  if x.isNaN || x < -1.0 then nan
  else if x == -1.0 then -infinity
  else if x.isInf || x.abs < Float.ofBits 0x3C90000000000000 then x
  else if x.abs < Float.ofBits 0x3E20000000000000 then x - x * x * 0.5
  else if Float.ofBits 0xBFD2BEC400000000 < x && x < Float.ofBits 0x3FDA827A00000000 then
    x - (halfSquare x - logSeries x)
  else (onePlus x).log

end Reckoner.Double
