import Reckoner.Double.Decimal

/-!
# Doubles as text

`text` writes the shortest digits that read back, positionally for decimal exponents from -4 to
15 and with an exponent of at least two digits outside; a whole value keeps a point and a zero.
`compact` is the same without that point. `general` writes a number of significant digits,
`placed` a number of decimal places.
-/

namespace Reckoner.Double

/-- A run of zeros. -/
private def zeros (n : Nat) : List Char := List.replicate n '0'

/-- Digits with a point after the given number of them; zeros fill up on either side. -/
def pointed (digits : List Char) (before : Int) : List Char × List Char :=
  if before ≤ 0 then (['0'], zeros (-before).toNat ++ digits)
  else
    let n := before.toNat
    (digits.take n ++ zeros (n - digits.length), digits.drop n)

/-- An exponent with its sign and at least two digits. -/
def exponentText (exponent : Int) : List Char :=
  let digits := Nat.toDigits 10 exponent.natAbs
  'e' :: (if exponent < 0 then '-' else '+') :: (zeros (2 - digits.length) ++ digits)

/-- Whole and fractional digits joined by a point, which is left out before nothing. -/
def joinPoint : List Char × List Char → List Char
  | (whole, []) => whole
  | (whole, fraction) => whole ++ '.' :: fraction

/-- Scientific notation: one digit before the point. -/
def scientific (digits : List Char) (exponent : Int) : List Char :=
  joinPoint (pointed digits 1) ++ exponentText exponent

/-- The text of a magnitude behind the sign of a double, or the name of a value without
digits. -/
def signed (x : Float) (magnitudeText : List Char) : String :=
  if x.isNaN then "nan"
  else
    let body := if x.isInf then "inf".toList else magnitudeText
    String.ofList (if isNegative x then '-' :: body else body)

/-- The digits and the exponent of the first digit. -/
def shortestDigits (x : Float) : List Char × Int :=
  if isZero x then (['0'], 0)
  else
    let d := shortest x
    (d.text, d.text.length + d.exponent - 1)

/-- Decimal exponents that are written positionally. -/
def isPositional (exponent : Int) : Bool := -4 ≤ exponent && exponent < 16

/-- The shortest text, with or without a point behind a whole value. -/
def textWith (pointed? : Bool) (x : Float) : String :=
  let (digits, exponent) := shortestDigits x
  signed x <|
    if isPositional exponent then
      let (whole, fraction) := pointed digits (exponent + 1)
      joinPoint (whole, if pointed? && fraction.isEmpty then ['0'] else fraction)
    else scientific digits exponent

/-- The shortest text that reads back as the double. -/
def text (x : Float) : String := textWith true x

/-- The shortest text, in which a whole value has no point. -/
def compact (x : Float) : String := textWith false x

/-- The compact text with a sign in front of positive values too. -/
def compactSigned (x : Float) : String :=
  if x.isNaN || !isNegative x then "+" ++ compact x else compact x

/-- A whole double below ten to the sixteenth in size, all of whose digits are known exactly. -/
def isPlainWhole (x : Float) : Bool := isIntegral x && x.abs < 1e16

/-- Trailing zeros dropped. -/
def dropTrailingZeros (digits : List Char) : List Char :=
  (digits.reverse.dropWhile (· == '0')).reverse

/-- No double has as many significant digits as this. -/
def mostDigits : Nat := 800

/-- So many significant digits without trailing zeros: positional for exponents from -4 up to
the number of digits. -/
def general (x : Float) (count : Nat) : String :=
  let count := max count 1
  let (digits, exponent) : List Char × Int :=
    if isZero x || !x.isFinite then (['0'], 0)
    else
      let d := significant x (min count mostDigits)
      (d.text, d.text.length + d.exponent - 1)
  let kept := match dropTrailingZeros digits with
    | [] => ['0']
    | d :: rest => d :: rest
  signed x <|
    if -4 ≤ exponent && exponent < count then joinPoint (pointed kept (exponent + 1))
    else scientific kept exponent

/-- So many decimal places. -/
def placed (x : Float) (places : Nat) : String :=
  let digits := Nat.toDigits 10 (if x.isFinite then fixed x places else 0)
  let filled := zeros (places + 1 - digits.length) ++ digits
  signed x (joinPoint (filled.take (filled.length - places), filled.drop (filled.length - places)))

end Reckoner.Double
