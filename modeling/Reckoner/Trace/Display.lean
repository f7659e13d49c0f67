import Reckoner.Datum
import Reckoner.Double.Notation

/-!
# Values for display

A whole value is shown without a point, any other with up to ten decimals, or with all digits that
it takes to read it back if ten decimals show nothing. With a number of significant digits every
value is rounded to so many.
-/

namespace Reckoner.Display

/-- The greatest count that a format can hold. -/
def largestCount : Int := 9223372036854775807

/-- The greatest count of digits that can be asked for. -/
def largestPrecision : Int := 2147483647

/-- A whole number as a count of digits. -/
def precision (n : Int) : Except Cause Nat :=
  if n < 0 then .error .missingPrecision
  else if largestCount < n then .error .tooManyDigits
  else if largestPrecision < n then .error .precisionTooBig
  else .ok n.toNat

/-- Decimals without trailing zeros, and without a point that nothing follows. -/
def dropZeros (digits : List Char) : List Char :=
  let kept := digits.reverse.dropWhile (· == '0')
  (match kept with
    | '.' :: rest => rest
    | kept => kept).reverse

/-- How many decimals are shown. -/
def decimals : Nat := 10

/-- A finite double with up to ten decimals. -/
def rounded (x : Float) : String :=
  if Double.isPlainWhole x then toString (Double.truncate x)
  else
    let text := String.ofList (dropZeros (Double.placed x decimals).toList)
    if text = "0" ∨ text = "-0" then Double.text x else text

/-- A double; the value says how many significant digits are shown, and nothing or zero that
they are not counted. -/
def real (digits : Datum) (x : Float) : Except Cause String :=
  if !x.isFinite then .ok (Double.text x)
  else if digits.isTrue then do return Double.general x (← precision (← digits.toWhole))
  else .ok (rounded x)

/-- A complex number: a real part of zero is left out. -/
def complex (digits : Datum) (z : Complex) : Except Cause String := do
  let imaginary := (← real digits z.im.abs) ++ "i"
  let negative : Bool := z.im < 0.0
  if z.re == 0.0 then return if negative then "-" ++ imaginary else imaginary
  else return (← real digits z.re) ++ (if negative then "-" else "+") ++ imaginary

/-- A value. -/
def value (digits : Datum) (d : Datum) : Except Cause String :=
  match d with
  | .null => .ok ""
  | .number (.complex z) => complex digits z
  | _ => do real digits (← d.toFloat)

/-- A number. -/
def scalar (digits : Datum) (x : Scalar) : Except Cause String := value digits (.number x)

end Reckoner.Display
