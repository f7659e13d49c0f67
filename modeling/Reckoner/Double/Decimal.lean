import Reckoner.Double.Basic

/-!
# Decimal digits of a double

`shortest` gives the fewest significant digits that read back as the same double and, among
those, the digits nearest to it. `significant` and `fixed` round the exact binary value to a
given number of digits or places. All three go to the even neighbour on a tie.
-/

namespace Reckoner.Double

/-- The decimal `digits * 10 ^ exponent`. -/
structure Decimal where
  digits : Nat
  exponent : Int
  deriving DecidableEq

/-- How many decimal digits a whole number has. -/
def digitCount (n : Nat) : Nat := (Nat.toDigits 10 n).length

/-- The place of the first significant decimal digit of a positive quotient. -/
def leadingPlace (numerator denominator : Nat) : Int :=
  if denominator ≤ numerator then digitCount (numerator / denominator) - 1
  else -(digitCount ((denominator - 1) / numerator) : Int)

/-- A quotient measured in units of a decimal place: numerator and denominator. -/
def atPlace (numerator denominator : Nat) (place : Int) : Nat × Nat :=
  let (up, down) := powerRatio 10 place
  (numerator * down, denominator * up)

/-- A quotient rounded to a decimal place. -/
def roundAtPlace (numerator denominator : Nat) (place : Int) : Decimal :=
  let (n, d) := atPlace numerator denominator place
  ⟨roundRatio n d, place⟩

namespace Decimal

/-- Trailing zeros move into the exponent. -/
def stripZeros : Nat → Decimal → Decimal
  | 0, d => d
  | fuel + 1, d =>
    if d.digits ≠ 0 ∧ d.digits % 10 = 0 then stripZeros fuel ⟨d.digits / 10, d.exponent + 1⟩
    else d

/-- The same decimal with no trailing zero among its digits. -/
def normalize (d : Decimal) : Decimal := stripZeros (digitCount d.digits) d

/-- The digits as text. -/
def text (d : Decimal) : List Char := Nat.toDigits 10 d.digits

end Decimal

/-- The doubles' neighbourhood of a positive finite double: the reals that round to it, in units
of `2 ^ exponent`. The ends belong to it when the significand is even. -/
structure Neighbourhood where
  low : Nat
  high : Nat
  exponent : Int
  closed : Bool

/-- Halfway to the neighbours on both sides; below a power of two the doubles are twice as
dense. -/
def neighbourhood (m : Magnitude) : Neighbourhood where
  low := if m.significand = twoTo 52 ∧ -1074 < m.exponent then 4 * m.significand - 1
    else 4 * m.significand - 2
  high := 4 * m.significand + 2
  exponent := m.exponent - 2
  closed := m.significand % 2 == 0

/-- Whether a decimal lies in the neighbourhood. -/
def Neighbourhood.holds (n : Neighbourhood) (d : Decimal) : Bool :=
  let (up, down) := powerRatio 10 d.exponent
  let (up2, down2) := powerRatio 2 n.exponent
  let middle := d.digits * up * down2
  let low := n.low * up2 * down
  let high := n.high * up2 * down
  if n.closed then low ≤ middle && middle ≤ high else low < middle && middle < high

/-- Of the two decimals around a quotient at a place, the nearer one that lies in the
neighbourhood. -/
def nearestAtPlace? (n : Neighbourhood) (numerator denominator : Nat) (place : Int) :
    Option Decimal :=
  let (num, den) := atPlace numerator denominator place
  let below : Decimal := ⟨num / den, place⟩
  let above : Decimal := ⟨num / den + 1, place⟩
  let first := if roundRatio num den = below.digits then below else above
  let second := if roundRatio num den = below.digits then above else below
  if n.holds first then some first else if n.holds second then some second else none

/-- The fewest digits that read back as the positive finite double. Seventeen always do. -/
def shortest (x : Float) : Decimal :=
  let (numerator, denominator) := ratio x
  let lead := leadingPlace numerator denominator
  let near := neighbourhood (magnitude x)
  let found := (List.range 17).findSome? fun (n : Nat) =>
    nearestAtPlace? near numerator denominator (lead - n)
  (found.getD (roundAtPlace numerator denominator (lead - 16))).normalize

/-- The positive finite double rounded to a number of significant digits, at least one. -/
def significant (x : Float) (count : Nat) : Decimal :=
  let (numerator, denominator) := ratio x
  let lead := leadingPlace numerator denominator
  let rounded := roundAtPlace numerator denominator (lead - (count - 1 : Nat))
  if digitCount rounded.digits > count then ⟨rounded.digits / 10, rounded.exponent + 1⟩
  else rounded

/-- The magnitude of a finite double in units of the last of so many decimal places. -/
def fixed (x : Float) (places : Int) : Nat :=
  let (numerator, denominator) := ratio x
  (roundAtPlace numerator denominator (-places)).digits

/-- The double nearest to a decimal. Exponents far outside the range of doubles are decided by
the place of the first digit alone. -/
def ofDecimal (negative : Bool) (d : Decimal) : Float :=
  let lead : Int := digitCount d.digits + d.exponent
  if d.digits = 0 ∨ lead < -330 then withSign negative 0
  else if 320 < lead then withSign negative (0x7FF * twoTo 52)
  else
    let (up, down) := powerRatio 10 d.exponent
    ofRatio negative (d.digits * up) down

/-- The double rounded to a number of decimal places, which may be negative. Beyond the places
that any double has nothing changes; coarser than any double the magnitude vanishes. -/
def roundTo (x : Float) (places : Int) : Float :=
  if !x.isFinite || 323 < places then x
  else if places < -308 then 0.0 * x
  else ofDecimal (isNegative x) ⟨fixed x places, -places⟩

end Reckoner.Double
