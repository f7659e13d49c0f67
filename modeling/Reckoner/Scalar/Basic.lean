import Reckoner.Complex.Power

/-!
# Scalars

The numbers that callers hand over and that the engine answers: whole numbers of any size,
doubles, and complex numbers. Arithmetic on two of them takes place in the wider of their kinds.
`settle` is the normal form of a result: a double, or a complex number whose imaginary part
matters.
-/

namespace Reckoner

/-- A number of one of three kinds, each within the next. -/
inductive Scalar where
  | whole (n : Int)
  | real (x : Float)
  | complex (z : Complex)
  deriving DecidableEq, Inhabited

namespace Scalar

/-- A whole number as a double. -/
def wholeToFloat (n : Int) : Except Fault Float :=
  match Double.ofInt? n with
  | some x => .ok x
  | none => .error .wholeTooLarge

/-- The complex number of the same value. -/
def toComplex : Scalar → Except Fault Complex
  | .whole n => Complex.ofFloat <$> wholeToFloat n
  | .real x => .ok (.ofFloat x)
  | .complex z => .ok z

/-- Both numbers in the wider of their kinds, and an operation there. -/
def lift (whole : Int → Int → Except Fault Scalar) (real : Float → Float → Except Fault Scalar)
    (complex : Complex → Complex → Except Fault Scalar) : Scalar → Scalar → Except Fault Scalar
  | .whole m, .whole n => whole m n
  | .whole m, .real y => do real (← wholeToFloat m) y
  | .real x, .whole n => do real x (← wholeToFloat n)
  | .real x, .real y => real x y
  | .complex z, b => do complex z (← b.toComplex)
  | a, .complex w => do complex (← a.toComplex) w

/-- The sum. -/
def add : Scalar → Scalar → Except Fault Scalar :=
  lift (fun m n => .ok (.whole (m + n))) (fun x y => .ok (.real (x + y)))
    (fun z w => .ok (.complex (z + w)))

/-- The difference. -/
def sub : Scalar → Scalar → Except Fault Scalar :=
  lift (fun m n => .ok (.whole (m - n))) (fun x y => .ok (.real (x - y)))
    (fun z w => .ok (.complex (z - w)))

/-- The product. -/
def mul : Scalar → Scalar → Except Fault Scalar :=
  lift (fun m n => .ok (.whole (m * n))) (fun x y => .ok (.real (x * y)))
    (fun z w => .ok (.complex (z * w)))

/-- The quotient of two whole numbers, rounded once. -/
def divideWhole (m n : Int) : Except Fault Float :=
  if n = 0 then .error .divisionByZero
  else
    let quotient := Double.ofRatio ((m < 0) != (n < 0)) m.natAbs n.natAbs
    if quotient.isInf then .error .quotientTooLarge else .ok quotient

/-- The quotient, in which no divisor is zero. -/
def div : Scalar → Scalar → Except Fault Scalar :=
  lift (fun m n => .real <$> divideWhole m n)
    (fun x y => if y == 0.0 then .error .divisionByZero else .ok (.real (x / y)))
    (fun z w => .complex <$> z.divide w)

/-- The number with the opposite sign. -/
def neg : Scalar → Scalar
  | .whole n => .whole (-n)
  | .real x => .real (-x)
  | .complex z => .complex (-z)

/-- An odd whole number among the doubles. -/
def isOdd (y : Float) : Bool := Double.isIntegral y && Double.truncate y % 2 == 1

/-- A power with a positive finite base and a finite exponent, behind a sign. -/
private def finitePower (negative : Bool) (x y : Float) : Except Fault Scalar :=
  let p := if x == 1.0 then 1.0 else x.pow y
  if p.isInf then .error .outOfRange else .ok (.real (if negative then -p else p))

/-- A power of doubles: a negative base with a fractional exponent has a complex one. -/
def powerReal (x y : Float) : Except Fault Scalar :=
  if y == 0.0 then .ok (.real 1.0)
  else if x.isNaN then .ok (.real x)
  else if y.isNaN then .ok (.real (if x == 1.0 then 1.0 else y))
  else if y.isInf then
    if x.abs == 1.0 then .ok (.real 1.0)
    else if (0.0 < y : Bool) == (1.0 < x.abs : Bool) then .ok (.real y.abs)
    else .ok (.real 0.0)
  else if x.isInf then
    if 0.0 < y then .ok (.real (if isOdd y then x else x.abs))
    else .ok (.real (if isOdd y then Double.copySign 0.0 x else 0.0))
  else if x == 0.0 then
    if y < 0.0 then .error .divisionByZero else .ok (.real (if isOdd y then x else 0.0))
  else if x < 0.0 then
    if Double.isIntegral y then finitePower (isOdd y) (-x) y
    else .complex <$> (Complex.ofFloat x).power (.ofFloat y)
  else finitePower false x y

/-- A power of whole numbers; one that no double reaches is refused without computing it. -/
def powerWhole (m n : Int) : Except Fault Scalar :=
  if n < 0 then do powerReal (← wholeToFloat m) (← wholeToFloat n)
  else if 1 < m.natAbs && 1100 < n then .error .wholeTooLarge
  else if m.natAbs ≤ 1 then .ok (.whole (m.pow (if n = 0 then 0 else 2 - n.toNat % 2)))
  else .ok (.whole (m.pow n.toNat))

/-- The power. -/
def pow : Scalar → Scalar → Except Fault Scalar :=
  lift powerWhole powerReal (fun z w => .complex <$> z.power w)

/-- The absolute value. -/
def abs : Scalar → Except Fault Scalar
  | .whole n => .ok (.whole n.natAbs)
  | .real x => .ok (.real x.abs)
  | .complex z => .real <$> z.magnitude

/-- Imaginary parts below this count as zero. -/
def negligible : Float := 1e-14

/-- The normal form: a double unless there is an imaginary part that matters. -/
def settle : Scalar → Except Fault Scalar
  | .whole n => .real <$> wholeToFloat n
  | .real x => .ok (.real x)
  | .complex z => .ok (if z.im.abs < negligible then .real z.re else .complex z)

/-- A number with an imaginary part, if only of zero. -/
def isComplex : Scalar → Bool
  | .complex _ => true
  | _ => false

/-- The number equals zero. -/
def isZero : Scalar → Bool
  | .whole n => n == 0
  | .real x => x == 0.0
  | .complex z => z.isZero

/-- The number as a double, a complex one having none. -/
def toFloat? : Scalar → Option (Except Fault Float)
  | .whole n => some (wholeToFloat n)
  | .real x => some (.ok x)
  | .complex _ => none

/-- No part is infinite or not a number. -/
def isFinite : Scalar → Except Fault Bool
  | .whole n => (fun _ => true) <$> wholeToFloat n
  | .real x => .ok x.isFinite
  | .complex z => .ok z.isFinite

/-- How two numbers that are not complex compare; exact where one of them is whole. -/
def order : Scalar → Scalar → Option Ordering
  | .whole m, .whole n => some (compare m n)
  | .whole m, .real y => Double.compareInt m y
  | .real x, .whole n => (Double.compareInt n x).map Ordering.swap
  | .real x, .real y =>
    if x < y then some .lt else if y < x then some .gt else if x == y then some .eq else none
  | _, _ => none

/-- The first number is smaller. -/
def less (a b : Scalar) : Bool := order a b == some .lt

/-- The number as text: a double with the shortest digits that read back. -/
def text : Scalar → String
  | .whole n => toString n
  | .real x => Double.text x
  | .complex z => z.text

end Scalar

end Reckoner
