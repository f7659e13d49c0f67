import Reckoner.Complex.Basic

/-!
# Powers of complex numbers

A whole exponent of magnitude at most 100 goes through repeated squaring, every other one through
the polar form. A power with an infinite part is out of range.
-/

namespace Reckoner.Complex

/-- The product of the squares of `square` picked by the binary digits of the exponent, from the
lowest digit up. -/
def squaring : Nat → Nat → (result square : Complex) → Complex
  | 0, _, result, _ => result
  | fuel + 1, exponent, result, square =>
    if exponent = 0 then result
    else
      squaring fuel (exponent / 2) (if exponent % 2 = 1 then result * square else result)
        (square * square)

/-- A power with a natural exponent. -/
def naturalPower (a : Complex) (n : Nat) : Complex := squaring n n one a

/-- The exponents that go through repeated squaring. -/
def smallExponent? (b : Complex) : Option Int :=
  if b.im == 0.0 && b.re.abs ≤ 100.0 && Double.isIntegral b.re then some (Double.truncate b.re)
  else none

/-- The power in polar form. -/
def polarPower (a b : Complex) : Except Fault Complex :=
  let length := Double.hypotenuse a.re a.im
  let turn := a.im.atan2 a.re
  let (grown, phase) :=
    if b.im == 0.0 then (length.pow b.re, turn * b.re)
    else (length.pow b.re / (turn * b.im).exp, turn * b.re + b.im * length.log)
  if phase.isInf then .error .divisionByZero
  else .ok ⟨grown * phase.cos, grown * phase.sin⟩

/-- The power before its size is checked. -/
def rawPower (a b : Complex) : Except Fault Complex :=
  match smallExponent? b with
  | some n =>
    if 0 < n then .ok (naturalPower a n.toNat)
    else divide one (naturalPower a (-n).toNat)
  | none =>
    if b.isZero then .ok one
    else if a.isZero then
      if b.im == 0.0 && !(b.re < 0.0) then .ok ⟨0.0, 0.0⟩ else .error .divisionByZero
    else polarPower a b

/-- The power. -/
def power (a b : Complex) : Except Fault Complex := do
  let p ← rawPower a b
  if p.hasInfinity then .error .outOfRange else .ok p

end Reckoner.Complex
