/-!
# Faults

The ways in which an arithmetic operation has no result of its own.
-/

namespace Reckoner

/-- Why an arithmetic operation has no result. -/
inductive Fault where
  /-- A whole number lies beyond every double. -/
  | wholeTooLarge
  /-- The quotient of two whole numbers lies beyond every double. -/
  | quotientTooLarge
  /-- The absolute value of a complex number with finite parts lies beyond every double. -/
  | magnitudeTooLarge
  /-- The result lies beyond every double. -/
  | outOfRange
  /-- The function has a pole at its argument, or no value there. -/
  | outsideDomain
  /-- A division by zero, or a negative power of zero. -/
  | divisionByZero
  /-- The square of a number lies beyond every double. -/
  | squareTooLarge
  deriving DecidableEq, Repr

/-- A fault in words. -/
def Fault.message : Fault → String
  | .wholeTooLarge => "int too large to convert to float"
  | .quotientTooLarge => "integer division result too large for a float"
  | .magnitudeTooLarge => "absolute value too large"
  | .outOfRange => "math range error"
  | .outsideDomain => "math domain error"
  | .divisionByZero => "division by zero"
  | .squareTooLarge => "(34, 'Numerical result out of range')"

end Reckoner
