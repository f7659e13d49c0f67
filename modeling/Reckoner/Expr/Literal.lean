import Reckoner.Datum

/-!
# Numbers as expressions

A literal has no sign of its own, so a negative number becomes a sign in front of a literal, and a
complex number the sum or the difference of its parts.
-/

namespace Reckoner.Expr

/-- A double as an expression. A zero with a minus sign keeps it. -/
def ofFloat (x : Float) : Expr :=
  if x < 0.0 || (x == 0.0 && Double.isNegative x) then .negate (.number (-x)) else .number x

/-- A complex number as an expression. -/
def ofComplex (z : Complex) : Expr :=
  .binary (if Double.isNegative z.im then "-" else "+") (ofFloat z.re) (.imaginary z.im.abs)

/-- A number in normal form as an expression. -/
def ofScalar : Scalar → Expr
  | .whole n => ofFloat (Double.ofInt n)
  | .real x => ofFloat x
  | .complex z => ofComplex z

/-- A number from a caller as an expression. -/
def literal (d : Datum) : Except Cause Expr :=
  match d.settled? with
  | some value => ofScalar <$> value
  | none => .error .notALiteral

end Reckoner.Expr
