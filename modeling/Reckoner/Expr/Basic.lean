/-!
# Expression trees

A tree is what the grammar builds from a text, and also what a caller may build by hand. So an
operator, a constant and a function are given by name, known or not, a node may have no meaning
of its own, and something else altogether may stand in the place of a node.
-/

namespace Reckoner

/-- Expressions. -/
inductive Expr where
  /-- A number. -/
  | number (value : Float)
  /-- A number times the imaginary unit. -/
  | imaginary (value : Float)
  /-- A named constant. -/
  | constant (name : String)
  /-- A variable. -/
  | var (name : String)
  /-- The operand with the opposite sign. -/
  | negate (operand : Expr)
  /-- An operator between two operands. -/
  | binary (op : String) (left right : Expr)
  /-- A function applied to arguments. -/
  | call (name : String) (args : List Expr)
  /-- A node without a meaning. -/
  | blank
  /-- Something that is not an expression, by its type and its text. -/
  | foreign (type shown : String)
  deriving Inhabited

/-- An equation between two expressions, and the text it was read from. -/
structure Equation where
  lhs : Expr
  rhs : Expr
  text : String
  deriving Inhabited

namespace Expr

/-- A number by value: zeros of both signs are one number, and what is not a number is not even
itself. -/
private def sameNumber (x y : Float) : Bool := x == y

mutual

/-- Equality of trees in which numbers are compared by value. -/
def same : Expr → Expr → Bool
  | number x, number y => sameNumber x y
  | imaginary x, imaginary y => sameNumber x y
  | constant a, constant b => a == b
  | var a, var b => a == b
  | negate a, negate b => same a b
  | binary f a b, binary g c d => f == g && same a c && same b d
  | call f xs, call g ys => f == g && sameAll xs ys
  | foreign t a, foreign u b => t == u && a == b
  | _, _ => false

/-- Equality of argument lists. -/
def sameAll : List Expr → List Expr → Bool
  | [], [] => true
  | x :: xs, y :: ys => same x y && sameAll xs ys
  | _, _ => false

end

end Expr

/-- The left side minus the right side: the equation holds where this is zero. -/
def Equation.residual (e : Equation) : Expr := .binary "-" e.lhs e.rhs

end Reckoner
