import Reckoner.Expr.Evaluation
import Reckoner.Solve.Solution

/-!
# Checking equations

Equations without unknowns either hold or do not. They hold if the residuals, taken together as a
vector, have a norm below the tolerance.
-/

namespace Reckoner.Check

/-- The square of the size of a number. -/
def squareSize (x : Scalar) : Except Fault Scalar := do
  let size ← x.abs
  (size.pow (.whole 2)).mapError fun _ => .squareTooLarge

/-- The sum of the squares of the sizes, from left to right. -/
def sumOfSquares : (sum : Scalar) → List Scalar → Except Fault Scalar
  | sum, [] => .ok sum
  | sum, x :: rest => do
    let square ← squareSize x
    sumOfSquares (← sum.add square) rest

/-- The norm of residuals. -/
def norm (residuals : List Scalar) : Except Fault Float := do
  let sum ← sumOfSquares (.whole 0) residuals
  return (← sum.toComplex).re.sqrt

/-- Whether equations hold among bindings, given the differences of their sides. -/
def run (bindings : Table (Binding Scalar)) (residuals : List Expr) (tolerance : Float) :
    Except Error (Solution Scalar) := do
  let values ← ((Expr.evaluateAllWith (lookup bindings) false residuals).runFrom .fresh).1
  let norm ← (norm values).mapError Fault.toError
  return ⟨[], .check, 0, .real norm, some (norm < tolerance)⟩

end Reckoner.Check
