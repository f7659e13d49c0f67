import Reckoner.Datum
import Reckoner.Solve.Elimination

/-!
# Linear systems from callers

The coefficients and the right-hand sides of a system come as values of any kind that numbers can
be made of, and in any number. A square system is solved by elimination. In all others elimination
goes on until it lacks a row, a column or a right-hand side: a matrix with more rows than there are
right-hand sides may have a solution all the same, namely that of the first rows, as long as no
further row offers a larger pivot.
-/

namespace Reckoner

namespace Elimination

variable {ρ : Type} [Line ρ]

/-- The numbers of rows, columns and right-hand sides. -/
structure Shape where
  rows : Nat
  columns : Nat
  rhs : Nat
  deriving DecidableEq, Repr

/-- As many rows and columns as right-hand sides. -/
def Shape.isSquare (s : Shape) : Bool := s.rows = s.rhs && s.columns = s.rhs

/-- The solution of the equations that are left, from a column on. The spare rows have no right-hand
side and are never reduced. -/
def solveSpared (shape : Shape) (scale : ρ) : (left column : Nat) → List (EquationRow ρ) →
    (spare : List (List ρ)) → Except Cause (List ρ)
  | 0, _, _, _ =>
    if 0 < shape.rhs && shape.rhs < shape.columns then
      .error (.misshapen (.surplus (shape.columns - shape.rhs)))
    else .ok []
  | left + 1, column, rows, spare => do
    if shape.columns ≤ column then
      throw (.misshapen (.beyond 1 column shape.columns))
    let candidates := rows ++ spare.map fun coefficients => ⟨coefficients, Line.zero⟩
    let index := pivotIndex candidates
    if candidates[index]?.all fun pivot => isNegligible scale (lead pivot) then
      throw .singularJacobian
    if rows.length ≤ index then
      throw (.misshapen (.beyond 0 (column + index) shape.rhs))
    if shape.rows < shape.rhs then
      throw (.misshapen (.beyond 0 shape.rows shape.rows))
    match swapFront index rows with
    | [] => throw .singularJacobian
    | pivot :: others =>
      let behind ←
        solveSpared shape scale left (column + 1) (others.map (reduceRow pivot))
          (spare.map List.tail)
      return solveRow pivot behind :: behind

/-- The solution of a system whose rows are equally long. -/
def solveShaped (columns : Nat) (matrix : List (List ρ)) (rhs : List ρ) : Except Cause (List ρ) :=
  let shape : Shape := ⟨matrix.length, columns, rhs.length⟩
  if shape.isSquare then
    match solve matrix rhs with
    | some x => .ok x
    | none => .error .singularJacobian
  else if matrix.isEmpty && 0 < shape.rhs then .error (.misshapen .flat)
  else
    solveSpared shape (scale matrix) shape.rhs 0 (List.zipWith EquationRow.mk matrix rhs)
      (matrix.drop shape.rhs)

end Elimination

namespace LinearSystem

/-- An entry as a double; nothing is not a number. -/
def entry : Datum → Except Cause Float
  | .null => .ok Double.nan
  | d => d.toFloat

/-- Values that are lists themselves. -/
def isNested : Datum → Bool
  | .list _ | .tokens _ => true
  | _ => false

/-- The length of all rows, if they are equally long. -/
def columns (matrix : List (List Datum)) : Except Cause Nat :=
  let count := (matrix.headD []).length
  if matrix.any fun row => row.length != count then
    .error (.misshapen (.ragged [matrix.length]))
  else if matrix.any (·.any isNested) then
    .error (.misshapen (.ragged [matrix.length, count]))
  else .ok count

/-- The solution of a system that values give. -/
def solve (matrix : List (List Datum)) (rhs : List Datum) : Except Cause (List Float) := do
  let count ← columns matrix
  let coefficients ← matrix.mapM (·.mapM entry)
  if rhs.any isNested then throw (.misshapen (.ragged [rhs.length]))
  Elimination.solveShaped count coefficients (← rhs.mapM entry)

end LinearSystem

end Reckoner
