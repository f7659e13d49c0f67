import Reckoner.Solve.Numeric

/-!
# Elimination

A square system of linear equations is brought to triangular form column by column. In every column
the row with the largest entry is moved to the front; a largest entry that is zero, or far below
the largest entry of the whole matrix, makes the matrix singular.
-/

namespace Reckoner

/-- A row of coefficients, from the column that is next on, and its right-hand side. -/
structure EquationRow (ρ : Type) where
  coefficients : List ρ
  rhs : ρ

namespace Elimination

variable {ρ : Type} [Line ρ]

/-- Pivots of this size, relative to the largest entry of the matrix, count as zero. -/
def pivotTolerance : Float := 1e-12

/-- The first coefficient. -/
def lead (r : EquationRow ρ) : ρ := r.coefficients.headD Line.zero

/-- The index of the largest number, the first of several, and the number. -/
def largest (first : ρ) : Nat → (index : Nat) → List ρ → Nat × ρ
  | best, _, [] => (best, first)
  | best, index, x :: rest =>
    if Line.outranks first x then largest first best (index + 1) rest
    else largest x index (index + 1) rest

/-- The largest of some numbers that are not negative; zero if there are none. -/
def greatest : List ρ → ρ
  | [] => Line.zero
  | x :: rest => (largest x 0 1 rest).2

/-- The largest size of an entry. -/
def scale (rows : List (List ρ)) : ρ := greatest (rows.flatten.map Line.abs)

/-- The index of the row with the largest first coefficient. -/
def pivotIndex : List (EquationRow ρ) → Nat
  | [] => 0
  | r :: rest => (largest (Line.abs (lead r)) 0 1 (rest.map fun r => Line.abs (lead r))).1

/-- The rows with the first one and the one at an index in each other's places. -/
def swapFront (index : Nat) (rows : List (EquationRow ρ)) : List (EquationRow ρ) :=
  match rows, rows[index]? with
  | first :: _, some picked => (rows.set index first).set 0 picked
  | _, _ => rows

/-- A row minus the multiple of the pivot row that clears its first coefficient, without it. -/
def reduceRow (pivot row : EquationRow ρ) : EquationRow ρ :=
  let factor := lead row / lead pivot
  { coefficients :=
      List.zipWith (fun entry above => entry - factor * above) row.coefficients.tail
        pivot.coefficients.tail
    rhs := row.rhs - factor * pivot.rhs }

/-- A first coefficient counts as zero. -/
def isNegligible (scale pivot : ρ) : Bool :=
  Line.atMost (Line.abs pivot) (Line.ofFloat pivotTolerance * scale)
    || (Line.atMost scale Line.zero && Line.atMost Line.zero scale)

/-- The value of the unknown of a row, given the values of those behind it. -/
def solveRow (row : EquationRow ρ) (behind : List ρ) : ρ :=
  (row.rhs - Line.dot row.coefficients.tail behind) / lead row

/-- The solution of the equations that are left, in which the column of the first unknown is next;
none if a pivot is negligible. -/
def solveRows (scale : ρ) : (columns : Nat) → List (EquationRow ρ) → Option (List ρ)
  | 0, _ => some []
  | columns + 1, rows =>
    match swapFront (pivotIndex rows) rows with
    | [] => none
    | pivot :: others =>
      if isNegligible scale (lead pivot) then none
      else
        (solveRows scale columns (others.map (reduceRow pivot))).map fun behind =>
          solveRow pivot behind :: behind

/-- The solution of a system of linear equations, unless its matrix is singular. -/
def solve (matrix : List (List ρ)) (rhs : List ρ) : Option (List ρ) :=
  solveRows (scale matrix) rhs.length (List.zipWith EquationRow.mk matrix rhs)

end Elimination

end Reckoner
