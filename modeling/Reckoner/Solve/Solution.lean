import Reckoner.Datum

/-!
# Solutions

What has been found for the unknowns of an equation or of a system, and how it was found.
-/

namespace Reckoner

/-- How a solution was found. -/
inductive Method where
  /-- The equation has a linear form. -/
  | linear
  /-- By iteration for one unknown. -/
  | newton
  /-- By iteration for several unknowns. -/
  | newtonSystem
  /-- There are no unknowns, only something to check. -/
  | check
  deriving DecidableEq, Repr

/-- The name of a method. -/
def Method.name : Method → String
  | .linear => "linear"
  | .newton => "newton"
  | .newtonSystem => "newton-system"
  | .check => "check"

/-- Values of unknowns. -/
structure Solution (α : Type) where
  values : Table α
  method : Method
  iterations : Nat
  /-- How far the sides of the equations are apart. -/
  residual : α
  /-- Whether the equations hold, if there was nothing to find. -/
  satisfied : Option Bool

namespace Solution

/-- The solution with other values. -/
def map {α β : Type} (f : α → β) (s : Solution α) : Solution β :=
  { s with values := s.values.mapValues f, residual := f s.residual }

/-- A solution as a term. -/
def text (s : Solution Datum) : String :=
  "Solution(" ++ (Datum.map s.values).shown ++ ", method=" ++ Text.quoted s.method.name
    ++ ", iterations=" ++ toString s.iterations ++ ")"

end Solution

end Reckoner
