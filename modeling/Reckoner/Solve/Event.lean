import Reckoner.Solve.Linear
import Reckoner.Solve.Newton
import Reckoner.Solve.System

/-!
# Events of solving

What solving tells an observer while it goes on, and what a log says of it.
-/

namespace Reckoner

/-- What happens while an equation or a system is solved. -/
inductive SolveEvent where
  /-- A linear form has been found that agrees with the equation. -/
  | form (name : String) (form : LinearForm Scalar)
  /-- No linear form has been found. -/
  | rejected (why : String)
  /-- The linear form has been solved. -/
  | root (name : String) (form : LinearForm Scalar) (value : Scalar)
  /-- A step of the iteration for one unknown, and the estimate that it starts from. -/
  | step (name : String) (start : Estimate) (step : NewtonStep Scalar)
  /-- A step of the iteration for several unknowns. -/
  | systemStep (names : List String) (step : SystemStep Float)

namespace SolveEvent

/-- Estimates by name; of several under one name the last one counts. -/
def estimates (names : List String) (values : List Float) : Table Scalar :=
  .ofPairs (names.zip (values.map Scalar.real))

/-- Estimates by name as a term. -/
def estimatesText (names : List String) (values : List Float) : String :=
  (Datum.map ((estimates names values).mapValues .number)).shown

/-- What a log says. -/
def logged? : SolveEvent → Option String
  | form name f =>
    some ("linear form: " ++ f.factor.text ++ "*" ++ name ++ " + " ++ f.constant.text)
  | rejected why => some ("linear solve rejected (" ++ why ++ "); using Newton")
  | root .. => none
  | step name _ s =>
    some ("newton " ++ toString s.iteration ++ ": " ++ name ++ " = " ++ s.next.text ++ " (f = "
      ++ s.residual.text ++ ", f' = " ++ s.slope.text ++ ")")
  | systemStep names s =>
    some ("newton-system " ++ toString s.iteration ++ ": " ++ estimatesText names s.next
      ++ " (|F| = " ++ Double.general s.norm 6 ++ ")")

end SolveEvent

end Reckoner
