import Reckoner.Expr.Basic
import Reckoner.Scalar.Basic

/-!
# Estimates

What the value of an unknown is taken to be. An iteration computes numbers, but a caller may open it
with something else, which stays what it is until the first step has been made.
-/

namespace Reckoner

/-- A number that an unknown may have, or what a caller has put in its place. -/
inductive Estimate where
  | number (x : Scalar)
  | truth (b : Bool)
  | text (s : String)
  /-- An expression and its printed form. -/
  | tree (e : Expr) (printed : String)
  deriving Inhabited

/-- The estimate in words. -/
def Estimate.words : Estimate → String
  | .number x => x.text
  | .truth b => if b then "True" else "False"
  | .text s => s
  | .tree _ printed => printed

end Reckoner
