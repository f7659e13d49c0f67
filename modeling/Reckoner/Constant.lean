import Reckoner.Double.Elementary

/-!
# Constants

The names that always stand for the same number.
-/

namespace Reckoner

/-- The named constants. -/
inductive Constant where
  | pi | e | inf | nan
  deriving DecidableEq, Repr

namespace Constant

/-- The name of a constant in an expression. -/
def name : Constant → String
  | pi => "pi"
  | e => "e"
  | inf => "inf"
  | nan => "nan"

def all : List Constant := [pi, e, inf, nan]

/-- The constant of that name. -/
def ofName? (s : String) : Option Constant := all.find? (·.name == s)

/-- The name of a constant. -/
def isName (s : String) : Bool := (ofName? s).isSome

/-- The value of a constant as a double. -/
def value : Constant → Float
  | pi => Double.pi
  | e => Double.euler
  | inf => Double.infinity
  | nan => Double.nan

end Constant

end Reckoner
