/-!
# Sets of characters as ranges of code points
-/

namespace Reckoner.Text

/-- A set of code points: inclusive ranges in ascending order. -/
abbrev Ranges := List (Nat × Nat)

/-- The search ends at the first range that starts beyond the code point. -/
def Ranges.has (n : Nat) : Ranges → Bool
  | [] => false
  | (low, high) :: rest => low ≤ n && (n ≤ high || Ranges.has n rest)

/-- Membership of a character. -/
def Ranges.contains (ranges : Ranges) (c : Char) : Bool := Ranges.has c.toNat ranges

end Reckoner.Text
