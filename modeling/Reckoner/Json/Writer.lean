import Reckoner.Datum
import Reckoner.Json.Text

/-!
# Writing JSON

Every item and every member stands on a line of its own, four blanks further in than the value that
holds it. A value that JSON has no form for ends the writing where it would have stood.
-/

namespace Reckoner.Json

/-- What has been written, and whether it is all that was to be written. -/
structure Written where
  text : List Char
  complete : Bool

namespace Written

/-- A text that is written. -/
def ofText (text : List Char) : Written := ⟨text, true⟩

/-- Nothing can be written. -/
def refused : Written := ⟨[], false⟩

/-- One after the other; nothing follows what is not complete. -/
def andThen (a b : Written) : Written :=
  if a.complete then ⟨a.text ++ b.text, b.complete⟩ else a

end Written

/-- The start of a line at a depth. -/
def newLine (depth : Nat) : List Char := '\n' :: List.replicate (4 * depth) ' '

/-- A double. -/
def doubleText (x : Float) : List Char :=
  if x.isNaN then "NaN".toList
  else if x.isInf then (if Double.isNegative x then "-Infinity" else "Infinity").toList
  else (Double.text x).toList

/-- A number. -/
def scalar : Scalar → Written
  | .whole n => .ofText (toString n).toList
  | .real x => .ofText (doubleText x)
  | .complex _ => .refused

mutual

/-- A value at a depth. -/
def write (depth : Nat) : Datum → Written
  | .null => .ofText "null".toList
  | .bool b => .ofText (if b then "true" else "false").toList
  | .number x => scalar x
  | .text s => .ofText (escape s.toList)
  | .list [] => .ofText ['[', ']']
  | .list (d :: rest) =>
    (Written.ofText ('[' :: newLine (depth + 1))).andThen
      ((write (depth + 1) d).andThen (writeItems depth rest))
  | .map [] => .ofText ['\x7b', '\x7d']
  | .map ((name, d) :: rest) =>
    (Written.ofText ('\x7b' :: (newLine (depth + 1) ++ escape name.toList ++ [':', ' ']))).andThen
      ((write (depth + 1) d).andThen (writeMembers depth rest))
  | .tokens [] => .ofText ['[', ']']
  | .tokens _ => (Written.ofText ('[' :: newLine (depth + 1))).andThen .refused
  | .tree _ | .equation _ => .refused

/-- The items behind the first one, and the end of the list. -/
def writeItems (depth : Nat) : List Datum → Written
  | [] => .ofText (newLine depth ++ [']'])
  | d :: rest =>
    (Written.ofText (',' :: newLine (depth + 1))).andThen
      ((write (depth + 1) d).andThen (writeItems depth rest))

/-- The members behind the first one, and the end of the object. -/
def writeMembers (depth : Nat) : List (String × Datum) → Written
  | [] => .ofText (newLine depth ++ ['\x7d'])
  | (name, d) :: rest =>
    (Written.ofText (',' :: (newLine (depth + 1) ++ escape name.toList ++ [':', ' ']))).andThen
      ((write (depth + 1) d).andThen (writeMembers depth rest))

end

end Reckoner.Json
