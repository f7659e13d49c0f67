import Reckoner.Json.Reader
import Reckoner.Json.Writer
import Reckoner.Settings.Basic

/-!
# The settings file

Settings are kept in a file. A file that is missing, broken or no object gives no settings; one with
a whole number of too many digits gives a failure. Saving replaces the whole file; a value that has
no form there ends the file in front of it.
-/

namespace Reckoner.Settings

/-- The place where settings are kept. -/
structure Store where
  /-- What the file holds, if there is one. -/
  content : Option String
  /-- A file can be there. -/
  reachable : Bool

namespace Store

/-- A place without a file. -/
def empty : Store := ⟨none, true⟩

/-- What can be read. -/
def read (s : Store) : Option String := if s.reachable then s.content else none

/-- Puts a text into the file. -/
def write (s : Store) (text : String) : Store :=
  if s.reachable then { s with content := some text } else s

/-- Removes the file. -/
def remove (s : Store) : Store := if s.reachable then { s with content := none } else s

/-- The place is not there any more. -/
def withdraw (_ : Store) : Store := ⟨none, false⟩

/-- The settings that the file gives. -/
def stored (s : Store) : Except Cause (Table Datum) :=
  match s.read.map Json.read with
  | some (.ok (.map entries)) => .ok entries
  | some (.error (.tooLong digits)) => .error (.tooLongWhole digits)
  | _ => .ok []

/-- The settings in force. -/
def load (s : Store) : Settings := override <$> s.stored

/-- Saves settings: what has been saved, which is nothing on failure, and the place after it. -/
def save (s : Store) (entries : Table Datum) : Table Datum × Store :=
  if s.reachable then
    let written := Json.write 0 (.map entries)
    (if written.complete then entries else [], s.write (String.ofList written.text))
  else ([], s)

end Store

end Reckoner.Settings
