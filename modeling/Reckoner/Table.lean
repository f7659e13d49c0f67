/-!
# Tables

A table holds values by name in the order in which the names first came. A name that comes again
keeps its place and takes the new value.
-/

namespace Reckoner

/-- Values by name. -/
abbrev Table (β : Type) := List (String × β)

namespace Table

variable {β γ : Type}

/-- The value under a name. -/
def find? : Table β → String → Option β
  | [], _ => none
  | (key, value) :: rest, name => if key = name then some value else find? rest name

/-- The name has a value. -/
def holds (t : Table β) (name : String) : Bool := (find? t name).isSome

/-- Gives a name a value. -/
def insert : Table β → String → β → Table β
  | [], name, value => [(name, value)]
  | (key, old) :: rest, name, value =>
    if key = name then (key, value) :: rest else (key, old) :: insert rest name value

/-- Takes values over from a list of pairs, the later ones last. -/
def insertAll (t : Table β) (pairs : List (String × β)) : Table β :=
  pairs.foldl (fun t (name, value) => insert t name value) t

/-- The table of a list of pairs. -/
def ofPairs (pairs : List (String × β)) : Table β := insertAll [] pairs

/-- The table without certain names. -/
def without (t : Table β) (names : List String) : Table β := t.filter (!names.contains ·.1)

/-- The names in their order. -/
def names (t : Table β) : List String := t.map (·.1)

/-- Other values under the same names. -/
def mapValues (f : β → γ) (t : Table β) : Table γ := t.map fun (name, value) => (name, f value)

end Table

end Reckoner
