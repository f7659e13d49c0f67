/-!
# The installation

The program refuses to start unless all its parts are where they belong. A part counts as being
there when something of its name is, be it a folder.
-/

namespace Reckoner.Installation

/-- A place below the root of the installation: the names that lead there, the last one first. -/
abbrev Place := List String

/-- The place one step further on; two points lead back, and nothing leads back from outside. -/
def advance (place : Option Place) (step : String) : Option Place :=
  match place with
  | none => none
  | some names => if step = ".." then (if names.isEmpty then none else some names.tail)
    else some (step :: names)

/-- The places that steps pass through. -/
def passed (place : Option Place) : List String → List (Option Place)
  | [] => []
  | step :: rest =>
    let next := advance place step
    next :: passed next rest

/-- The places that a path below the root passes through, the last one being where it leads. -/
def places (path : String) : List Place :=
  let steps := (path.splitOn "/").filter fun step => step != "" && step != "."
  if path.startsWith "/" then [] else (passed (some []) steps).filterMap id

/-- A part of the program: its folder, if it is not at the top, and its name. -/
structure Part where
  folder : Option String
  name : String
  deriving DecidableEq, Repr

namespace Part

/-- Where the part belongs. -/
def place (p : Part) : Place := p.name :: p.folder.toList

/-- The path to the part. -/
def path (p : Part) : String := "/".intercalate p.place.reverse

end Part

/-- The folder of the engine. -/
def engineFolder : String := "ExprEngine"

/-- The parts that must be there. -/
def required : List Part := [
  ⟨some engineFolder, "MathEngine.py"⟩, ⟨some engineFolder, "ScientificEngine.py"⟩,
  ⟨some engineFolder, "Solver.py"⟩, ⟨some engineFolder, "config_manager.py"⟩,
  ⟨none, "config.json"⟩]

/-- The parts that are not there when just those files are. -/
def missing (present : List String) : List Part :=
  let found := present.flatMap places
  required.filter fun part => !found.contains part.place

/-- What is printed about missing parts, if there are any. -/
def complaint? (present : List String) : Option String :=
  match missing present with
  | [] => none
  | parts =>
    some ("Error: The following files are missing or in the wrong location:\n"
      ++ String.join (parts.map fun part => "- " ++ part.name ++ "\n"))

end Reckoner.Installation
