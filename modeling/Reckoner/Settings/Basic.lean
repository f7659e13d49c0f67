import Reckoner.Datum

/-!
# Settings

The settings by name. Those that a settings file does not give have default values; a name that
neither of them knows stands for zero. There may be no settings at all because of what stands in
the file, and then every look at them fails.
-/

namespace Reckoner

/-- The settings that are in force, or why there are none. -/
abbrev Settings := Except Cause (Table Datum)

namespace Settings

/-- The settings without any file. -/
def defaults : Table Datum := [
  ("decimal_places", .number (.whole 10)),
  ("significant_digits", .null),
  ("tolerance", .number (.real 1e-10)),
  ("max_iterations", .number (.whole 100)),
  ("initial_guess", .number (.real 1.0)),
  ("codegen", .bool true),
  ("debug", .bool false)]

/-- The defaults with the settings of a file in their place. -/
def override (stored : Table Datum) : Table Datum := Table.insertAll defaults stored

/-- The value of a setting. -/
def value (s : Settings) (name : String) : Except Cause Datum := do
  return ((← s).find? name).getD (.number (.whole 0))

/-- Programs get code. -/
def codegen (s : Settings) : Except Cause Bool := return (← s.value "codegen").isTrue

end Settings

end Reckoner
