import Reckoner.Settings.Basic
import Reckoner.Trace.Step

/-!
# Results on the console

A value is rounded to a number of decimal places, and a sign in front of it says whether digits
were cut off. Whole values and values from ten to the sixteenth on are not rounded.
-/

namespace Reckoner.Console

/-- A text and whether digits were cut off. -/
structure Rounded where
  text : String
  cut : Bool
  deriving DecidableEq, Repr

/-- More decimal places than any double has digits for. -/
def mostPlaces : Nat := 1100

/-- A double with so many decimal places, without zeros at the end. -/
def placesText (x : Float) (places : Int) : Except Cause String := do
  let count ← Display.precision places
  let text := String.ofList (Display.dropZeros (Double.placed x (min count mostPlaces)).toList)
  return if text = "" ∨ text = "-0" ∨ text = "-" then "0" else text

/-- Values that are not rounded: whole ones, those from ten to the sixteenth on, and those that are
not finite. -/
def unrounded? (x : Float) : Option Rounded :=
  if Double.isPlainWhole x then some ⟨toString (Double.truncate x), false⟩
  else if !x.isFinite || 1e16 ≤ x.abs then some ⟨Double.text x, false⟩
  else none

/-- A double rounded to a number of decimal places. -/
def roundReal (places : Int) (x : Float) : Except Cause Rounded :=
  match unrounded? x with
  | some r => .ok r
  | none => do
    let rounded := Double.roundTo x places
    return ⟨← placesText rounded places, rounded != x⟩

/-- The decimal places that are asked for, which may turn out to be no number of places. -/
inductive Places where
  | count (n : Int)
  /-- A truth value, which can be counted with but not written. -/
  | truth
  /-- A value of a kind that does not count. -/
  | uncountable (kind : String)
  deriving DecidableEq, Repr

namespace Places

/-- The decimal places that a value from a caller asks for. -/
def ofDatum : Datum → Places
  | .number (.whole n) => count n
  | .bool _ => truth
  | d => uncountable d.kind

/-- A double rounded; the places only matter where there is something to round. -/
def round (places : Places) (x : Float) : Except Cause Rounded :=
  match places with
  | count n => roundReal n x
  | truth => (unrounded? x).elim (.error .missingPrecision) .ok
  | uncountable kind => (unrounded? x).elim (.error (.uncountable kind)) .ok

/-- A complex number rounded; a real part of zero is left out. -/
def roundComplex (places : Places) (z : Complex) : Except Cause Rounded := do
  let re ← places.round z.re
  let im ← places.round z.im.abs
  let negative : Bool := z.im < 0.0
  let text :=
    if re.text = "0" then (if negative then "-" else "") ++ im.text ++ "i"
    else re.text ++ (if negative then "-" else "+") ++ im.text ++ "i"
  return ⟨text, re.cut || im.cut⟩

/-- A value rounded. -/
def roundDatum (places : Places) : Datum → Except Cause Rounded
  | .number (.complex z) => places.roundComplex z
  | d => do places.round (← d.toFloat)

/-- The decimal places that are asked for, or that the settings give. -/
def choose (settings : Settings) (asked? : Option Datum) : Except Cause Places :=
  match asked? with
  | some asked => return ofDatum asked
  | none => return count (← (← settings.value "decimal_places").toWhole)

end Places

/-- A value rounded to the number of decimal places that is asked for or set. -/
def rounded (settings : Settings) (asked? : Option Datum) (d : Datum) : Except Cause Rounded := do
  (← Places.choose settings asked?).roundDatum d

/-- The sign in front of a value. -/
def relation (r : Rounded) : String := if r.cut then "≈" else "="

/-- A line for the value of an unknown. -/
def valueLine (settings : Settings) (asked? : Option Datum) (name : String) (d : Datum) :
    Except Cause String := do
  let r ← rounded settings asked? d
  return name ++ " " ++ relation r ++ " " ++ r.text

/-- What is printed of an answer. -/
def answerText (settings : Settings) (asked? : Option Datum) : Answer → Except Cause String
  | .solution s =>
    if s.method = .check then return if s.satisfied = some true then "true" else "false"
    else do
      let lines ← s.values.mapM fun (name, d) => valueLine settings asked? name d
      return "\n".intercalate lines
  | .datum (.list []) => .ok ""
  | .datum d => do
    let r ← rounded settings asked? d
    return relation r ++ " " ++ r.text

/-- What is printed of steps. -/
def stepsText (steps : List Step) : String := "\n".intercalate (steps.map (·.description))

end Reckoner.Console
