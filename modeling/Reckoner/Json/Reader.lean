import Reckoner.Datum
import Reckoner.Json.Text

/-!
# Reading JSON

Besides the values of the standard, the names of the infinities and of the value that is not a
number are read. A number without a point and an exponent is whole, and has a limited number of
digits. Of several members of one name the last one counts, in the place of the first. The first
fault of a text is the one that is found.
-/

namespace Reckoner.Json

/-- Why a text has no value. -/
inductive Fault where
  /-- The text is not JSON. -/
  | malformed
  /-- A whole number has more digits than are read. -/
  | tooLong (digits : Nat)
  deriving DecidableEq, Repr

/-- What may be missing is a fault. -/
def orMalformed {β : Type} : Option β → Except Fault β
  | some b => .ok b
  | none => .error .malformed

/-- The blanks between values. -/
def isSpace (c : Char) : Bool := c == ' ' || c == '\t' || c == '\n' || c == '\r'

/-- The text behind the blanks. -/
def skipSpace (cs : List Char) : List Char := cs.dropWhile isSpace

/-- The text behind a word in front, if it stands there. -/
def word? : (word cs : List Char) → Option (List Char)
  | [], cs => some cs
  | w :: word, c :: cs => if w = c then word? word cs else none
  | _ :: _, [] => none

/-- The words that are values. -/
def words : List (String × Datum) := [
  ("null", .null), ("true", .bool true), ("false", .bool false),
  ("NaN", .number (.real Double.nan)), ("Infinity", .number (.real Double.infinity)),
  ("-Infinity", .number (.real (-Double.infinity)))]

/-- A digit of the basic alphabet. -/
def isDigit (c : Char) : Bool := '0' ≤ c && c ≤ '9'

/-- The digits before the point, which start with a zero only if that is all. -/
def wholeDigits : List Char → List Char × List Char
  | '0' :: rest => (['0'], rest)
  | cs => (cs.takeWhile isDigit, cs.dropWhile isDigit)

/-- A point with the digits behind it, if there are any. -/
def fraction (cs : List Char) : List Char × List Char :=
  match cs with
  | '.' :: rest =>
    if (rest.takeWhile isDigit).isEmpty then ([], cs)
    else ('.' :: rest.takeWhile isDigit, rest.dropWhile isDigit)
  | _ => ([], cs)

/-- A sign. -/
def sign : List Char → List Char × List Char
  | '+' :: rest => (['+'], rest)
  | '-' :: rest => (['-'], rest)
  | rest => ([], rest)

/-- An exponent with its digits, if there are any. -/
def exponent (cs : List Char) : List Char × List Char :=
  match cs with
  | c :: rest =>
    let (mark, digits) := sign rest
    if (c = 'e' ∨ c = 'E') ∧ digits.takeWhile isDigit ≠ [] then
      (c :: (mark ++ digits.takeWhile isDigit), digits.dropWhile isDigit)
    else ([], cs)
  | [] => ([], cs)

/-- A whole number in front. -/
def whole (digits rest : List Char) : Except Fault (Datum × List Char) :=
  match Double.readWhole digits with
  | .ok n => .ok (.number (.whole n), rest)
  | .error .malformed => .error .malformed
  | .error (.tooLong count) => .error (.tooLong count)

/-- A number in front. -/
def number (cs : List Char) : Except Fault (Datum × List Char) :=
  let (minus, rest) : List Char × List Char :=
    match cs with
    | '-' :: rest => (['-'], rest)
    | _ => ([], cs)
  let (digits, rest) := wholeDigits rest
  let (fraction, rest) := fraction rest
  let (exponent, rest) := exponent rest
  if digits.isEmpty then .error .malformed
  else if fraction.isEmpty && exponent.isEmpty then whole (minus ++ digits) rest
  else do
    let x ← orMalformed (Double.read? (minus ++ digits ++ fraction ++ exponent))
    return (.number (.real x), rest)

/-- A value that is no text, list or object. -/
def atom (cs : List Char) : Except Fault (Datum × List Char) :=
  match words.findSome? fun (word, d) => (word? word.toList cs).map fun rest => (d, rest) with
  | some found => .ok found
  | none => number cs

mutual

/-- A value in front. The number bounds how many values and separators there are. -/
def valueAt : Nat → List Char → Except Fault (Datum × List Char)
  | 0, _ => .error .malformed
  | bound + 1, cs =>
    match cs with
    | '"' :: rest => do
      let (s, rest) ← orMalformed (scan rest)
      return (.text (String.ofList s), rest)
    | '[' :: rest =>
      match skipSpace rest with
      | ']' :: rest => .ok (.list [], rest)
      | rest => do
        let (items, rest) ← itemsAt bound rest
        return (.list items, rest)
    | '\x7b' :: rest =>
      match skipSpace rest with
      | '\x7d' :: rest => .ok (.map [], rest)
      | rest => do
        let (entries, rest) ← membersAt bound rest
        return (.map (Table.ofPairs entries), rest)
    | _ => atom cs

/-- The items of a list up to its end. -/
def itemsAt : Nat → List Char → Except Fault (List Datum × List Char)
  | 0, _ => .error .malformed
  | bound + 1, cs => do
    let (d, rest) ← valueAt bound cs
    match skipSpace rest with
    | ']' :: rest => return ([d], rest)
    | ',' :: rest =>
      let (items, rest) ← itemsAt bound (skipSpace rest)
      return (d :: items, rest)
    | _ => throw .malformed

/-- The members of an object up to its end. -/
def membersAt : Nat → List Char → Except Fault (List (String × Datum) × List Char)
  | 0, _ => .error .malformed
  | bound + 1, cs =>
    match cs with
    | '"' :: rest => do
      let (name, rest) ← orMalformed (scan rest)
      match skipSpace rest with
      | ':' :: rest =>
        let (d, rest) ← valueAt bound (skipSpace rest)
        match skipSpace rest with
        | '\x7d' :: rest => return ([(String.ofList name, d)], rest)
        | ',' :: rest =>
          let (entries, rest) ← membersAt bound (skipSpace rest)
          return ((String.ofList name, d) :: entries, rest)
        | _ => throw .malformed
      | _ => throw .malformed
    | _ => .error .malformed

end

/-- The value of a text that holds nothing else. -/
def read (text : String) : Except Fault Datum := do
  let cs := text.toList
  let (d, rest) ← valueAt (cs.length + 1) (skipSpace cs)
  if skipSpace rest = [] then return d else throw .malformed

end Reckoner.Json
