import Reckoner.Double.Decimal
import Reckoner.Text.Blank
import Reckoner.Text.Numeral

/-!
# Reading numbers

A number may have blanks around it, which the separating controls are not among, a sign, decimal
digits of any script, single underscores between digits, a point, an exponent, or be one of the
names of infinity and of the value that is not a number. A literal is read to the nearest double.
Whole numbers are exact, and the number of their digits is limited.
-/

namespace Reckoner.Double

open Reckoner.Text

/-- An underscore stands between two digits; the text without underscores, if all do. -/
def dropUnderscores : List Char → Option (List Char)
  | [] => some []
  | '_' :: _ => none
  | c :: '_' :: d :: rest =>
    if (digitValue? c).isSome && (digitValue? d).isSome then
      (dropUnderscores (d :: rest)).map (c :: ·)
    else none
  | c :: rest => (dropUnderscores rest).map (c :: ·)

/-- The longest run of decimal digits in front, as their values, and the rest. -/
def digitRun : List Char → List Nat × List Char
  | [] => ([], [])
  | c :: rest =>
    match digitValue? c with
    | some d => let (run, tail) := digitRun rest; (d :: run, tail)
    | none => ([], c :: rest)

/-- The whole number that digits spell. -/
def ofDigits (digits : List Nat) : Nat := digits.foldl (fun n d => 10 * n + d) 0

/-- A sign in front: whether it is negative, and the rest. -/
def signPart : List Char → Bool × List Char
  | '-' :: rest => (true, rest)
  | '+' :: rest => (false, rest)
  | rest => (false, rest)

/-- The exponent part up to the end of the text. -/
def exponentPart? : List Char → Option Int
  | [] => some 0
  | c :: rest =>
    if c = 'e' ∨ c = 'E' then
      let (negative, rest) := signPart rest
      match digitRun rest with
      | ([], _) => none
      | (digits, []) => some (if negative then -(ofDigits digits : Int) else ofDigits digits)
      | _ => none
    else none

/-- The fraction digits after a point, if there is one. -/
def fractionPart : List Char → List Nat × List Char
  | '.' :: rest => digitRun rest
  | rest => ([], rest)

/-- Digits with an optional point and exponent. -/
def decimal? (s : List Char) : Option Decimal :=
  let (whole, rest) := digitRun s
  let (fraction, rest) := fractionPart rest
  if whole.isEmpty && fraction.isEmpty then none
  else (exponentPart? rest).map fun e => ⟨ofDigits (whole ++ fraction), e - fraction.length⟩

/-- The same text in small letters of the basic alphabet. -/
private def lower (s : List Char) : String := String.ofList (s.map Char.toLower)

/-- The text without the blanks that may stand around a number. -/
def withoutMargins (s : List Char) : List Char := trimAll (fun c => isBlank c && !isSeparator c) s

/-- The double that a text spells. -/
def read? (s : List Char) : Option Float :=
  let (negative, body) := signPart (withoutMargins s)
  if lower body = "inf" ∨ lower body = "infinity" then
    some (if negative then -infinity else infinity)
  else if lower body = "nan" then some nan
  else ((dropUnderscores body).bind decimal?).map (ofDecimal negative)

/-- Why a text spells no whole number. -/
inductive WholeFault where
  | malformed
  /-- It starts with more digits than a whole number may have. -/
  | tooLong (digits : Nat)
  deriving DecidableEq, Repr

/-- The greatest number of digits that a whole number may have, zeros in front included. -/
def mostWholeDigits : Nat := 4300

/-- The whole number that a text spells. -/
def readWhole (s : List Char) : Except WholeFault Int :=
  let (negative, body) := signPart (withoutMargins s)
  let run := body.takeWhile fun c => c == '_' || (digitValue? c).isSome
  match (dropUnderscores run).map digitRun with
  | some (d :: digits, _) =>
    if mostWholeDigits ≤ digits.length then .error (.tooLong (digits.length + 1))
    else if run.length < body.length then .error .malformed
    else
      let n : Int := ofDigits (d :: digits)
      .ok (if negative then -n else n)
  | _ => .error .malformed

end Reckoner.Double
