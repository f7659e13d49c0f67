import Reckoner.Text.Quoted

/-!
# Quoted text in JSON

A text stands between double quotes. The quote, the backslash and the control characters are
escaped, and so is every character outside the basic alphabet, by the four digits of its code
unit or of the two code units of a surrogate pair. `escape` and `scan` are inverse to each other,
surrogates without a partner aside.
-/

namespace Reckoner.Json

/-- The escape of a code unit by its number. -/
def numberedUnit (n : Nat) : List Char := '\\' :: 'u' :: Text.hexDigits 4 n

/-- The code units of a character. -/
def codeUnits (c : Char) : List Nat :=
  let n := c.toNat
  if n < 0x10000 then [n]
  else [0xD800 + (n - 0x10000) / 0x400, 0xDC00 + (n - 0x10000) % 0x400]

/-- The characters that have an escape with a letter of their own. -/
def letterEscapes : List (Char × Char) := [
  ('"', '"'), ('\\', '\\'), ('\x08', 'b'), ('\x0c', 'f'), ('\n', 'n'), ('\r', 'r'), ('\t', 't')]

/-- A character inside a quoted text. -/
def escapeChar (c : Char) : List Char :=
  match letterEscapes.find? (·.1 == c) with
  | some (_, letter) => ['\\', letter]
  | none =>
    if 0x20 ≤ c.toNat && c.toNat < 0x7F then [c] else (codeUnits c).flatMap numberedUnit

/-- A text between quotes. -/
def escape (s : List Char) : List Char := '"' :: (s.flatMap escapeChar ++ ['"'])

/-- The value of a hexadecimal digit. -/
def hexValue? (c : Char) : Option Nat :=
  if '0' ≤ c ∧ c ≤ '9' then some (c.toNat - 48)
  else if 'a' ≤ c ∧ c ≤ 'f' then some (c.toNat - 87)
  else if 'A' ≤ c ∧ c ≤ 'F' then some (c.toNat - 55)
  else none

/-- The number that four hexadecimal digits spell. -/
def unit? (a b c d : Char) : Option Nat := do
  let a ← hexValue? a
  let b ← hexValue? b
  let c ← hexValue? c
  let d ← hexValue? d
  return ((a * 16 + b) * 16 + c) * 16 + d

/-- The character that a letter behind a backslash stands for. -/
def unescape? (letter : Char) : Option Char :=
  if letter = '/' then some '/' else (letterEscapes.find? (·.2 == letter)).map (·.1)

/-- The code units up to the closing quote, and the text behind it. Control characters must be
escaped. -/
def units? : List Char → Option (List Nat × List Char)
  | [] => none
  | '"' :: rest => some ([], rest)
  | '\\' :: 'u' :: a :: b :: c :: d :: rest =>
    match unit? a b c d with
    | none => none
    | some n => (units? rest).map fun (ns, tail) => (n :: ns, tail)
  | '\\' :: letter :: rest =>
    match unescape? letter with
    | none => none
    | some c => (units? rest).map fun (ns, tail) => (c.toNat :: ns, tail)
  | c :: rest =>
    if c = '\\' ∨ c.toNat < 0x20 then none
    else (units? rest).map fun (ns, tail) => (c.toNat :: ns, tail)

/-- The first code unit of a pair. -/
def isHigh (n : Nat) : Bool := 0xD800 ≤ n && n < 0xDC00

/-- The second code unit of a pair. -/
def isLow (n : Nat) : Bool := 0xDC00 ≤ n && n < 0xE000

/-- The character of a number; a code unit without its partner is no character. -/
def charOf (n : Nat) : Char := if isHigh n || isLow n then '\uFFFD' else Char.ofNat n

/-- The characters of code units. -/
def joinUnits : List Nat → List Char
  | [] => []
  | [n] => [charOf n]
  | high :: low :: rest =>
    if isHigh high && isLow low then
      Char.ofNat (0x10000 + (high - 0xD800) * 0x400 + (low - 0xDC00)) :: joinUnits rest
    else charOf high :: joinUnits (low :: rest)

/-- The text up to the closing quote, and what is behind it. -/
def scan (cs : List Char) : Option (List Char × List Char) :=
  (units? cs).map fun (ns, tail) => (joinUnits ns, tail)

end Reckoner.Json
