import Reckoner.Constant
import Reckoner.Double.Reading
import Reckoner.Token.Basic

/-!
# Reading tokens

A text is cut into the longest lexemes from left to right, blanks between them aside. A number is
a run of digits with at most one point, an exponent only where a digit follows it, and the unit
`i` behind it only where no name goes on. A name is a run of letters, digits and underscores that
starts with a letter or an underscore.

What is read may be a part of a text. It is looked at where it stands, but nothing may look behind
the end of the part, not even to see whether a lexeme goes on there. Only a part that starts at a
position counted from the end of the text is put in a row first, and scanned there.
-/

namespace Reckoner.Token

open Reckoner.Text

/-- A character of a name behind its first one. -/
def isNameChar (c : Char) : Bool := isAlphanumeric c || c == '_'

/-- The first character of a name. -/
def isNameStart (c : Char) : Bool := isLetter c || c == '_'

/-- The operator that a character stands for; multiplication and division have signs of their
own besides the plain ones. -/
def operatorSign? : Char → Option String
  | '+' => some "+"
  | '-' => some "-"
  | '*' | '×' => some "*"
  | '/' | '÷' => some "/"
  | '^' => some "^"
  | _ => none

/-- The lexeme of a character that is always one by itself. -/
def sign? (c : Char) : Option Lexeme :=
  match operatorSign? c with
  | some sign => some (.operator sign)
  | none =>
    if c = '(' then some .openParen
    else if c = ')' then some .closeParen
    else if c = ',' then some .comma
    else if c = 'π' then some (.constant Constant.pi.name)
    else none

/-! ## Rows of characters -/

/-- The digits and the point in front, and the rest. A second point is an error: the run up to
it. -/
def mantissa : (pointSeen : Bool) → List Char → Except (List Char) (List Char × List Char)
  | _, [] => .ok ([], [])
  | pointSeen, c :: rest =>
    if c = '.' then
      if pointSeen then .error [c]
      else match mantissa true rest with
        | .ok (run, tail) => .ok (c :: run, tail)
        | .error run => .error (c :: run)
    else if isDigit c then
      match mantissa pointSeen rest with
      | .ok (run, tail) => .ok (c :: run, tail)
      | .error run => .error (c :: run)
    else .ok ([], c :: rest)

/-- A sign in front and the rest. -/
def signRun : List Char → List Char × List Char
  | '+' :: rest => (['+'], rest)
  | '-' :: rest => (['-'], rest)
  | rest => ([], rest)

/-- The exponent in front, which has at least one digit, and the rest. -/
def exponent : List Char → List Char × List Char
  | [] => ([], [])
  | c :: rest =>
    if c = 'e' ∨ c = 'E' then
      let (sign, digits) := signRun rest
      if digits.takeWhile isDigit = [] then ([], c :: rest)
      else (c :: (sign ++ digits.takeWhile isDigit), digits.dropWhile isDigit)
    else ([], c :: rest)

/-- Whether a literal is followed by the imaginary unit: an `i` that does not start a name. -/
def imaginaryUnit : List Char → Bool × List Char
  | 'i' :: c :: rest => if isNameChar c then (false, 'i' :: c :: rest) else (true, c :: rest)
  | ['i'] => (true, [])
  | rest => (false, rest)

/-- What stands in front of a text: a lexeme and the number of its characters. -/
abbrev Reading := Except Cause (Lexeme × Nat)

/-- A number in front. The run of characters is spelled by the given function. -/
def number (spell : List Char → List Char) (cs : List Char) : Reading :=
  match mantissa false cs with
  | .error run => .error (.secondPoint (String.ofList (spell run)))
  | .ok (run, rest) =>
    let (power, rest) := exponent rest
    let literal := spell (run ++ power)
    match Double.read? literal with
    | none => .error (.malformedNumber (String.ofList literal) (cs.headD '.'))
    | some value =>
      if (imaginaryUnit rest).1 then .ok (.imaginary value, run.length + power.length + 1)
      else .ok (.number value, run.length + power.length)

/-- The lexeme of a name: a function, a constant or else a variable. -/
def named (name : String) : Lexeme :=
  if (Function.ofName? name).isSome then .function name
  else if Constant.isName name then .constant name
  else .var name

/-- The lexeme in front of a text that starts with the given character. -/
def front (spell : List Char → List Char) (c : Char) (rest : List Char) : Reading :=
  if isDigit c || c == '.' then number spell (c :: rest)
  else match sign? c with
    | some sign => .ok (sign, 1)
    | none =>
      if isNameStart c then
        let run := (c :: rest).takeWhile isNameChar
        .ok (named (String.ofList (spell run)), run.length)
      else .error (.strayCharacter c)

/-- How the runs of a text are spelled, by their position. -/
abbrev Spelling := Int → List Char → List Char

/-- The tokens of the characters from a position on. Every round takes at least one character, so
the number of characters bounds the rounds. -/
def scanWith (spell : Spelling) : Nat → Int → List Char → Except Error (List Token)
  | 0, position, _ => .ok [{ lexeme := .finish, position }]
  | _, position, [] => .ok [{ lexeme := .finish, position }]
  | rounds + 1, position, c :: rest =>
    if isBlank c then scanWith spell rounds (position + 1) rest
    else match front (spell position) c rest with
      | .error cause => .error (.located cause position)
      | .ok (found, length) => do
        let tokens ← scanWith spell rounds (position + length) (rest.drop (length - 1))
        return { lexeme := found, position } :: tokens

/-- The tokens of a run of characters that starts at a position. -/
def scan (position : Int) (cs : List Char) : Except Error (List Token) :=
  scanWith (fun _ run => run) cs.length position cs

/-- An error of reading belongs to the whole text. -/
def inText (text : String) (tokens : Except Error (List Token)) : Except Error (List Token) :=
  tokens.mapError (·.within text)

/-! ## Parts of a text -/

/-- A text that is looked at in front of an end only, though it may go on behind it. -/
structure Window where
  chars : List Char
  stop : Nat

namespace Window

variable (w : Window)

/-- The character at a position, if that is in front of the end. -/
def look? (b : Nat) : Option Char := if b < w.stop then w.chars[b]? else none

/-- Whether there is a character of a class. -/
def sees (p : Char → Bool) (b : Nat) : Bool := (w.look? b).any p

/-- The characters between two positions. -/
def between (start b : Nat) : List Char := (w.chars.take b).drop start

/-- Where a run of characters of a class ends. Every round goes one character on. -/
def runEndFrom (p : Char → Bool) : (rounds : Nat) → Nat → Nat
  | 0, b => b
  | rounds + 1, b => if w.sees p b then runEndFrom p rounds (b + 1) else b

/-- Where a run of characters of a class ends that starts at a position. -/
def runEnd (p : Char → Bool) (b : Nat) : Nat := w.runEndFrom p (w.stop - b) b

/-- Where the digits and the point end. A second point is an error: the position behind it. -/
def mantissaEndFrom : (rounds : Nat) → (pointSeen : Bool) → Nat → Except Nat Nat
  | 0, _, b => .ok b
  | rounds + 1, pointSeen, b =>
    if w.sees (· == '.') b then
      if pointSeen then .error (b + 1) else mantissaEndFrom rounds true (b + 1)
    else if w.sees isDigit b then mantissaEndFrom rounds pointSeen (b + 1)
    else .ok b

/-- Where an exponent ends that has at least one digit; without one, the position itself. -/
def exponentEnd (b : Nat) : Nat :=
  if w.sees (fun c => c == 'e' || c == 'E') b then
    let digits := if w.sees (fun c => c == '+' || c == '-') (b + 1) then b + 2 else b + 1
    if w.sees isDigit digits then w.runEnd isDigit digits else b
  else b

/-- Whether the imaginary unit stands at a position and does not start a name. -/
def seesUnit (b : Nat) : Bool := w.sees (· == 'i') b && !w.sees isNameChar (b + 1)

/-- The number at a position, which starts with the given character, and where it ends. -/
def number (start : Nat) (first : Char) : Reading :=
  match w.mantissaEndFrom (w.stop - start) false start with
  | .error b => .error (.secondPoint (String.ofList (w.between start b)))
  | .ok b =>
    let b := w.exponentEnd b
    match Double.read? (w.between start b) with
    | none => .error (.malformedNumber (String.ofList (w.between start b)) first)
    | some value => if w.seesUnit b then .ok (.imaginary value, b + 1) else .ok (.number value, b)

/-- The lexeme at a position, which starts with the given character, and where it ends. -/
def lexeme (b : Nat) (c : Char) : Reading :=
  if isDigit c || c == '.' then w.number b c
  else match sign? c with
    | some sign => .ok (sign, b + 1)
    | none =>
      if isNameStart c then
        let stop := w.runEnd isNameChar b
        .ok (named (String.ofList (w.between b stop)), stop)
      else .error (.strayCharacter c)

/-- The tokens from a position on. Every round takes at least one character, and the finish stands
at the end. -/
def tokensFrom : (rounds : Nat) → Nat → Except Error (List Token)
  | 0, _ => .ok [{ lexeme := .finish, position := w.stop }]
  | rounds + 1, b =>
    match w.look? b with
    | none => .ok [{ lexeme := .finish, position := w.stop }]
    | some c =>
      if isBlank c then tokensFrom rounds (b + 1)
      else match w.lexeme b c with
        | .error cause => .error (.located cause b)
        | .ok (found, next) => do
          let tokens ← tokensFrom rounds next
          return { lexeme := found, position := b } :: tokens

end Window

/-- The tokens of the part of a text between two positions. -/
def tokenizeSlice (text : String) (start stop : Nat) : Except Error (List Token) :=
  inText text (Window.tokensFrom ⟨text.toList, stop⟩ (stop - start) start)

/-- The tokens of a text. -/
def tokenize (text : String) : Except Error (List Token) := tokenizeSlice text 0 text.length

/-! ## Positions from the end -/

/-- A run that starts before the text and goes on into it is spelled as the slice between its
ends, of which the first counts from the end of the text. Behind the text there may be more. -/
private def wrapped (cs more : List Char) : Spelling := fun position run =>
  if 0 ≤ position || position + run.length < 0 then run
  else ((cs ++ more).take (position + run.length).toNat).drop (cs.length + position).toNat

/-- What reading on beyond the end of a text comes to: the error in front of the end, if there is
one, which is one that a further digit does not change. -/
private def scanBeyond (cs : List Char) (start : Int) (part : List Char) : Error :=
  let scanned (more : List Char) : Except Error (List Token) :=
    scanWith (wrapped cs more) (part ++ more).length start (part ++ more)
  match scanned [], scanned ['0'] with
  | .error e, .error changed => if e.text = changed.text then e else .of .indexOutOfRange
  | _, _ => .of .indexOutOfRange

/-- The tokens between two positions, of which a negative one counts from the end of the text:
reading from there goes on into the text itself. -/
def tokenizeBetween (text : String) (start : Int) (stop : Option Int) :
    Except Error (List Token) :=
  let cs := text.toList
  let stop := stop.getD cs.length
  let before := cs.drop (cs.length + start).toNat
  if stop ≤ start then .ok [{ lexeme := .finish, position := stop }]
  else if start < -cs.length then .error (.of .indexOutOfRange)
  else if cs.length < stop then
    let part := if 0 ≤ start then cs.drop start.toNat else before ++ cs
    inText text (.error (scanBeyond cs start part))
  else if 0 ≤ start then tokenizeSlice text start.toNat stop.toNat
  else
    let part := (before ++ cs).take (stop - start).toNat
    inText text (scanWith (wrapped cs []) part.length start part)

end Reckoner.Token
