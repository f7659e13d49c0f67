import Reckoner.Latex.Command
import Reckoner.Latex.Group

/-!
# LaTeX in plain notation

A formula is written anew piece by piece. Groups are written on their own and put between
parentheses; two operands next to each other are multiplied where one of them comes from a command
or a group. Positions in errors count from the start of the whole text.
-/

namespace Reckoner.Latex

open Reckoner.Text

/-- What has been written, and what the last piece means for the next one. -/
structure Output where
  /-- The pieces, the last one first. -/
  pieces : List (List Char) := []
  /-- The last piece ends an operand. -/
  operandEnd : Bool := false
  /-- That operand came from a command or a group. -/
  commandEnd : Bool := false
  /-- The last piece is a function that waits for its parenthesis. -/
  afterFunction : Bool := false

namespace Output

/-- All pieces in order. -/
def text (out : Output) : List Char := out.pieces.reverse.flatten

/-- A piece that changes nothing for the next one. -/
def append (out : Output) (piece : List Char) : Output :=
  { out with pieces := piece :: out.pieces }

/-- A multiplication sign in place of the blanks at the end. -/
def multiply (out : Output) : Output :=
  { out with pieces := ['*'] :: out.pieces.dropWhile allBlank }

/-- An operand, multiplied with the operand before it if one of them comes from a command. -/
def operand (out : Output) (piece : List Char) (fromCommand : Bool := true) : Output :=
  let out :=
    if out.operandEnd && !out.afterFunction && (fromCommand || out.commandEnd) then out.multiply
    else out
  { pieces := piece :: out.pieces
    operandEnd := true
    commandEnd := fromCommand
    afterFunction := false }

/-- The end of an operand in parentheses. -/
def closing (out : Output) (piece : List Char) : Output :=
  { pieces := piece :: out.pieces, operandEnd := true, commandEnd := true }

/-- An operator. -/
def operator (out : Output) (piece : List Char) : Output := { pieces := piece :: out.pieces }

/-- An operand that has only begun, such as an opening parenthesis. -/
def opening (out : Output) (piece : List Char) (fromCommand : Bool := true) : Output :=
  if out.afterFunction then out.operator piece
  else { out.operand piece fromCommand with operandEnd := false }

/-- A function waits for the parenthesis of its argument. -/
def awaiting (out : Output) : Output := { out with afterFunction := true }

end Output

/-- A text between parentheses. -/
def inParens (cs : List Char) : List Char := '(' :: (cs ++ [')'])

/-- A character of a bare name or number. -/
def isPlain (c : Char) : Bool := isAlphanumeric c || c == '.'

/-- Where reading goes on: the position and the text from there. -/
structure Cursor where
  position : Nat
  rest : List Char

namespace Cursor

/-- The cursor behind the first characters. -/
def skip (c : Cursor) (count : Nat) : Cursor := ⟨c.position + count, c.rest.drop count⟩

/-- The cursor behind blanks. -/
def skipBlanks (c : Cursor) : Cursor :=
  ⟨c.position + (c.rest.takeWhile isBlank).length, c.rest.dropWhile isBlank⟩

end Cursor

/-- Reads a group: its content in plain notation, and the cursor behind it. -/
abbrev GroupReader := Char → Char → Cursor → Except Error (List Char × Cursor)

/-- Writes a function and, if it is a group or a bare name, the argument that follows. -/
def writeFunction (group : GroupReader) (name : List Char) (cursor : Cursor)
    (out : Output) : Except Error (Output × Cursor) := do
  let out := out.operand name
  let next := cursor.skipBlanks
  match next.rest with
  | '{' :: _ => do
    let (argument, cursor) ← group '{' '}' next
    return (out.append (inParens argument), cursor)
  | '\\' :: rest =>
    let (command, tail) := commandName rest
    if "left".toList.isPrefixOf rest then return (out.awaiting, cursor)
    else match bareArgument? (String.ofList command) with
      | some argument =>
        return (out.append (inParens argument.toList),
          ⟨next.position + 1 + command.length, tail⟩)
      | none => return (out.awaiting, cursor)
  | c :: _ =>
    if isAlphanumeric c then
      let argument := next.rest.takeWhile isPlain
      return (out.append (inParens argument), next.skip argument.length)
    else return (out.awaiting, cursor)
  | [] => return (out.awaiting, cursor)

/-- Writes a command, given the cursor at its backslash. -/
def writeCommand (group : GroupReader) (start : Cursor) (out : Output) :
    Except Error (Output × Cursor) := do
  let (name, tail) := commandName (start.rest.drop 1)
  let cursor : Cursor := ⟨start.position + 1 + name.length, tail⟩
  match Command.ofName (String.ofList name) with
  | .spacing => return (out, cursor)
  | .fraction => do
    let (numerator, cursor) ← group '{' '}' cursor
    let (denominator, cursor) ← group '{' '}' cursor
    return (out.operand (inParens numerator ++ '/' :: inParens denominator), cursor)
  | .root =>
    if (cursor.skipBlanks.rest.head?) = some '[' then do
      let (index, cursor) ← group '[' ']' cursor
      let (radicand, cursor) ← group '{' '}' cursor
      let exponent := inParens ('1' :: '/' :: inParens index)
      return (out.operand (inParens radicand ++ '^' :: exponent), cursor)
    else do
      let (radicand, cursor) ← group '{' '}' cursor
      return (out.operand (Function.sqrt.name.toList ++ inParens radicand), cursor)
  | .delimiter left =>
    let next := cursor.skipBlanks
    match delimiter? left next.rest with
    | none => .error (.located (.unknownDelimiter (String.ofList name)) start.position)
    | some (piece, tail) =>
      let cursor : Cursor := ⟨next.position + (next.rest.length - tail.length), tail⟩
      if piece = "" then return (out, cursor)
      else if left then return (out.opening piece.toList, cursor)
      else return (out.closing piece.toList, cursor)
  | .operator sign => return (out.operator [sign], cursor)
  | .openBrace => return ({ out.operand ['('] with operandEnd := false }, cursor)
  | .closeBrace => return (out.closing [')'], cursor)
  | .namedFunction => do
    let (name, cursor) ← group '{' '}' cursor
    writeFunction group (squeeze name) cursor out
  | .text => do
    let (piece, cursor) ← group '{' '}' cursor
    return (out.operand piece, cursor)
  | .function name => writeFunction group name.toList cursor out
  | .operand name => return (out.operand name.toList, cursor)

/-- Writes the piece at the cursor, which is not at the end. -/
def writePiece (group : GroupReader) (c : Char) (cursor : Cursor) (out : Output) :
    Except Error (Output × Cursor) := do
  let next := cursor.skip 1
  if c = '\\' then writeCommand group cursor out
  else if c = '{' then do
    let (content, cursor) ← group '{' '}' cursor
    return (out.operand (inParens content), cursor)
  else if c = '}' then .error (.located .unbalancedBraces cursor.position)
  else if c = '^' then
    if next.skipBlanks.rest.head? = some '{' then do
      let (exponent, cursor) ← group '{' '}' next
      return (out.closing ('^' :: inParens exponent), cursor)
    else return (out.operator ['^'], next)
  else if c = '_' then
    if next.rest.head? = some '{' then do
      let (index, cursor) ← group '{' '}' next
      return (out.append ('_' :: squeeze index), cursor)
    else return (out.append ['_'], next)
  else if isBlank c then return (out.append [c], next)
  else if isPlain c then
    let run := cursor.rest.takeWhile isPlain
    return (out.operand run false, cursor.skip run.length)
  else if c = '(' ∨ c = '[' then return (out.opening ['('] false, next)
  else if c = ')' ∨ c = ']' then return (out.closing [')'], next)
  else return (out.operator [c], next)

/-- Writes a text from a position on. Every round reads a character or goes into a group that is
shorter than the text, so the length of the text bounds the rounds. -/
def writeFrom : Nat → Cursor → Output → Except Error Output
  | 0, _, out => .ok out
  | rounds + 1, cursor, out =>
    match cursor.rest with
    | [] => .ok out
    | c :: _ => do
      let group : GroupReader := fun opening closing cursor => do
        let g ← Group.read opening closing cursor.position cursor.rest
        let inner ← writeFrom rounds ⟨g.start, g.content⟩ {}
        return (inner.text, ⟨g.stop, g.rest⟩)
      let (out, cursor) ← writePiece group c cursor out
      writeFrom rounds cursor out

/-- A formula in plain notation. -/
def toPlain (text : String) : Except Error String := do
  let out ← writeFrom text.length ⟨0, text.toList⟩ {}
  return String.ofList out.text

/-- Braces and backslashes never stand in plain notation. -/
def isMarkup (text : String) : Bool := text.toList.any fun c => c == '\\' || c == '{'

/-- A text in plain notation, which LaTeX is brought to. -/
def plainOf (text : String) : Except Error String :=
  if isMarkup text then toPlain text else .ok text

end Reckoner.Latex
