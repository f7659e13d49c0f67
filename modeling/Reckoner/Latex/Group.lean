import Reckoner.Error
import Reckoner.Text.Blank

/-!
# Groups in LaTeX

A group runs from an opening delimiter to the closing one that balances it. A backslash takes the
character behind it out of the count.
-/

namespace Reckoner.Latex

open Reckoner.Text

/-- The text up to the closing delimiter that balances an open one, and the text behind it. The
number counts the further delimiters that are open. -/
def balanced (opening closing : Char) : Nat → List Char → Option (List Char × List Char)
  | _, [] => none
  | _, ['\\'] => none
  | depth, '\\' :: c :: rest =>
    (balanced opening closing depth rest).map fun (content, tail) => ('\\' :: c :: content, tail)
  | depth, c :: rest =>
    if c = opening then
      (balanced opening closing (depth + 1) rest).map fun (content, tail) => (c :: content, tail)
    else if c = closing then
      match depth with
      | 0 => some ([], rest)
      | depth + 1 =>
        (balanced opening closing depth rest).map fun (content, tail) => (c :: content, tail)
    else (balanced opening closing depth rest).map fun (content, tail) => (c :: content, tail)

/-- A group that was found: where its content starts, the content, where the group ends, and the
text behind it. -/
structure Group where
  start : Nat
  content : List Char
  stop : Nat
  rest : List Char

/-- The group in front of a text that stands at a position; blanks before it are skipped. -/
def Group.read (opening closing : Char) (position : Nat) (cs : List Char) : Except Error Group :=
  let here := position + (cs.takeWhile isBlank).length
  match cs.dropWhile isBlank with
  | [] => .error (.located (.expectedDelimiter opening.toString) here)
  | c :: rest =>
    if c ≠ opening then .error (.located (.expectedDelimiter opening.toString) here)
    else match balanced opening closing 0 rest with
      | none => .error (.located .unbalancedBraces here)
      | some (content, tail) => .ok ⟨here + 1, content, here + content.length + 2, tail⟩

/-- The same for delimiters that are texts. Only a text of one character can open a group, and only
such a text can close it; what opens groups itself never closes one. -/
def Group.readBetween (opening closing : String) (position : Nat) (cs : List Char) :
    Except Error Group :=
  match opening.toList, closing.toList with
  | [first], [last] => Group.read first last position cs
  | [first], _ => Group.read first first position cs
  | _, _ => .error (.located (.expectedDelimiter opening)
      ((position + (cs.takeWhile isBlank).length : Nat) : Int))

/-- The content of the group that starts at a position of a text, and the position behind it. A
negative position counts from the end of the text, and reading goes on from there into the text
itself; the content is then the slice between its ends. -/
def groupAt (opening closing text : String) (position : Int) : Except Error (String × Int) :=
  let cs := text.toList
  if 0 ≤ position then do
    let group ← Group.readBetween opening closing position.toNat (cs.drop position.toNat)
    return (String.ofList group.content, group.stop)
  else if position < -cs.length then .error (.of .indexOutOfRange)
  else do
    let found := Group.readBetween opening closing 0 (cs.drop (cs.length + position).toNat ++ cs)
    let group ← found.mapError fun e => { e with position := e.position.map (· + position) }
    let start := position + group.start
    let stop := position + group.stop
    let content :=
      if 0 ≤ start || stop ≤ 0 then group.content
      else (cs.take (stop - 1).toNat).drop (cs.length + start).toNat
    return (String.ofList content, stop)

end Reckoner.Latex
