import Reckoner.Expr.Parser
import Reckoner.Latex.Plain

/-!
# Reading expressions and equations from text

A text may be in plain notation or in LaTeX, which is brought to plain notation first. An equation
is split at the first equals sign outside of all brackets; positions on both sides count from the
start of the whole text.
-/

namespace Reckoner

/-- The tree of a text. -/
def Expr.ofText (text : String) : Except Error Expr := do
  Expr.ofPlain (← Latex.plainOf text)

namespace Equation

/-- The index of the first equals sign before which no bracket is open, from a given depth and
index on. A closing bracket without an opening one counts as well. -/
def equalsSignFrom : Int → Nat → List Char → Option Nat
  | _, _, [] => none
  | depth, index, c :: rest =>
    if c = '(' ∨ c = '{' ∨ c = '[' then equalsSignFrom (depth + 1) (index + 1) rest
    else if c = ')' ∨ c = '}' ∨ c = ']' then equalsSignFrom (depth - 1) (index + 1) rest
    else if c = '=' ∧ depth ≤ 0 then some index
    else equalsSignFrom depth (index + 1) rest

/-- The index of the equals sign between the sides. -/
def equalsSign? (text : String) : Option Nat := equalsSignFrom 0 0 text.toList

/-- The equation in a text in plain notation. -/
def ofPlain (text : String) : Except Error Equation :=
  match equalsSign? text with
  | none => .error (.located .notAnEquation 0 (some text))
  | some split =>
    let cs := text.toList
    if (cs.take split).all Text.isBlank || (cs.drop (split + 1)).all Text.isBlank then
      .error (.located .emptySide split (some text))
    else do
      let lhs ← Expr.ofTokensOf text (← Token.tokenizeSlice text 0 split)
      let rhs ← Expr.ofTokensOf text (← Token.tokenizeSlice text (split + 1) cs.length)
      return ⟨lhs, rhs, text⟩

/-- The equation in a text. -/
def ofText (text : String) : Except Error Equation := do ofPlain (← Latex.plainOf text)

end Equation

end Reckoner
