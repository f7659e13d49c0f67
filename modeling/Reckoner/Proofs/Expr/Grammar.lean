import Reckoner.Expr.Parser
import Mathlib.Tactic.Common

/-!
# The grammar of expressions

Which lexemes form an expression, and which tree it is. A sum is a row of products and a product
a row of operands, grouped from the left; a sign may stand in front of an operand, and an
exponent is an operand with its signs. The grammar speaks of lexemes alone: positions, binding
powers and open frames belong to reading.
-/

namespace Reckoner.Expr

/-- A part of an expression by its place in the grammar, with the tree that it stands for. -/
inductive Phrase where
  | sum (e : Expr)
  | product (e : Expr)
  | signed (e : Expr)
  | power (e : Expr)
  | atom (e : Expr)
  /-- One argument or several. -/
  | arguments (es : List Expr)

/-- The signs of sums. -/
def IsAdditive (op : String) : Prop := op = "+" ∨ op = "-"

/-- The signs of products. -/
def IsMultiplicative (op : String) : Prop := op = "*" ∨ op = "/"

theorem isSpaced_or_eq_power {op : String} (h : op ∈ ["+", "-", "*", "/", "^"]) :
    (IsAdditive op ∨ IsMultiplicative op) ∨ op = "^" := by
  simpa [IsAdditive, IsMultiplicative, or_assoc] using h

/-- A lexeme that may stand in front of arguments, and its name. -/
inductive Names : Lexeme → String → Prop
  | var (name : String) : Names (.var name) name
  | function (name : String) : Names (.function name) name

/-- The grammar of expressions: the lexemes form the phrase. -/
inductive Derives : List Lexeme → Phrase → Prop
  | product {ls e} : Derives ls (.product e) → Derives ls (.sum e)
  | add {ls rs op a b} : Derives ls (.sum a) → IsAdditive op → Derives rs (.product b) →
      Derives (ls ++ .operator op :: rs) (.sum (.binary op a b))
  | signed {ls e} : Derives ls (.signed e) → Derives ls (.product e)
  | multiply {ls rs op a b} : Derives ls (.product a) → IsMultiplicative op →
      Derives rs (.signed b) → Derives (ls ++ .operator op :: rs) (.product (.binary op a b))
  | power {ls e} : Derives ls (.power e) → Derives ls (.signed e)
  | minus {ls e} : Derives ls (.signed e) → Derives (.operator "-" :: ls) (.signed (.negate e))
  | plus {ls e} : Derives ls (.signed e) → Derives (.operator "+" :: ls) (.signed e)
  | atom {ls e} : Derives ls (.atom e) → Derives ls (.power e)
  | raise {ls rs a b} : Derives ls (.atom a) → Derives rs (.signed b) →
      Derives (ls ++ .operator "^" :: rs) (.power (.binary "^" a b))
  | number (x) : Derives [.number x] (.atom (.number x))
  | imaginary (x) : Derives [.imaginary x] (.atom (.imaginary x))
  | constant (name) : Derives [.constant name] (.atom (.constant name))
  | var (name) : Derives [.var name] (.atom (.var name))
  | emptyCall {l name} : Names l name →
      Derives [l, .openParen, .closeParen] (.atom (.call name []))
  | call {l name ls es} : Names l name → Derives ls (.arguments es) →
      Derives (l :: .openParen :: (ls ++ [.closeParen])) (.atom (.call name es))
  | group {ls e} : Derives ls (.sum e) → Derives (.openParen :: (ls ++ [.closeParen])) (.atom e)
  | argument {ls e} : Derives ls (.sum e) → Derives ls (.arguments [e])
  | nextArgument {ls rs es e} : Derives ls (.arguments es) → Derives rs (.sum e) →
      Derives (ls ++ .comma :: rs) (.arguments (es ++ [e]))

/-- No phrase starts with a closing parenthesis. -/
theorem Derives.head_ne_closeParen {ls : List Lexeme} {ph : Phrase} (h : Derives ls ph) :
    ∃ l rest, ls = l :: rest ∧ l ≠ .closeParen := by
  induction h with
  | product _ ih | signed _ ih | power _ ih | atom _ ih | argument _ ih => exact ih
  | add _ _ _ ih _ | multiply _ _ _ ih _ | raise _ _ ih _ | nextArgument _ _ ih _ =>
      obtain ⟨l, rest, rfl, hl⟩ := ih
      exact ⟨l, _, rfl, hl⟩
  | emptyCall hname | call hname =>
      exact ⟨_, _, rfl, by cases hname <;> simp⟩
  | minus | plus | number | imaginary | constant | var | group =>
      exact ⟨_, _, rfl, by simp⟩

theorem Derives.finish_not_mem {ls : List Lexeme} {phrase : Phrase} (h : Derives ls phrase) :
    Lexeme.finish ∉ ls := by
  induction h with
  | emptyCall hname => cases hname <;> simp
  | call hname _ ih => cases hname <;> simp [ih]
  | _ => simp_all

end Reckoner.Expr
