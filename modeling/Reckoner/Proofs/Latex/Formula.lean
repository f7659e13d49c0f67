import Reckoner.Latex.Plain
import Reckoner.Proofs.Latex.Group
import Reckoner.Proofs.Token.Text

/-!
# The grammar of braced formulas

Formulas in which every fraction, every root with an index and every exponent has braces of its
own, and the trees that they stand for. Operands next to each other are multiplied; of two plain
ones next to each other only one could be told, so that is no formula. A command of letters must
not run into a letter that follows it.
-/

namespace Reckoner.Latex

open Reckoner.Text Reckoner.Token

/-! ## Commands in front of letters -/

/-- The text ends with a command of letters. -/
def EndsInCommand (cs : List Char) : Prop :=
  ∃ before name, cs = before ++ '\\' :: name ∧ name ≠ [] ∧ ∀ c ∈ name, isLetter c = true

/-- No command at the end of the first text runs into the second one. -/
def Apart (cs rest : List Char) : Prop :=
  EndsInCommand cs → ∀ c ∈ rest.head?, isLetter c = false

/-! ## Parts of formulas -/

/-- A text between braces. -/
def braced (cs : List Char) : List Char := '{' :: (cs ++ ['}'])

/-- The commands for space. -/
def spacings : List String := [",", ";", ":", "!", " ", "quad", "qquad"]

/-- Blanks and commands for space. -/
inductive IsSpace : List Char → Prop
  | none : IsSpace []
  | blank {c rest} (h : isBlank c = true) : IsSpace rest → IsSpace (c :: rest)
  | command {name rest} (h : name ∈ spacings) : IsSpace rest →
      IsSpace ('\\' :: (name.toList ++ rest))

/-- The signs for multiplication and division. -/
inductive IsProductSign : List Char → Char → Prop
  | star : IsProductSign ['*'] '*'
  | slash : IsProductSign ['/'] '/'
  | cdot : IsProductSign ('\\' :: "cdot".toList) '*'
  | cross : IsProductSign ('\\' :: "times".toList) '*'
  | div : IsProductSign ('\\' :: "div".toList) '/'

/-- The tree of a lexeme that is an operand by itself. -/
def operandOf? : Lexeme → Option Expr
  | .number x => some (.number x)
  | .imaginary x => some (.imaginary x)
  | .constant name => some (.constant name)
  | .var name => some (.var name)
  | _ => none

/-- Letters, digits and points that are read as a single operand. -/
structure IsAtom (cs : List Char) (e : Expr) : Prop where
  plain : ∀ c ∈ cs, isPlain c = true
  operand : (lexemeOf? (String.ofList cs)).bind operandOf? = some e

/-- A function and the command for it, which may have a name of its own. The square root is one of
them. -/
def IsFunctionCommand (name f : String) : Prop :=
  (∀ c ∈ name.toList, isLetter c = true) ∧
    ((name, f) ∈ aliases ∨ name = f ∧ (Function.ofName? name).isSome = true)

/-! ## Formulas -/

/-- A place in a formula. An operand may be plain and, if nothing stands behind it, bare. -/
inductive Shape where
  /-- An operand without an exponent. -/
  | base (plain : Bool)
  /-- An operand, perhaps with an exponent. -/
  | factor (plain bare : Bool)
  /-- An operand with minus signs in front. -/
  | signed (bare : Bool)
  /-- A product. -/
  | term (bare : Bool)
  /-- A sum. -/
  | formula

/-- The text is a formula, or a part of one, that stands for the tree. -/
inductive Formula : Shape → List Char → Expr → Prop
  | atom {cs e} (h : IsAtom cs e) : Formula (.base true) cs e
  | greek {name e} (h : name ∈ greekLetters) (he : operandOf? (named name) = some e) :
      Formula (.base false) ('\\' :: name.toList) e
  | group {cs e} : Formula .formula cs e → Formula (.base false) (braced cs) e
  | fraction {name above below a b} (h : name ∈ ["frac", "dfrac", "tfrac"]) :
      Formula .formula above a → Formula .formula below b →
      Formula (.base false) (braced ('\\' :: (name.toList ++ (braced above ++ braced below))))
        (.binary "/" a b)
  | root {index cs n e} : Formula .formula index n → Formula .formula cs e →
      Formula (.base false)
        (braced ('\\' :: ("sqrt".toList ++ ('[' :: (index ++ [']']) ++ braced cs))))
        (.binary "^" e (.binary "/" (.number 1.0) n))
  | function {name f cs e} (h : IsFunctionCommand name f) : Formula .formula cs e →
      Formula (.base false) ('\\' :: (name.toList ++ braced cs)) (.call f [e])
  | delimited {opening closing cs e} (h : (opening, closing) ∈ [('(', ')'), ('[', ']')]) :
      Formula .formula cs e →
      Formula (.base false)
        ('\\' :: ("left".toList ++ opening :: (cs ++ '\\' :: ("right".toList ++ [closing])))) e
  | absolute {cs e} : Formula .formula cs e →
      Formula (.base false)
        ('\\' :: ("left".toList ++ '|' :: (cs ++ '\\' :: ("right".toList ++ ['|']))))
        (.call "abs" [e])
  | plain {plain cs e} : Formula (.base plain) cs e → Formula (.factor plain plain) cs e
  | raised {plain cs exponent a b} : Formula (.base plain) cs a → Formula .formula exponent b →
      Formula (.factor plain false) (cs ++ '^' :: braced exponent) (.binary "^" a b)
  | unsigned {plain bare cs e} : Formula (.factor plain bare) cs e → Formula (.signed bare) cs e
  | minus {space bare cs e} : IsSpace space → Formula (.signed bare) cs e → Apart space cs →
      Formula (.signed bare) ('-' :: (space ++ cs)) (.negate e)
  | single {bare cs e} : Formula (.signed bare) cs e → Formula (.term bare) cs e
  | juxtapose {xs ys space x y bare plain bare'} : Formula (.term bare) xs x → IsSpace space →
      Formula (.factor plain bare') ys y → (bare && plain) = false → Apart (xs ++ space) ys →
      Formula (.term bare') (xs ++ (space ++ ys)) (.binary "*" x y)
  | multiply {xs ys space sign space' op x y bare bare'} : Formula (.term bare) xs x →
      IsSpace space → IsProductSign sign op → IsSpace space' → Formula (.signed bare') ys y →
      Apart (sign ++ space') ys →
      Formula (.term bare') (xs ++ (space ++ (sign ++ (space' ++ ys))))
        (.binary (String.singleton op) x y)
  | sum {bare cs e} : Formula (.term bare) cs e → Formula .formula cs e
  | add {xs ys space space' op x y bare} : Formula .formula xs x → IsSpace space →
      op ∈ ['+', '-'] → IsSpace space' → Formula (.term bare) ys y → Apart space' ys →
      Formula .formula (xs ++ (space ++ op :: (space' ++ ys))) (.binary (String.singleton op) x y)

/-! ## Delimiters -/

/-- The text leaves the count of braces as it is, and that of brackets. -/
def IsNeutral (cs : List Char) : Prop := Neutral '{' '}' cs ∧ Neutral '[' ']' cs

namespace IsNeutral

theorem append {xs ys : List Char} (hx : IsNeutral xs) (hy : IsNeutral ys) :
    IsNeutral (xs ++ ys) := ⟨hx.1.append hy.1, hx.2.append hy.2⟩

theorem char {c : Char} (h : c ∉ ['\\', '{', '}', '[', ']']) : IsNeutral [c] := by
  simp only [List.mem_cons, List.not_mem_nil, or_false, not_or] at h
  exact ⟨neutral_char h.1 h.2.1 h.2.2.1, neutral_char h.1 h.2.2.2.1 h.2.2.2.2⟩

/-- A character that is no delimiter in front of a text. -/
theorem cons {c : Char} {cs : List Char} (hc : c ∉ ['\\', '{', '}', '[', ']'])
    (h : IsNeutral cs) : IsNeutral (c :: cs) :=
  (char hc).append h

theorem nil : IsNeutral [] := ⟨neutral_nil, neutral_nil⟩

theorem chars {cs : List Char} (h : ∀ c ∈ cs, c ∉ ['\\', '{', '}', '[', ']']) : IsNeutral cs := by
  induction cs with
  | nil => exact nil
  | cons c cs ih =>
      rw [List.forall_mem_cons] at h
      exact cons h.1 (ih h.2)

/-- A backslash takes whatever is behind it out of the count. -/
theorem command {c : Char} {cs : List Char} (h : IsNeutral cs) : IsNeutral ('\\' :: c :: cs) :=
  ⟨(neutral_escape c).append h.1, (neutral_escape c).append h.2⟩

theorem brackets {cs : List Char} (h : IsNeutral cs) : IsNeutral ('[' :: (cs ++ [']'])) := by
  refine ⟨?_, h.2.enclose (by decide) (by decide) (by decide)⟩
  have hopen : Neutral '{' '}' ['['] := neutral_char (by decide) (by decide) (by decide)
  have hclose : Neutral '{' '}' [']'] := neutral_char (by decide) (by decide) (by decide)
  exact hopen.append (h.1.append hclose)

theorem braces {cs : List Char} (h : IsNeutral cs) : IsNeutral (braced cs) := by
  refine ⟨h.1.enclose (by decide) (by decide) (by decide), ?_⟩
  have hopen : Neutral '[' ']' ['{'] := neutral_char (by decide) (by decide) (by decide)
  have hclose : Neutral '[' ']' ['}'] := neutral_char (by decide) (by decide) (by decide)
  exact hopen.append (h.2.append hclose)

end IsNeutral

theorem IsNeutral.balanced {cs : List Char} (h : IsNeutral cs) : Balanced '{' '}' cs :=
  h.1.balanced (by decide) (by decide)

theorem IsNeutral.balanced_brackets {cs : List Char} (h : IsNeutral cs) : Balanced '[' ']' cs :=
  h.2.balanced (by decide) (by decide)

theorem isNeutral_of_plain {cs : List Char} (h : cs.all isPlain = true) : IsNeutral cs := by
  rw [List.all_eq_true] at h
  refine .chars fun c hc hmem => ?_
  have hnone : ['\\', '{', '}', '[', ']'].all (fun d => !isPlain d) = true := by decide
  simpa [h c hc] using List.all_eq_true.mp hnone c hmem

theorem isPlain_of_isLetter {c : Char} (h : isLetter c = true) : isPlain c = true := by
  rw [isPlain, isAlphanumeric, h]
  rfl

theorem isNeutral_command {name cs : List Char} (hne : name ≠ [])
    (hname : name.tail.all isPlain = true) (h : IsNeutral cs) :
    IsNeutral ('\\' :: (name ++ cs)) := by
  obtain ⟨c, name, rfl⟩ := List.exists_cons_of_ne_nil hne
  exact .command ((isNeutral_of_plain hname).append h)

theorem IsSpace.isNeutral {cs : List Char} (h : IsSpace cs) : IsNeutral cs := by
  induction h with
  | none => exact .nil
  | @blank c rest hblank _ ih =>
      refine .cons (fun hmem => ?_) ih
      have hnone : ['\\', '{', '}', '[', ']'].all (fun d => !isBlank d) = true := by decide
      simpa [hblank] using List.all_eq_true.mp hnone c hmem
  | @command name rest hname _ ih =>
      have hchars : ∀ name ∈ spacings, name.toList ≠ [] ∧ name.toList.tail.all isPlain = true := by
        decide
      exact isNeutral_command (hchars name hname).1 (hchars name hname).2 ih

theorem IsProductSign.isNeutral {cs : List Char} {op : Char} (h : IsProductSign cs op) :
    IsNeutral cs := by
  cases h with
  | star | slash => exact .char (by decide)
  | cdot | cross | div => exact .command (isNeutral_of_plain (by decide))

theorem IsFunctionCommand.name_ne {name f : String} (h : IsFunctionCommand name f) :
    name.toList ≠ [] := by
  intro hnone
  have hempty : name = "" := String.toList_eq_nil_iff.mp hnone
  subst hempty
  rcases h.2 with h | ⟨-, h⟩
  · simp [aliases] at h
  · exact absurd h (by decide)

theorem isNeutral_fraction {name : String} {xs ys : List Char}
    (h : name ∈ ["frac", "dfrac", "tfrac"]) (hx : IsNeutral xs) (hy : IsNeutral ys) :
    IsNeutral ('\\' :: (name.toList ++ (braced xs ++ braced ys))) := by
  have hchars : ∀ name ∈ ["frac", "dfrac", "tfrac"], name.toList ≠ [] ∧
      name.toList.tail.all isPlain = true := by decide
  exact isNeutral_command (hchars name h).1 (hchars name h).2 (hx.braces.append hy.braces)

theorem isNeutral_root {xs ys : List Char} (hx : IsNeutral xs) (hy : IsNeutral ys) :
    IsNeutral ('\\' :: ("sqrt".toList ++ ('[' :: (xs ++ [']']) ++ braced ys))) :=
  isNeutral_command (by decide) (by decide) (hx.brackets.append hy.braces)

theorem Formula.isNeutral {shape : Shape} {cs : List Char} {e : Expr} (h : Formula shape cs e) :
    IsNeutral cs := by
  induction h with
  | atom h => exact isNeutral_of_plain (List.all_eq_true.mpr h.plain)
  | @greek name _ h _ =>
      have hchars : ∀ name ∈ greekLetters, name.toList ≠ [] ∧
          name.toList.tail.all isPlain = true := by decide
      have hneutral := isNeutral_command (hchars name h).1 (hchars name h).2 .nil
      rwa [List.append_nil] at hneutral
  | group _ ih => exact ih.braces
  | fraction h _ _ iha ihb => exact (isNeutral_fraction h iha ihb).braces
  | root _ _ ihn ih => exact (isNeutral_root ihn ih).braces
  | function h _ ih =>
      have htail : ∀ c ∈ _, isPlain c = true :=
        fun c hc => isPlain_of_isLetter (h.1 c (List.mem_of_mem_tail hc))
      exact isNeutral_command h.name_ne (List.all_eq_true.mpr htail) ih.braces
  | @delimited opening closing cs _ h _ ih =>
      refine isNeutral_command (by decide) (by decide) ?_
      have hright : IsNeutral (cs ++ '\\' :: "right".toList) :=
        ih.append (.command (isNeutral_of_plain (by decide)))
      have htext : opening :: (cs ++ '\\' :: ("right".toList ++ [closing])) =
          [opening] ++ ((cs ++ '\\' :: "right".toList) ++ [closing]) := by simp
      rw [htext]
      simp only [List.mem_cons, List.not_mem_nil, or_false, Prod.mk.injEq] at h
      rcases h with ⟨rfl, rfl⟩ | ⟨rfl, rfl⟩
      · exact .append (.char (by decide)) (hright.append (.char (by decide)))
      · exact hright.brackets
  | @absolute cs _ _ ih =>
      refine isNeutral_command (by decide) (by decide) ?_
      have hright : IsNeutral ('\\' :: ("right".toList ++ ['|'])) :=
        isNeutral_command (by decide) (by decide) (.char (by decide))
      exact .cons (by decide) (ih.append hright)
  | plain _ ih | unsigned _ ih | single _ ih | sum _ ih => exact ih
  | raised _ _ ihx ihe => exact ihx.append (.cons (by decide) ihe.braces)
  | minus hspace _ _ ih => exact .cons (by decide) (hspace.isNeutral.append ih)
  | juxtapose _ hspace _ _ _ ihx ihy => exact ihx.append (hspace.isNeutral.append ihy)
  | multiply _ hspace hsign hspace' _ _ ihx ihy =>
      exact ihx.append (hspace.isNeutral.append (hsign.isNeutral.append
        (hspace'.isNeutral.append ihy)))
  | @add _ _ _ _ op _ _ _ _ hspace hop hspace' _ _ ihx ihy =>
      have hsign : IsNeutral [op] := by
        rcases List.mem_cons.mp hop with rfl | hop
        · exact .char (by decide)
        · exact List.mem_singleton.mp hop ▸ .char (by decide)
      exact ihx.append (hspace.isNeutral.append (hsign.append (hspace'.isNeutral.append ihy)))

/-! ## First characters -/

/-- An operand that is plain, or may start with one. -/
def Shape.plain : Shape → Bool
  | .base plain | .factor plain _ => plain
  | .signed _ | .term _ | .formula => true

theorem IsAtom.ne_nil {cs : List Char} {e : Expr} (h : IsAtom cs e) : cs ≠ [] := by
  rintro rfl
  obtain ⟨l, hl, -⟩ := Option.bind_eq_some_iff.mp h.operand
  obtain ⟨before, run, after, htext, hrun, -⟩ := (Cut.of_lexemeOf? hl).single
  simp [hrun.ne_nil] at htext

/-- An operand that is not plain starts with a backslash or a brace. -/
theorem Formula.head {shape : Shape} {cs : List Char} {e : Expr} (h : Formula shape cs e) :
    ∃ c tail, cs = c :: tail ∧ (shape.plain = false → isPlain c = false) := by
  have hmarkup : isPlain '\\' = false ∧ isPlain '{' = false := by decide
  induction h with
  | atom h =>
      obtain ⟨c, tail, rfl⟩ := List.exists_cons_of_ne_nil h.ne_nil
      exact ⟨c, tail, rfl, fun hplain => by cases hplain⟩
  | greek | function | delimited | absolute => exact ⟨'\\', _, rfl, fun _ => hmarkup.1⟩
  | group | fraction | root => exact ⟨'{', _, rfl, fun _ => hmarkup.2⟩
  | plain _ ih => exact ih
  | raised _ _ ih _ =>
      obtain ⟨c, tail, rfl, hc⟩ := ih
      exact ⟨c, _, rfl, hc⟩
  | minus => exact ⟨'-', _, rfl, fun hplain => by cases hplain⟩
  | unsigned _ ih | single _ ih | sum _ ih =>
      obtain ⟨c, tail, rfl, -⟩ := ih
      exact ⟨c, tail, rfl, fun hplain => by cases hplain⟩
  | juxtapose _ _ _ _ _ ih _ | multiply _ _ _ _ _ _ ih _ | add _ _ _ _ _ _ ih _ =>
      obtain ⟨c, tail, rfl, -⟩ := ih
      exact ⟨c, _, rfl, fun hplain => by cases hplain⟩

theorem Formula.ne_nil {shape : Shape} {cs : List Char} {e : Expr} (h : Formula shape cs e) :
    cs ≠ [] := by
  obtain ⟨c, tail, rfl, -⟩ := h.head
  exact List.cons_ne_nil c tail

end Reckoner.Latex
