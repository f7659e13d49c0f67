import Reckoner.Proofs.Latex.Pieces
import Reckoner.Proofs.Token.Scan

/-!
# What an output is read as

An output in which an operand may come next is read as certain lexemes, whatever follows. One that
ends with an operand is read as its lexemes wherever no name and no number goes on behind it, and
blanks at its end make no difference, since a multiplication sign takes their place. The edits lead
from one kind of output to the other.
-/

namespace Reckoner.Token

open Reckoner.Text

/-- The text is read as the lexemes, whatever follows. -/
def LexesBefore (cs : List Char) (ls : List Lexeme) : Prop :=
  ∀ rest ls', Scans rest ls' → Scans (cs ++ rest) (ls ++ ls')

/-- A character that is a lexeme on its own. -/
structure IsMark (c : Char) (l : Lexeme) : Prop where
  blank : isBlank c = false
  front : ∀ rest, reading c rest = .ok (l, 1)
  name : isNameChar c = false
  point : c ≠ '.'

variable {as bs : List Char} {ls ks : List Lexeme} {c : Char} {l : Lexeme}

theorem isMark_openParen : IsMark '(' .openParen :=
  ⟨by decide, fun _ => rfl, by decide, by decide⟩

theorem isMark_closeParen : IsMark ')' .closeParen :=
  ⟨by decide, fun _ => rfl, by decide, by decide⟩

/-- The operators that have one sign. -/
theorem isMark_operator (h : c ∈ ['+', '-', '*', '/', '^']) :
    IsMark c (.operator (String.singleton c)) := by
  simp only [List.mem_cons, List.not_mem_nil, or_false] at h
  rcases h with rfl | rfl | rfl | rfl | rfl
  all_goals exact ⟨by decide, fun _ => rfl, by decide, by decide⟩

theorem IsMark.boundary (h : IsMark c l) (rest : List Char) : Boundary (c :: rest) :=
  boundary_cons h.name h.point rest

theorem lexesBefore_nil : LexesBefore [] [] := fun _ _ h => h

theorem IsMark.lexesBefore (h : IsMark c l) : LexesBefore [c] [l] := by
  intro rest ls' hrest
  exact hrest.front (n := 1) h.blank (h.front rest)

theorem LexesBefore.append (ha : LexesBefore as ls) (hb : LexesBefore bs ks) :
    LexesBefore (as ++ bs) (ls ++ ks) := by
  intro rest ls' h
  rw [List.append_assoc, List.append_assoc]
  exact ha _ _ (hb rest ls' h)

theorem LexesBefore.lexes (ha : LexesBefore as ls) (hb : Lexes bs ks) :
    Lexes (as ++ bs) (ls ++ ks) := by
  intro rest ls' hrest h
  rw [List.append_assoc, List.append_assoc]
  exact ha _ _ (hb rest ls' hrest h)

/-- A mark ends the name or the number in front of it. -/
theorem Lexes.mark (ha : Lexes as ls) (hc : IsMark c l) : LexesBefore (as ++ [c]) (ls ++ [l]) := by
  intro rest ls' h
  rw [List.append_assoc, List.append_assoc]
  exact ha _ _ (hc.boundary rest) (hc.lexesBefore rest ls' h)

theorem LexesBefore.blanks (ha : LexesBefore as ls) (hbs : ∀ b ∈ bs, isBlank b = true) :
    LexesBefore (as ++ bs) ls := by
  intro rest ls' h
  rw [List.append_assoc]
  refine ha _ _ ?_
  induction bs with
  | nil => exact h
  | cons b bs ih =>
      rw [List.forall_mem_cons] at hbs
      exact (ih hbs.2).blank hbs.1

theorem Lexes.trailing (ha : Lexes as ls) (hbs : ∀ b ∈ bs, isBlank b = true) :
    Lexes (as ++ bs) ls := by
  have hnone : Lexes bs [] := by simpa using lexes_nil.blanks hbs
  have happend := ha.append hnone fun rest hrest => by
    cases bs with
    | nil => exact hrest
    | cons b bs => exact boundary_blank (hbs b List.mem_cons_self) _
  rwa [List.append_nil] at happend

/-- A piece in parentheses. -/
theorem Lexes.inParens (h : Lexes as ls) :
    LexesBefore (Latex.inParens as) (.openParen :: (ls ++ [.closeParen])) :=
  isMark_openParen.lexesBefore.append (h.mark isMark_closeParen)

/-- A name and its argument in parentheses. -/
theorem Lexes.call {name : List Char} (hname : Lexes name [l]) (h : Lexes as ls) :
    LexesBefore (name ++ Latex.inParens as) (l :: .openParen :: (ls ++ [.closeParen])) := by
  have hcall := (hname.mark isMark_openParen).append (h.mark isMark_closeParen)
  rwa [List.append_assoc] at hcall

/-- An operator between two pieces, with blanks around it. -/
theorem Lexes.between {space space' : List Char} {op : Char} (ha : Lexes as ls)
    (hspace : ∀ b ∈ space, isBlank b = true) (hop : op ∈ ['+', '-', '*', '/', '^'])
    (hspace' : ∀ b ∈ space', isBlank b = true) (hb : Lexes bs ks) :
    Lexes (as ++ (space ++ op :: (space' ++ bs)))
      (ls ++ .operator (String.singleton op) :: ks) := by
  have hsign := (ha.trailing hspace).mark (isMark_operator hop)
  have hall := (hsign.blanks hspace').lexes hb
  simpa using hall

theorem LexesBefore.toLexes (h : LexesBefore as ls) : Lexes as ls := fun rest ls' _ => h rest ls'

end Reckoner.Token

namespace Reckoner.Latex

open Reckoner.Text Reckoner.Token

namespace Output

/-- The text without the blanks at its end. -/
def core (out : Output) : List Char := (out.pieces.dropWhile allBlank).reverse.flatten

/-- The output in front of an operand: with a multiplication sign if there has to be one. -/
def before (out : Output) (fromCommand : Bool) : Output :=
  if out.operandEnd && !out.afterFunction && (fromCommand || out.commandEnd) then out.multiply
  else out

theorem text_cons (out : Output) (piece : List Char) :
    Output.text { out with pieces := piece :: out.pieces } = out.text ++ piece := by
  simp [text]

theorem operand_eq (out : Output) (piece : List Char) (fromCommand : Bool) :
    out.operand piece fromCommand =
      { pieces := piece :: (out.before fromCommand).pieces
        operandEnd := true
        commandEnd := fromCommand
        afterFunction := false } := rfl

theorem text_eq_core (out : Output) :
    ∃ blanks, (∀ b ∈ blanks, isBlank b = true) ∧ out.text = out.core ++ blanks := by
  refine ⟨(out.pieces.takeWhile allBlank).reverse.flatten, ?_, ?_⟩
  · intro b hb
    obtain ⟨piece, hpiece, hmem⟩ := List.mem_flatten.mp hb
    have hall := List.mem_takeWhile_imp (List.mem_reverse.mp hpiece)
    rw [allBlank, Bool.and_eq_true, List.all_eq_true] at hall
    exact hall.2 b hmem
  · have hpieces := List.takeWhile_append_dropWhile (p := allBlank) (l := out.pieces)
    rw [text, core, ← List.flatten_append, ← List.reverse_append, hpieces]

theorem text_multiply (out : Output) : out.multiply.text = out.core ++ ['*'] := by
  simp [multiply, text, core]

end Output

/-- An operand may come next. -/
structure Ready (out : Output) (ls : List Lexeme) : Prop where
  operandEnd : out.operandEnd = false
  afterFunction : out.afterFunction = false
  lexes : LexesBefore out.text ls

/-- The output ends with an operand, which is bare or comes from a command or a group. -/
structure Done (bare : Bool) (out : Output) (ls : List Lexeme) : Prop where
  operandEnd : out.operandEnd = true
  afterFunction : out.afterFunction = false
  commandEnd : out.commandEnd = !bare
  lexes : Lexes out.core ls

/-- An operand may come next, perhaps behind a multiplication sign. -/
structure Accepts (fromCommand : Bool) (out : Output) (ls : List Lexeme) : Prop where
  afterFunction : out.afterFunction = false
  lexes : LexesBefore (out.before fromCommand).text ls

variable {out : Output} {ls ks : List Lexeme} {piece : List Char} {bare fromCommand : Bool}

theorem ready_empty : Ready {} [] := ⟨rfl, rfl, lexesBefore_nil⟩

theorem Ready.accepts (h : Ready out ls) (fromCommand : Bool) : Accepts fromCommand out ls := by
  refine ⟨h.afterFunction, ?_⟩
  rw [Output.before, h.operandEnd]
  exact h.lexes

/-- Two operands next to each other are multiplied unless both of them are bare. -/
theorem Done.accepts (h : Done bare out ls) (hcommand : (bare && !fromCommand) = false) :
    Accepts fromCommand out (ls ++ [.operator "*"]) := by
  refine ⟨h.afterFunction, ?_⟩
  have hmultiply : (out.operandEnd && !out.afterFunction && (fromCommand || out.commandEnd)) =
      true := by
    rw [h.operandEnd, h.afterFunction, h.commandEnd]
    cases bare <;> cases fromCommand <;> simp_all
  rw [Output.before, if_pos hmultiply, Output.text_multiply]
  exact h.lexes.mark (isMark_operator (by decide))

theorem Done.lexes_text (h : Done bare out ls) : Lexes out.text ls := by
  obtain ⟨blanks, hblanks, htext⟩ := out.text_eq_core
  rw [htext]
  exact h.lexes.trailing hblanks

theorem core_cons (out : Output) (hpiece : allBlank piece = false) :
    Output.core { out with pieces := piece :: out.pieces } = out.text ++ piece := by
  rw [Output.core, List.dropWhile_cons_of_neg (by simp [hpiece])]
  exact Output.text_cons out piece

/-- An operand. -/
theorem Accepts.operand (h : Accepts fromCommand out ls) (hpiece : Lexes piece ks)
    (hblank : allBlank piece = false) :
    Done (!fromCommand) (out.operand piece fromCommand) (ls ++ ks) := by
  refine ⟨rfl, rfl, by simp [Output.operand], ?_⟩
  rw [Output.operand_eq]
  have hcore := core_cons (out.before fromCommand) hblank
  exact hcore ▸ h.lexes.lexes hpiece

/-- A call, as a name and its argument in parentheses. -/
theorem Accepts.call {name : List Char} {l : Lexeme} (h : Accepts true out ls)
    (hname : Lexes name [l]) (hpiece : Lexes piece ks) :
    Done false ((out.operand name).append (inParens piece))
      (ls ++ l :: .openParen :: (ks ++ [.closeParen])) := by
  refine ⟨rfl, rfl, rfl, ?_⟩
  have hblank : allBlank (inParens piece) = false := by
    simp [allBlank, inParens, (by decide : isBlank '(' = false)]
  have hcore := core_cons (out.operand name) hblank
  have htext : (out.operand name).text = (out.before true).text ++ name :=
    Output.text_cons (out.before true) name
  rw [htext, List.append_assoc] at hcore
  exact hcore ▸ h.lexes.lexes (hname.call hpiece).toLexes

theorem Accepts.opening (h : Accepts true out ls) (hpiece : LexesBefore piece ks) :
    Ready (out.opening piece true) (ls ++ ks) := by
  rw [Output.opening, h.afterFunction]
  refine ⟨rfl, rfl, ?_⟩
  have htext := Output.text_cons (out.before true) piece
  exact htext ▸ h.lexes.append hpiece

theorem done_closing (hpiece : Lexes (out.text ++ piece) ls) (hblank : allBlank piece = false) :
    Done false (out.closing piece) ls := by
  refine ⟨rfl, rfl, rfl, ?_⟩
  have hcore := core_cons out hblank
  exact hcore ▸ hpiece

/-- The end of an operand in parentheses. -/
theorem Done.closeParen (h : Done bare out ls) :
    Done false (out.closing [')']) (ls ++ [.closeParen]) :=
  done_closing (h.lexes_text.mark isMark_closeParen).toLexes (by decide)

/-- An exponent. -/
theorem Done.raised (h : Done bare out ls) (hpiece : Lexes piece ks) :
    Done false (out.closing ('^' :: inParens piece))
      (ls ++ .operator "^" :: .openParen :: (ks ++ [.closeParen])) := by
  have hpower := (h.lexes_text.mark (isMark_operator (c := '^') (by decide))).append
    hpiece.inParens
  rw [List.append_assoc, List.append_assoc] at hpower
  exact done_closing hpower.toLexes (by simp [allBlank, (by decide : isBlank '^' = false)])

theorem Done.operator {c : Char} (h : Done bare out ls)
    (hc : c ∈ ['+', '-', '*', '/', '^']) :
    Ready (out.operator [c]) (ls ++ [.operator (String.singleton c)]) := by
  refine ⟨rfl, rfl, ?_⟩
  have htext := Output.text_cons out [c]
  exact htext ▸ h.lexes_text.mark (isMark_operator hc)

theorem Ready.operator {c : Char} (h : Ready out ls) (hc : c ∈ ['+', '-', '*', '/', '^']) :
    Ready (out.operator [c]) (ls ++ [.operator (String.singleton c)]) := by
  refine ⟨rfl, rfl, ?_⟩
  have htext := Output.text_cons out [c]
  exact htext ▸ h.lexes.append (isMark_operator hc).lexesBefore

theorem Ready.blank {c : Char} (h : Ready out ls) (hc : isBlank c = true) :
    Ready (out.append [c]) ls := by
  refine ⟨h.operandEnd, h.afterFunction, ?_⟩
  have htext := Output.text_cons out [c]
  exact htext ▸ h.lexes.blanks (by simpa using hc)

theorem Done.blank {c : Char} (h : Done bare out ls) (hc : isBlank c = true) :
    Done bare (out.append [c]) ls := by
  refine ⟨h.operandEnd, h.afterFunction, h.commandEnd, ?_⟩
  have hcore : (out.append [c]).core = out.core := by
    rw [Output.core, Output.append, List.dropWhile_cons_of_pos (by simp [allBlank, hc])]
    rfl
  exact hcore ▸ h.lexes

end Reckoner.Latex
