import Reckoner.Proofs.Expr.Regrouping
import Reckoner.Proofs.Expr.RoundTrip
import Reckoner.Proofs.Latex.State
import Reckoner.Proofs.Token.Part

/-!
# Operations in plain notation

A fraction and a root with an index are written as an operation on two texts in parentheses. It
stands between other text, and has no parentheses of its own. The text is read as its lexemes part
by part, so parentheses around the operation keep the value where they do so among the lexemes.
-/

namespace Reckoner.Token

open Reckoner.Text Reckoner.Latex

variable {cs ds rest : List Char} {as ls ks : List Lexeme} {c : Char} {l : Lexeme}

theorem LexesBefore.readsPart (h : LexesBefore cs ls) : ReadsPart cs ls := fun _ _ _ => h _ _

/-- What is read as lexemes between parentheses. -/
theorem ReadsPart.inParens (h : ReadsPart cs ls) :
    LexesBefore (inParens cs) (Expr.enclosed ls) := by
  intro rest ls' hrest
  have hclosed := h _ _ (stops_closeParen rest) (isMark_closeParen.lexesBefore rest ls' hrest)
  simpa [Latex.inParens] using isMark_openParen.lexesBefore _ _ hclosed

theorem Scans.mark_inv (h : Scans (c :: rest) ls) (hc : IsMark c l) :
    ∃ ls', ls = l :: ls' ∧ Scans rest ls' := by
  obtain ⟨l', n, ls', hreading, rfl, hrest⟩ := h.cons_inv hc.blank
  rw [hc.front] at hreading
  cases hreading
  exact ⟨ls', rfl, hrest⟩

theorem Scans.inParens_inv (h : Scans (inParens cs ++ rest) ls) :
    ∃ as ls', ls = Expr.enclosed as ++ ls' ∧ ReadsPart cs as ∧ Scans rest ls' := by
  have htext : inParens cs ++ rest = '(' :: (cs ++ ')' :: rest) := by simp [inParens]
  rw [htext] at h
  obtain ⟨inner, rfl, hinner⟩ := h.mark_inv isMark_openParen
  obtain ⟨as, tail, rfl, has, htail⟩ := hinner.parts (stops_closeParen rest)
  obtain ⟨ls', rfl, hrest⟩ := htail.mark_inv isMark_closeParen
  exact ⟨as, ls', by simp, has, hrest⟩

theorem Scans.blanks_inv {blanks : List Char} (h : Scans (blanks ++ rest) ls)
    (hblanks : ∀ b ∈ blanks, isBlank b = true) : Scans rest ls := by
  induction blanks with
  | nil => exact h
  | cons b blanks ih =>
      rw [List.forall_mem_cons] at hblanks
      exact ih (h.blank_inv hblanks.1) hblanks.2

end Reckoner.Token

namespace Reckoner.Latex

open Reckoner.Text Reckoner.Token

/-- An operation on two texts in parentheses, and the text around it. The blanks right in front of
it go when it is put between parentheses. -/
structure Operation where
  sign : Char
  before : List Char
  blanks : List Char
  first : List Char
  second : List Char
  after : List Char

namespace Operation

/-- The operation by itself. -/
def bare (o : Operation) : List Char := inParens o.first ++ o.sign :: inParens o.second

/-- The whole text. -/
def text (o : Operation) : List Char := o.before ++ (o.blanks ++ (o.bare ++ o.after))

/-- The whole text with the operation between parentheses. -/
def grouped (o : Operation) : List Char := o.before ++ (inParens o.bare ++ o.after)

/-- A division or a power behind nothing but blanks of its own. -/
structure Proper (o : Operation) : Prop where
  sign : o.sign = '/' ∨ o.sign = '^'
  blanks : ∀ b ∈ o.blanks, isBlank b = true

/-- The operation is on its own among the lexemes of the text: the parentheses of its operands are
their own, what stands in front leaves both operands to it, and it is not raised. -/
structure Alone (o : Operation) : Prop where
  first : ∀ {ls}, Scans o.first (ls ++ [.finish]) → Expr.Shut ls
  second : ∀ {ls}, Scans o.second (ls ++ [.finish]) → Expr.Shut ls
  before : ∀ {ls}, Scans o.before (ls ++ [.finish]) → Expr.Yields (String.singleton o.sign) ls
  after : ∀ {ls}, Scans o.after (ls ++ [.finish]) → Expr.Unraised ls

variable {o : Operation}

/-- The lexemes of the parts. -/
structure Parts (o : Operation) (before first second after : List Lexeme) : Prop where
  before : ReadsPart o.before before
  first : ReadsPart o.first first
  second : ReadsPart o.second second
  after : Scans o.after (after ++ [.finish])

theorem Proper.isMark (h : o.Proper) : IsMark o.sign (.operator (String.singleton o.sign)) := by
  apply isMark_operator
  rcases h.sign with h | h <;> rw [h] <;> decide

theorem Proper.parts (h : o.Proper) {ls : List Lexeme} (hls : Scans o.text (ls ++ [.finish])) :
    ∃ before first second after, o.Parts before first second after ∧
      ls = before ++ (Expr.loose (String.singleton o.sign) first second ++ after) := by
  have hstops : Stops (o.blanks ++ (o.bare ++ o.after)) :=
    stops_blanks h.blanks (stops_openParen _)
  obtain ⟨before, tail, hls', hbefore, htail⟩ := Scans.parts hls hstops
  have hbare := htail.blanks_inv h.blanks
  rw [bare, List.append_assoc] at hbare
  obtain ⟨first, behind, rfl, hfirst, hbehind⟩ := hbare.inParens_inv
  obtain ⟨operand, rfl, hoperand⟩ := hbehind.mark_inv h.isMark
  obtain ⟨second, rest, rfl, hsecond, hrest⟩ := hoperand.inParens_inv
  obtain ⟨after, rfl, -⟩ := hrest.cut.isProper
  refine ⟨before, first, second, after, ⟨hbefore, hfirst, hsecond, hrest⟩, ?_⟩
  refine List.append_cancel_right (hls'.trans ?_)
  simp [Expr.loose]

theorem Proper.scans_grouped (h : o.Proper) {before first second after : List Lexeme}
    (hparts : o.Parts before first second after) :
    Scans o.grouped (before ++ (Expr.enclosed
      (Expr.loose (String.singleton o.sign) first second) ++ after) ++ [.finish]) := by
  have hbare : LexesBefore o.bare (Expr.loose (String.singleton o.sign) first second) :=
    hparts.first.inParens.append (h.isMark.lexesBefore.append hparts.second.inParens)
  have hgroup := hbare.readsPart.inParens _ _ hparts.after
  have hall : Scans o.grouped _ := hparts.before _ _ (stops_openParen _) hgroup
  simpa only [List.append_assoc] using hall

/-- Parentheses around an operation that is on its own keep the value of the whole. -/
theorem Alone.ofPlain_grouped (h : o.Alone) (hproper : o.Proper) {e : Expr}
    (he : Expr.ofPlain (String.ofList o.text) = .ok e) :
    ∃ e', Expr.ofPlain (String.ofList o.grouped) = .ok e' ∧ Expr.SameValue e e' := by
  obtain ⟨ls, hscans, -, hderives⟩ := Expr.derives_of_ofPlain he
  rw [String.toList_ofList] at hscans
  obtain ⟨before, first, second, after, hparts, rfl⟩ := hproper.parts hscans
  have hsign : String.singleton o.sign = "/" ∨ String.singleton o.sign = "^" := by
    rcases hproper.sign with h | h <;> rw [h] <;> decide
  obtain ⟨e', he', hvalue⟩ := hderives.regroups hsign (h.first hparts.first.scans)
    (h.second hparts.second.scans) rfl (h.before hparts.before.scans) (h.after hparts.after)
  refine ⟨e', Expr.ofPlain_of_derives ?_ he', hvalue⟩
  rw [String.toList_ofList]
  exact hproper.scans_grouped hparts

end Operation

end Reckoner.Latex
