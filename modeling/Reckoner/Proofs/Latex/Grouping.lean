import Reckoner.Proofs.Latex.Operation

/-!
# Outputs that differ in parentheses

Two outputs that differ only in parentheses around an operation go on alike: the same edits lead to
outputs of which the same holds, and so do edits with pieces that differ in such parentheses.
-/

namespace Reckoner.Latex

open Reckoner.Text

variable {cs ds more : List Char}

/-! ## Texts -/

/-- The second text has parentheses around an operation of the first one. -/
def Wraps (cs ds : List Char) : Prop := ∃ o : Operation, o.Proper ∧ cs = o.text ∧ ds = o.grouped

theorem wraps_bare {sign : Char} (hsign : sign = '/' ∨ sign = '^') (first second : List Char) :
    Wraps (inParens first ++ sign :: inParens second)
      (inParens (inParens first ++ sign :: inParens second)) := by
  refine ⟨⟨sign, [], [], first, second, []⟩, ⟨hsign, by simp⟩, ?_, ?_⟩
  · simp [Operation.text, Operation.bare]
  · simp [Operation.grouped, Operation.bare]

theorem Wraps.append (h : Wraps cs ds) (more : List Char) : Wraps (cs ++ more) (ds ++ more) := by
  obtain ⟨o, ho, rfl, rfl⟩ := h
  refine ⟨{ o with after := o.after ++ more }, ⟨ho.sign, ho.blanks⟩, ?_, ?_⟩
  · simp [Operation.text, Operation.bare]
  · simp [Operation.grouped, Operation.bare]

theorem Wraps.behind (h : Wraps cs ds) (more : List Char) : Wraps (more ++ cs) (more ++ ds) := by
  obtain ⟨o, ho, rfl, rfl⟩ := h
  refine ⟨{ o with before := more ++ o.before }, ⟨ho.sign, ho.blanks⟩, ?_, ?_⟩
  · simp [Operation.text, Operation.bare]
  · simp [Operation.grouped, Operation.bare]

theorem Wraps.cons (h : Wraps cs ds) (c : Char) : Wraps (c :: cs) (c :: ds) := h.behind [c]

theorem Wraps.inParens (h : Wraps cs ds) : Wraps (inParens cs) (inParens ds) :=
  (h.append [')']).cons '('

theorem squeeze_append (cs ds : List Char) : squeeze (cs ++ ds) = squeeze cs ++ squeeze ds :=
  List.filter_append ..

theorem squeeze_blanks {blanks : List Char} (h : ∀ b ∈ blanks, isBlank b = true) :
    squeeze blanks = [] :=
  List.filter_eq_nil_iff.mpr fun b hb => by simp [h b hb]

theorem squeeze_inParens (cs : List Char) : squeeze (Latex.inParens cs) = Latex.inParens (squeeze cs) := by
  have hopening : isBlank '(' = false := by decide
  have hclosing : isBlank ')' = false := by decide
  simp [squeeze, Latex.inParens, hopening, hclosing]

theorem Wraps.squeeze (h : Wraps cs ds) : Wraps (squeeze cs) (squeeze ds) := by
  obtain ⟨o, ho, rfl, rfl⟩ := h
  have hsign : Text.squeeze [o.sign] = [o.sign] := by
    rcases ho.sign with h | h <;> rw [h] <;> rfl
  have hbare : Text.squeeze o.bare = Latex.inParens (Text.squeeze o.first) ++
      o.sign :: Latex.inParens (Text.squeeze o.second) := by
    rw [Operation.bare, squeeze_append, squeeze_inParens, ← List.singleton_append, squeeze_append,
      hsign, squeeze_inParens]
    rfl
  refine ⟨⟨o.sign, Text.squeeze o.before, [], Text.squeeze o.first, Text.squeeze o.second,
    Text.squeeze o.after⟩, ⟨ho.sign, by simp⟩, ?_, ?_⟩
  · simp only [Operation.text, squeeze_append, squeeze_blanks ho.blanks, hbare]
    rfl
  · simp only [Operation.grouped, squeeze_append, squeeze_inParens, hbare]
    rfl

/-- Neither text is made of blanks alone. -/
theorem Wraps.not_allBlank (h : Wraps cs ds) : allBlank cs = false ∧ allBlank ds = false := by
  have hparen {cs : List Char} (hmem : '(' ∈ cs) : allBlank cs = false := by
    rw [← Bool.not_eq_true]
    intro hall
    rw [allBlank, Bool.and_eq_true, List.all_eq_true] at hall
    exact absurd (hall.2 '(' hmem) (by decide)
  obtain ⟨o, -, rfl, rfl⟩ := h
  exact ⟨hparen (by simp [Operation.text, Operation.bare, Latex.inParens]),
    hparen (by simp [Operation.grouped, Latex.inParens])⟩

/-! ## Outputs -/

/-- The pieces of the second output are those of the first one, but for parentheses around an
operation in the last part of them, which ends with a piece that stays. -/
inductive Groups : Output → Output → Prop
  | intro {pieces rest rest' : List (List Char)} {piece piece' : List Char}
      {operandEnd commandEnd afterFunction : Bool} (hpiece : allBlank piece = false)
      (hpiece' : allBlank piece' = false)
      (h : Wraps (rest.reverse.flatten ++ piece) (rest'.reverse.flatten ++ piece')) :
      Groups ⟨pieces ++ piece :: rest, operandEnd, commandEnd, afterFunction⟩
        ⟨pieces ++ piece' :: rest', operandEnd, commandEnd, afterFunction⟩

namespace Groups

variable {out out' : Output}

theorem text (h : Groups out out') : Wraps out.text out'.text := by
  obtain @⟨pieces, rest, rest', piece, piece', _, _, _, -, -, h⟩ := h
  have htext (piece : List Char) (rest : List (List Char)) :
      (pieces ++ piece :: rest).reverse.flatten =
        rest.reverse.flatten ++ piece ++ pieces.reverse.flatten := by simp
  rw [Output.text, Output.text, htext, htext]
  exact h.append _

theorem flags (h : Groups out out') : out'.operandEnd = out.operandEnd ∧
    out'.commandEnd = out.commandEnd ∧ out'.afterFunction = out.afterFunction := by
  cases h
  exact ⟨rfl, rfl, rfl⟩

/-- One more piece. -/
theorem push (h : Groups out out') (piece : List Char) (operandEnd commandEnd afterFunction : Bool) :
    Groups ⟨piece :: out.pieces, operandEnd, commandEnd, afterFunction⟩
      ⟨piece :: out'.pieces, operandEnd, commandEnd, afterFunction⟩ := by
  obtain @⟨pieces, _, _, _, _, _, _, _, hpiece, hpiece', h⟩ := h
  exact @intro (piece :: pieces) _ _ _ _ _ _ _ hpiece hpiece' h

theorem dropWhile_append_cons {pieces rest : List (List Char)} {piece : List Char}
    (h : allBlank piece = false) : (pieces ++ piece :: rest).dropWhile allBlank =
      pieces.dropWhile allBlank ++ piece :: rest := by
  rw [List.dropWhile_append]
  split
  case isTrue hempty =>
      rw [List.isEmpty_iff.mp hempty, List.dropWhile_cons_of_neg (by simp [h])]
      rfl
  case isFalse => rfl

theorem multiply (h : Groups out out') : Groups out.multiply out'.multiply := by
  obtain @⟨pieces, _, _, _, _, _, _, _, hpiece, hpiece', h⟩ := h
  unfold Output.multiply
  rw [dropWhile_append_cons hpiece, dropWhile_append_cons hpiece']
  exact @intro (['*'] :: pieces.dropWhile allBlank) _ _ _ _ _ _ _ hpiece hpiece' h

theorem before (h : Groups out out') (fromCommand : Bool) :
    Groups (out.before fromCommand) (out'.before fromCommand) := by
  obtain ⟨hoperand, hcommand, hfunction⟩ := h.flags
  unfold Output.before
  rw [hoperand, hcommand, hfunction]
  split
  · exact h.multiply
  · exact h

theorem operand (h : Groups out out') (piece : List Char) (fromCommand : Bool) :
    Groups (out.operand piece fromCommand) (out'.operand piece fromCommand) := by
  rw [Output.operand_eq, Output.operand_eq]
  exact (h.before fromCommand).push _ _ _ _

theorem apply (h : Groups out out') (e : Edit) : Groups (e.apply out) (e.apply out') := by
  obtain ⟨hoperand, hcommand, hfunction⟩ := h.flags
  cases e with
  | operand piece fromCommand => exact h.operand piece fromCommand
  | append piece =>
      have hpush := h.push piece out.operandEnd out.commandEnd out.afterFunction
      simpa only [Edit.apply, Output.append, hoperand, hcommand, hfunction] using hpush
  | closing piece => exact h.push piece true true false
  | operator piece => exact h.push piece false false false
  | opening piece fromCommand =>
      simp only [Edit.apply, Output.opening, hfunction]
      split
      · exact h.push piece false false false
      · exact (h.before fromCommand).push piece false fromCommand false
  | brace => exact (h.before true).push ['('] false true false
  | awaiting =>
      obtain @⟨pieces, _, _, _, _, _, _, _, hpiece, hpiece', h⟩ := h
      exact .intro hpiece hpiece' h

theorem applyAll (h : Groups out out') (es : List Edit) :
    Groups (Edit.applyAll out es) (Edit.applyAll out' es) := by
  induction es generalizing out out' with
  | nil => exact h
  | cons e es ih => exact ih (h.apply e)

end Groups

/-! ## Pieces that differ -/

variable {out : Output}

theorem groups_operand (h : Wraps cs ds) (out : Output) (fromCommand : Bool) :
    Groups (out.operand cs fromCommand) (out.operand ds fromCommand) := by
  obtain ⟨hcs, hds⟩ := h.not_allBlank
  exact @Groups.intro [] _ _ _ _ _ _ _ hcs hds (h.behind _)

theorem groups_closing (h : Wraps cs ds) (out : Output) :
    Groups (out.closing cs) (out.closing ds) := by
  obtain ⟨hcs, hds⟩ := h.not_allBlank
  exact @Groups.intro [] _ _ _ _ _ _ _ hcs hds (h.behind _)

theorem groups_append (h : Wraps cs ds) (out : Output) : Groups (out.append cs) (out.append ds) := by
  obtain ⟨hcs, hds⟩ := h.not_allBlank
  exact @Groups.intro [] _ _ _ _ _ _ _ hcs hds (h.behind _)

end Reckoner.Latex
