import Reckoner.Proofs.Expr.Spelling

/-!
# Printed trees

The parentheses that are printed are enough: every operand stands at the level that its place
in the grammar asks for, in parentheses or not, and so the text of a tree is read as the tree
that its literals and names are read as.
-/

namespace Reckoner.Expr

open Reckoner.Token Reckoner.Text

/-! ## Operands -/

/-- An atom may stand at every level. -/
theorem Writes.atLevel {cs : List Char} {e : Expr} (h : Writes cs (.atom e)) (k : Nat) :
    Writes cs (level k e) := by
  by_cases hk : k ≤ 5
  · exact Writes.mono (n := 5) hk h
  · obtain ⟨n, rfl⟩ : ∃ n, k = n + 5 := ⟨k - 5, by omega⟩
    exact h

/-- In parentheses or not, an operand stands at a level if it needs no parentheses only where it
stands there by itself. -/
theorem Writes.wrapIf {s : String} {e : Expr} {k n : Nat} {condition : Bool}
    (h : Writes s.toList (level n e)) (hk : condition = false → k ≤ n) :
    Writes (wrapIf condition s).toList (level k e) := by
  cases condition with
  | false => exact h.mono (hk rfl)
  | true => exact (Writes.wrap (Writes.mono (m := 0) (Nat.zero_le n) h)).atLevel k

theorem precedence_of_sign {e : Expr} (h : (isNegation e || isNegativeLiteral e) = true) :
    precedence e = 3 := by
  cases e with
  | negate e => rfl
  | number x =>
      have hneg : Double.isNegative x = true := h
      rw [precedence_number, if_pos hneg]
  | imaginary x =>
      have hneg : Double.isNegative x = true := h
      rw [precedence_imaginary, if_pos hneg]
  | _ => cases h

/-- Without parentheses a right operand is a sign or binds tighter than its operator; that of a
power may bind as tightly. -/
theorem precedence_of_wrapsRight {op : String} {e : Expr} (h : wrapsRight op e = false) :
    precedence e = 3 ∨ operatorPrecedence op < precedence e ∨
      (operatorPrecedence op = precedence e ∧ op = "^") := by
  by_cases hsign : (isNegation e || isNegativeLiteral e) = true
  · exact .inl (precedence_of_sign hsign)
  · right
    rw [Bool.not_eq_true, Bool.or_eq_false_iff] at hsign
    unfold wrapsRight groupsRight at h
    rw [hsign.1, hsign.2] at h
    by_cases hlt : precedence e < operatorPrecedence op
    · simp [hlt] at h
    · by_cases heq : precedence e = operatorPrecedence op
      · exact .inr ⟨heq.symm, by simpa [heq] using h⟩
      · left
        omega

theorem precedence_of_wrapsLeft {op : String} {e : Expr} (h : wrapsLeft op e = false) :
    operatorPrecedence op ≤ precedence e ∧ (op = "^" → operatorPrecedence op < precedence e) := by
  unfold wrapsLeft groupsRight at h
  rw [Bool.or_eq_false_iff, decide_eq_false_iff_not] at h
  refine ⟨Nat.le_of_not_lt h.1, fun hop => ?_⟩
  have hle := h.2
  rw [hop, beq_self_eq_true, Bool.true_and, decide_eq_false_iff_not] at hle
  rw [hop]
  omega

/-! ## Operators -/

/-- Sums and products have a sign of one character. -/
theorem sign_of_spaced {op : String} (h : IsAdditive op ∨ IsMultiplicative op) :
    op ≠ "^" ∧ ∃ c, op.toList = [c] ∧ isBlank c = false ∧
      ∀ rest, reading c rest = .ok (.operator op, 1) := by
  rcases h with (rfl | rfl) | (rfl | rfl)
  · exact ⟨by decide, '+', rfl, by decide, fun _ => rfl⟩
  · exact ⟨by decide, '-', rfl, by decide, fun _ => rfl⟩
  · exact ⟨by decide, '*', rfl, by decide, fun _ => rfl⟩
  · exact ⟨by decide, '/', rfl, by decide, fun _ => rfl⟩

/-- Sums and products are written with blanks between operands and operator. -/
theorem Writes.spaced {op left right : String} {lower upper whole : Phrase}
    (hop : IsAdditive op ∨ IsMultiplicative op) (hleft : Writes left.toList lower)
    (hright : Writes right.toList upper)
    (hderives : ∀ ls rs, Derives ls lower → Derives rs upper →
      Derives (ls ++ .operator op :: rs) whole) :
    Writes (joinOperands op left right).toList whole := by
  obtain ⟨ls, hls, hleft⟩ := hleft
  obtain ⟨rs, hrs, hright⟩ := hright
  obtain ⟨hne, c, hc, hblank, hfront⟩ := sign_of_spaced hop
  have htext : (joinOperands op left right).toList =
      left.toList ++ ' ' :: c :: ' ' :: right.toList := by
    unfold joinOperands
    rw [if_neg hne]
    simp [String.toList_append, hc]
  rw [htext]
  exact ⟨_, hls.spaced hrs hblank hfront, hderives ls rs hleft hright⟩

theorem Writes.raised {left right : String} {a b : Expr} (hleft : Writes left.toList (.atom a))
    (hright : Writes right.toList (.signed b)) :
    Writes (joinOperands "^" left right).toList (.power (.binary "^" a b)) := by
  obtain ⟨ls, hls, hleft⟩ := hleft
  obtain ⟨rs, hrs, hright⟩ := hright
  have htext : (joinOperands "^" left right).toList = left.toList ++ '^' :: right.toList := by
    simp [joinOperands, String.toList_append]
  rw [htext]
  exact ⟨_, hls.raised hrs, .raise hleft hright⟩

section Binary

variable {op left right : String} {l r a b : Expr}

theorem derives_spaced (hop : IsAdditive op ∨ IsMultiplicative op) {ls rs : List Lexeme}
    (hl : Derives ls (level (operatorPrecedence op) a))
    (hr : Derives rs (level (operatorPrecedence op + 1) b)) :
    Derives (ls ++ .operator op :: rs) (level (operatorPrecedence op) (.binary op a b)) := by
  rcases hop with (rfl | rfl) | (rfl | rfl)
  · exact .add hl (.inl rfl) hr
  · exact .add hl (.inr rfl) hr
  · exact .multiply hl (.inl rfl) hr
  · exact .multiply hl (.inr rfl) hr

theorem writes_spaced (hop : IsAdditive op ∨ IsMultiplicative op)
    (hl : Writes left.toList (level (precedence l) a))
    (hr : Writes right.toList (level (precedence r) b)) :
    Writes (joinOperands op (wrapIf (wrapsLeft op l) left) (wrapIf (wrapsRight op r) right)).toList
      (level (operatorPrecedence op) (.binary op a b)) := by
  have hle : operatorPrecedence op ≤ 2 := by
    rcases hop with (rfl | rfl) | (rfl | rfl) <;> decide
  have hleft : Writes (wrapIf (wrapsLeft op l) left).toList (level (operatorPrecedence op) a) :=
    hl.wrapIf fun h => (precedence_of_wrapsLeft h).1
  have hright : Writes (wrapIf (wrapsRight op r) right).toList
      (level (operatorPrecedence op + 1) b) :=
    hr.wrapIf fun h => by
      -- a sign binds tighter than both kinds, so it needs no parentheses
      rcases precedence_of_wrapsRight h with h | h | ⟨-, h⟩
      · omega
      · omega
      · exact absurd h (sign_of_spaced hop).1
  exact .spaced hop hleft hright fun _ _ => derives_spaced hop

theorem writes_power (hl : Writes left.toList (level (precedence l) a))
    (hr : Writes right.toList (level (precedence r) b)) :
    Writes (joinOperands "^" (wrapIf (wrapsLeft "^" l) left)
      (wrapIf (wrapsRight "^" r) right)).toList (.power (.binary "^" a b)) := by
  have hprec : operatorPrecedence "^" = 4 := rfl
  have hleft : Writes (wrapIf (wrapsLeft "^" l) left).toList (.atom a) :=
    hl.wrapIf (k := 5) fun h => by
      have hlt := (precedence_of_wrapsLeft h).2 rfl
      omega
  have hright : Writes (wrapIf (wrapsRight "^" r) right).toList (.signed b) :=
    hr.wrapIf (k := 3) fun h => by
      rcases precedence_of_wrapsRight h with h | h | ⟨h, -⟩
      all_goals omega
  exact hleft.raised hright

/-- An operation is read at its own level, whatever stands left and right of the operator. -/
theorem writes_binary (hop : op ∈ ["+", "-", "*", "/", "^"])
    (hl : Writes left.toList (level (precedence l) a))
    (hr : Writes right.toList (level (precedence r) b)) :
    Writes (joinOperands op (wrapIf (wrapsLeft op l) left) (wrapIf (wrapsRight op r) right)).toList
      (level (operatorPrecedence op) (.binary op a b)) := by
  rcases isSpaced_or_eq_power hop with hspaced | rfl
  · exact writes_spaced hspaced hl hr
  · exact writes_power hl hr

end Binary

/-! ## Signs and calls -/

theorem precedence_of_wrapsUnderSign {e : Expr} (h : wrapsUnderSign e = false) :
    3 ≤ precedence e := by
  cases e with
  | binary op l r =>
      have hop : op = "^" := by simpa [wrapsUnderSign] using h
      rw [hop]
      exact (by decide : 3 ≤ operatorPrecedence "^")
  | negate e => exact Nat.le_refl 3
  | number x =>
      rw [precedence_number]
      split <;> decide
  | imaginary x =>
      rw [precedence_imaginary]
      split <;> decide
  | _ => exact (by decide : 3 ≤ 5)

theorem writes_negate {s : String} {e e' : Expr} (h : Writes s.toList (level (precedence e) e')) :
    Writes ("-" ++ wrapIf (wrapsUnderSign e) s).toList (.signed (.negate e')) := by
  have hoperand : Writes (wrapIf (wrapsUnderSign e) s).toList (.signed e') :=
    h.wrapIf (k := 3) precedence_of_wrapsUnderSign
  rw [String.toList_append]
  exact hoperand.minus

theorem derives_cons_arguments {ls rs : List Lexeme} {e : Expr} {es : List Expr}
    (he : Derives ls (.sum e)) (h : Derives rs (.arguments es)) :
    Derives (ls ++ .comma :: rs) (.arguments (e :: es)) := by
  generalize hphrase : Phrase.arguments es = phrase at h
  -- the grammar adds arguments at the end, so the first one goes in where the derivation starts
  induction h generalizing es with
  | argument hlast =>
      cases hphrase
      exact .nextArgument (.argument he) hlast
  | nextArgument _ hlast ih _ =>
      cases hphrase
      have hnext := Derives.nextArgument (ih rfl) hlast
      rwa [List.append_assoc] at hnext
  | _ => cases hphrase

theorem Writes.argument {s : String} {e : Expr} (h : Writes s.toList (.sum e)) :
    Writes (commaSeparated [s]).toList (.arguments [e]) := by
  obtain ⟨ls, hls, hderives⟩ := h
  have htext : (commaSeparated [s]).toList = s.toList := by simp [commaSeparated]
  rw [htext]
  exact ⟨ls, hls, .argument hderives⟩

theorem Writes.consArgument {s t : String} {rest : List String} {e : Expr} {es : List Expr}
    (h : Writes s.toList (.sum e))
    (hrest : Writes (commaSeparated (t :: rest)).toList (.arguments es)) :
    Writes (commaSeparated (s :: t :: rest)).toList (.arguments (e :: es)) := by
  obtain ⟨ls, hls, he⟩ := h
  obtain ⟨rs, hrs, hes⟩ := hrest
  have htext : (commaSeparated (s :: t :: rest)).toList =
      s.toList ++ ',' :: ' ' :: (commaSeparated (t :: rest)).toList := by
    simp [commaSeparated]
  rw [htext]
  exact ⟨_, hls.listed hrs, derives_cons_arguments he hes⟩

/-- A name and what stands in parentheses behind it. -/
theorem lexes_call {name s : String} {l : Lexeme} {ls : List Lexeme} (hname : Lexes name.toList [l])
    (hargs : Lexes s.toList ls) :
    Lexes (name ++ wrap s).toList (l :: .openParen :: (ls ++ [.closeParen])) := by
  have htext : (name ++ wrap s).toList = name.toList ++ '(' :: (s.toList ++ [')']) := by
    simp [wrap, String.toList_append]
  rw [htext]
  exact hname.append (hargs.closed.sign (by decide) fun _ => rfl)
    fun _ _ => boundary_cons (by decide) (by decide) _

theorem Writes.call {name s : String} {es : List Expr} (hname : IsCallName name)
    (hargs : Writes s.toList (.arguments es)) :
    Writes (name ++ Expr.wrap s).toList (.atom (.call (rereadCall name) es)) := by
  obtain ⟨l, hl, hnames⟩ := exists_names hname
  obtain ⟨ls, hls, hderives⟩ := hargs
  exact ⟨_, lexes_call hl hls, .call hnames hderives⟩

theorem writes_emptyCall {name : String} (hname : IsCallName name) :
    Writes (name ++ wrap (commaSeparated [])).toList (.atom (.call (rereadCall name) [])) := by
  obtain ⟨l, hl, hnames⟩ := exists_names hname
  exact ⟨_, lexes_call hl lexes_nil, .emptyCall hnames⟩

/-! ## Trees -/

mutual

/-- The text of a tree is read, at the level at which it is printed, as the tree that its
literals and names are read as. -/
theorem writes_text : ∀ e : Expr, e.Everywhere IsSpellable →
    Writes (text e).toList (level (precedence e) (reread e))
  | .number x, _ => writes_number x
  | .imaginary x, _ => writes_imaginary x
  | .constant name, h => .atom (spells_constant h).lexes (.constant name)
  | .var _, h => writes_name h
  | .negate e, h => by
      rw [text, reread]
      exact writes_negate (writes_text e h.2)
  | .binary _ left right, h => by
      rw [text, reread]
      exact writes_binary h.1 (writes_text left h.2.1) (writes_text right h.2.2)
  | .call _ args, h => by
      have hargs := writes_textAll args h.2
      rw [text, reread]
      cases args with
      | nil => exact writes_emptyCall h.1
      | cons e rest => exact .call h.1 (hargs (by simp))
  | .blank, h => h.elim
  | .foreign .., h => h.elim

theorem writes_textAll : ∀ es : List Expr, EverywhereAll IsSpellable es → es ≠ [] →
    Writes (commaSeparated (textAll es)).toList (.arguments (rereadAll es))
  | [], _, hne => absurd rfl hne
  | [e], h, _ => (Writes.mono (m := 0) (Nat.zero_le _) (writes_text e h.1)).argument
  | e :: f :: rest, h, _ =>
      (Writes.mono (m := 0) (Nat.zero_le _) (writes_text e h.1)).consArgument
        (writes_textAll (f :: rest) h.2 (by simp))

end

mutual

theorem unprintable?_eq_none : ∀ e : Expr, e.Everywhere IsSpellable → unprintable? e = none
  | .number _, _ | .imaginary _, _ | .constant _, _ | .var _, _ => rfl
  | .negate e, h => unprintable?_eq_none e h.2
  | .binary op left right, h => by
      have hop : (operatorPrecedence? op).isNone = false := by
        have hmem := h.1
        simp only [IsSpellable, List.mem_cons, List.not_mem_nil, or_false] at hmem
        rcases hmem with rfl | rfl | rfl | rfl | rfl <;> rfl
      rw [unprintable?, hop, unprintable?_eq_none left h.2.1, unprintable?_eq_none right h.2.2]
      rfl
  | .call _ args, h => unprintableAll?_eq_none args h.2
  | .blank, h => h.elim
  | .foreign .., h => h.elim

theorem unprintableAll?_eq_none : ∀ es : List Expr, EverywhereAll IsSpellable es →
    unprintableAll? es = none
  | [], _ => rfl
  | e :: rest, h => by
      rw [unprintableAll?, unprintable?_eq_none e h.1, unprintableAll?_eq_none rest h.2]
      rfl

end

theorem print_eq_text {e : Expr} (h : e.Everywhere IsSpellable) : e.print = .ok (text e) := by
  rw [print, unprintable?_eq_none e h]

end Reckoner.Expr
