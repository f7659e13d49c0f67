import Reckoner.Proofs.Expr.Parenthesis
import Reckoner.Proofs.Expr.RoundTrip

/-!
# How many parentheses a tree needs

`openings` counts the parentheses that are printed. No lexemes that form a tree have fewer of them:
where an operand is looser than its place in the grammar, only parentheses lead there. So a printed
text from which a pair is taken away stands for another tree, whatever the pair is and whichever
operators stand around it.
-/

namespace Reckoner

namespace Token

open Reckoner.Text

/-! ## Parentheses in texts and among lexemes -/

theorem IsMantissa.not_mem_openParen {run : List Char} (h : IsMantissa run) : '(' ∉ run := by
  intro hmem
  exact absurd (h.chars _ hmem) (by decide)

theorem IsPower.not_mem_openParen {power : List Char} (h : IsPower power) : '(' ∉ power := by
  cases h with
  | none => simp
  | some he hsign _ hdigits =>
      intro hmem
      rcases List.mem_cons.mp hmem with rfl | hmem
      · exact absurd he (by decide)
      · rcases List.mem_append.mp hmem with hmem | hmem
        · rcases hsign with rfl | rfl | rfl
          all_goals
            revert hmem
            decide
        · exact absurd (hdigits _ hmem) (by decide)

theorem named_ne_openParen (name : String) : named name ≠ .openParen := by
  unfold named
  split
  case isTrue => simp
  case isFalse => split <;> simp

/-- Only the lexeme of the parenthesis is spelled with it. -/
theorem Spells.count_openParen {cs : List Char} {l : Lexeme} (h : Spells cs l) :
    cs.count '(' = [l].count .openParen := by
  cases h with
  | @operator c sign h =>
      have hne : c ≠ '(' := by
        rintro rfl
        have hnone : operatorSign? '(' = none := by decide
        rw [hnone] at h
        cases h
      simp [hne]
  | openParen => rfl
  | closeParen | comma | pi => rfl
  | @name c rest _ _ hstart hrest =>
      have hmem : '(' ∉ c :: rest := by
        intro hmem
        rcases List.mem_cons.mp hmem with rfl | hmem
        · exact absurd hstart (by decide)
        · exact absurd (hrest _ hmem) (by decide)
      rw [List.count_eq_zero.mpr hmem]
      simp [named_ne_openParen]
  | number hrun hpower =>
      rw [List.count_append, List.count_eq_zero.mpr hrun.not_mem_openParen,
        List.count_eq_zero.mpr hpower.not_mem_openParen]
      rfl
  | imaginary hrun hpower =>
      rw [List.count_append, List.count_append, List.count_eq_zero.mpr hrun.not_mem_openParen,
        List.count_eq_zero.mpr hpower.not_mem_openParen]
      rfl

/-- A text has as many opening parentheses as its lexemes. -/
theorem Cut.count_openParen {cs : List Char} {ls : List Lexeme} (h : Cut cs ls) :
    cs.count '(' = ls.count .openParen := by
  induction h with
  | finish => rfl
  | @blank c _ _ hblank _ ih =>
      have hne : c ≠ '(' := by
        rintro rfl
        exact absurd hblank (by decide)
      rw [List.count_cons_of_ne hne, ih]
  | @lexeme _ _ l ls hrun _ ih =>
      rw [List.count_append, hrun.count_openParen, ih, ← List.count_append, List.singleton_append]

end Token

namespace Expr

open Reckoner.Token Reckoner.Text Reckoner.Double

mutual

/-- How many opening parentheses the text of a tree has. -/
def openings : Expr → Nat
  | negate e => openings e + (wrapsUnderSign e).toNat
  | binary op l r =>
    openings l + (wrapsLeft op l).toNat + (openings r + (wrapsRight op r).toNat)
  | call _ args => openingsAll args + 1
  | _ => 0

/-- How many opening parentheses the texts of arguments have. -/
def openingsAll : List Expr → Nat
  | [] => 0
  | e :: rest => openings e + openingsAll rest

end

theorem openingsAll_append (es fs : List Expr) :
    openingsAll (es ++ fs) = openingsAll es + openingsAll fs := by
  induction es with
  | nil => simp [openingsAll]
  | cons e es ih => rw [List.cons_append, openingsAll, openingsAll, ih, Nat.add_assoc]

/-! ## Printed parentheses -/

theorem count_wrapIf (condition : Bool) (s : String) :
    (wrapIf condition s).toList.count '(' = s.toList.count '(' + condition.toNat := by
  cases condition with
  | false => rfl
  | true => simp [wrapIf, wrap]

theorem count_joinOperands {op : String} (hop : op ∈ ["+", "-", "*", "/", "^"])
    (left right : String) : (joinOperands op left right).toList.count '(' =
      left.toList.count '(' + right.toList.count '(' := by
  rcases isSpaced_or_eq_power hop with hspaced | rfl
  · rcases hspaced with (rfl | rfl) | (rfl | rfl)
    all_goals simp [joinOperands]
  · simp [joinOperands]

theorem count_numberText {x : Float} (hnan : x.isNaN = false) (hneg : isNegative x = false) :
    (numberText x).toList.count '(' = 0 := by
  by_cases hinf : x.isInf = true
  · rw [eq_infinity hinf hneg, numberText_infinity]
    decide
  · have hfinite : x.isFinite = true := isFinite_of_isInf_eq_false hnan (by simpa using hinf)
    obtain ⟨n, htext, -⟩ := exists_numeral_numberText hfinite hneg
    rw [htext, (spells_numeral n).count_openParen]
    rfl

theorem count_imaginaryText {x : Float} (hnan : x.isNaN = false) (hneg : isNegative x = false) :
    (imaginaryText x).toList.count '(' = 0 := by
  by_cases hinf : x.isInf = true
  · rw [eq_infinity hinf hneg, imaginaryText_infinity]
    decide
  · have hfinite : x.isFinite = true := isFinite_of_isInf_eq_false hnan (by simpa using hinf)
    rw [imaginaryText_of_isFinite hfinite, List.count_append, count_numberText hnan hneg]
    rfl

theorem count_name {name : String} (h : lexemeOf? name = some (.var name) ∨
    lexemeOf? name = some (.function name)) : name.toList.count '(' = 0 := by
  rcases h with h | h
  all_goals
    rw [(Cut.of_lexemeOf? h).count_openParen]
    rfl

mutual

/-- The text of a tree that was read has its openings. -/
theorem count_text : ∀ e : Expr, e.Everywhere IsRead → (text e).toList.count '(' = openings e
  | .number _, h => count_numberText h.1 h.2
  | .imaginary _, h => count_imaginaryText h.1 h.2
  | .constant _, h => (spells_constant h).count_openParen
  | .var _, h => count_name (.inl h)
  | .negate e, h => by
      rw [text, openings, String.toList_append, List.count_append, count_wrapIf,
        count_text e h.2]
      exact Nat.zero_add _
  | .binary op l r, h => by
      rw [text, openings, count_joinOperands h.1, count_wrapIf, count_wrapIf,
        count_text l h.2.1, count_text r h.2.2]
  | .call name args, h => by
      have hargs := count_textAll args h.2
      rw [text, openings, String.toList_append, List.count_append, count_name h.1, ← hargs]
      simp [wrap]
  | .blank, h => h.elim
  | .foreign .., h => h.elim

theorem count_textAll : ∀ es : List Expr, EverywhereAll IsRead es →
    (commaSeparated (textAll es)).toList.count '(' = openingsAll es
  | [], _ => rfl
  | [e], h => by
      rw [openingsAll, ← count_text e h.1]
      simp [textAll, commaSeparated, openingsAll]
  | e :: f :: rest, h => by
      rw [openingsAll, ← count_text e h.1, ← count_textAll (f :: rest) h.2]
      simp [textAll, commaSeparated]

end

/-! ## Where parentheses are printed -/

theorem isSign_of_precedence {e : Expr} (h : precedence e = 3) :
    (isNegation e || isNegativeLiteral e) = true := by
  cases e with
  | negate => rfl
  | number x =>
      rw [precedence_number] at h
      split at h
      case isTrue hneg => exact hneg
      case isFalse => cases h
  | imaginary x =>
      rw [precedence_imaginary] at h
      split at h
      case isTrue hneg => exact hneg
      case isFalse => cases h
  | binary op l r =>
      change operatorPrecedence op = 3 at h
      unfold operatorPrecedence operatorPrecedence? at h
      split at h <;> cases h
  | _ => cases h

theorem one_le_precedence (e : Expr) : 1 ≤ precedence e := by
  cases e with
  | binary op l r =>
      change 1 ≤ operatorPrecedence op
      unfold operatorPrecedence operatorPrecedence?
      split <;> decide
  | number x => rw [precedence_number]; split <;> decide
  | imaginary x => rw [precedence_imaginary]; split <;> decide
  | negate => exact (by decide : 1 ≤ 3)
  | _ => exact (by decide : 1 ≤ 5)

theorem wrapsUnderSign_eq (e : Expr) : wrapsUnderSign e = decide (precedence e < 3) := by
  cases e with
  | binary op l r =>
      change (op != "^") = decide (operatorPrecedence op < 3)
      by_cases hop : op = "^"
      · subst hop; rfl
      · unfold operatorPrecedence operatorPrecedence?
        split
        all_goals simp_all
  | number x => rw [precedence_number]; split <;> rfl
  | imaginary x => rw [precedence_imaginary]; split <;> rfl
  | _ => rfl

/-- Nothing is looser than a sum, so that its left operand needs no parentheses. -/
theorem wrapsLeft_additive {op : String} (h : IsAdditive op) (e : Expr) :
    wrapsLeft op e = false := by
  have hle := one_le_precedence e
  rcases h with rfl | rfl
  all_goals
    simp only [wrapsLeft, groupsRight, operatorPrecedence, operatorPrecedence?, Option.getD_some]
    simpa using Nat.ne_of_gt hle

theorem wrapsLeft_multiplicative {op : String} (h : IsMultiplicative op) (e : Expr) :
    wrapsLeft op e = decide (precedence e < 2) := by
  rcases h with rfl | rfl
  all_goals simp [wrapsLeft, groupsRight, operatorPrecedence, operatorPrecedence?]

theorem wrapsLeft_power (e : Expr) : wrapsLeft "^" e = decide (precedence e < 5) := by
  have hprec : operatorPrecedence "^" = 4 := rfl
  have hgroups : groupsRight "^" = true := rfl
  rw [wrapsLeft, hprec, hgroups, Bool.true_and, ← Bool.decide_or]
  exact decide_eq_decide.mpr (by omega)

/-- A sign binds tighter than sums and products, so only the looser operands are left. -/
theorem wrapsRight_spaced {op : String} (h : IsAdditive op ∨ IsMultiplicative op) (e : Expr) :
    wrapsRight op e = decide (precedence e < operatorPrecedence op + 1) := by
  have hle : operatorPrecedence op ≤ 2 := by
    rcases h with (rfl | rfl) | (rfl | rfl) <;> decide
  have hgroups : groupsRight op = false := by simpa [groupsRight] using (sign_of_spaced h).1
  have hsign : (isNegation e || isNegativeLiteral e) = true → precedence e = 3 :=
    precedence_of_sign
  unfold wrapsRight
  rw [hgroups]
  by_cases hloose : precedence e < operatorPrecedence op
  · have hnot : (isNegation e || isNegativeLiteral e) = false := by
      rw [Bool.eq_false_iff]
      intro htrue
      have := hsign htrue
      omega
    rw [Bool.or_eq_false_iff] at hnot
    simp [hloose, hnot.1, hnot.2, Nat.lt_succ_of_lt hloose]
  · by_cases heq : precedence e = operatorPrecedence op
    · simp [heq]
    · have hnot : ¬ precedence e < operatorPrecedence op + 1 := by omega
      simp [hloose, heq, hnot]

theorem wrapsRight_power (e : Expr) : wrapsRight "^" e = decide (precedence e < 3) := by
  have hprec : operatorPrecedence "^" = 4 := rfl
  have hgroups : groupsRight "^" = true := rfl
  unfold wrapsRight
  rw [hprec, hgroups]
  by_cases hsign : (isNegation e || isNegativeLiteral e) = true
  · have hthree := precedence_of_sign hsign
    rw [Bool.or_eq_true] at hsign
    rcases hsign with hsign | hsign <;> simp [hthree, hsign]
  · have hthree : precedence e ≠ 3 := fun h => hsign (isSign_of_precedence h)
    rw [Bool.not_eq_true, Bool.or_eq_false_iff] at hsign
    have hiff : precedence e < 4 ↔ precedence e < 3 := by omega
    simp [hsign.1, hsign.2, hiff]

/-! ## No phrase has fewer -/

/-- How many opening parentheses a phrase needs: those of its tree, and one more if the tree is
looser than the place of the phrase. -/
def Phrase.openings : Phrase → Nat
  | sum e => e.openings
  | product e => e.openings + (decide (e.precedence < 2)).toNat
  | signed e => e.openings + (decide (e.precedence < 3)).toNat
  | power e => e.openings + (decide (e.precedence < 4)).toNat
  | atom e => e.openings + (decide (e.precedence < 5)).toNat
  | arguments es => openingsAll es

theorem toNat_decide_lt_mono (n : Nat) {k m : Nat} (h : k ≤ m) :
    (decide (n < k)).toNat ≤ (decide (n < m)).toNat :=
  Bool.toNat_le_toNat fun hk => decide_eq_true (Nat.lt_of_lt_of_le (of_decide_eq_true hk) h)

section Operators

variable {op : String} {a b : Expr}

theorem openings_sum (h : IsAdditive op) :
    (Phrase.sum (binary op a b)).openings = (Phrase.sum a).openings + (Phrase.product b).openings := by
  have hprec : operatorPrecedence op = 1 := by rcases h with rfl | rfl <;> rfl
  simp only [Phrase.openings, openings]
  rw [wrapsLeft_additive h, wrapsRight_spaced (.inl h), hprec, Bool.toNat_false, Nat.add_zero]

theorem openings_product (h : IsMultiplicative op) : (Phrase.product (binary op a b)).openings =
    (Phrase.product a).openings + (Phrase.signed b).openings := by
  have hprec : operatorPrecedence op = 2 := by rcases h with rfl | rfl <;> rfl
  have hplace : precedence (binary op a b) = 2 := hprec
  simp only [Phrase.openings, openings]
  rw [wrapsLeft_multiplicative h, wrapsRight_spaced (.inr h), hprec, hplace]
  exact Nat.add_zero _

theorem openings_power : (Phrase.power (binary "^" a b)).openings =
    (Phrase.atom a).openings + (Phrase.signed b).openings := by
  have hplace : precedence (binary "^" a b) = 4 := rfl
  simp only [Phrase.openings, openings]
  rw [wrapsLeft_power, wrapsRight_power, hplace]
  exact Nat.add_zero _

theorem openings_signed : (Phrase.signed (negate a)).openings = (Phrase.signed a).openings := by
  have hplace : precedence (negate a) = 3 := rfl
  simp only [Phrase.openings, openings]
  rw [wrapsUnderSign_eq, hplace]
  exact Nat.add_zero _

/-- Around an operator the parentheses of both sides are counted. -/
theorem count_around (ls rs : List Lexeme) : (ls ++ .operator op :: rs).count .openParen =
    ls.count .openParen + rs.count .openParen := by
  rw [List.count_append, List.count_cons_of_ne (by simp)]

end Operators

/-- Lexemes have at least the parentheses that the phrase needs which they form. -/
theorem Derives.openings_le {ls : List Lexeme} {phrase : Phrase} (h : Derives ls phrase)
    (hproper : ∀ l ∈ ls, IsProper l) : phrase.openings ≤ ls.count .openParen := by
  induction h with
  | product _ ih => exact (Nat.le_add_right _ _).trans (ih hproper)
  | @signed _ e _ ih =>
      have hplace := toNat_decide_lt_mono e.precedence (by decide : 2 ≤ 3)
      exact (Nat.add_le_add_left hplace _).trans (ih hproper)
  | @power _ e _ ih =>
      have hplace := toNat_decide_lt_mono e.precedence (by decide : 3 ≤ 4)
      exact (Nat.add_le_add_left hplace _).trans (ih hproper)
  | @atom _ e _ ih =>
      have hplace := toNat_decide_lt_mono e.precedence (by decide : 4 ≤ 5)
      exact (Nat.add_le_add_left hplace _).trans (ih hproper)
  | @add ls rs op a b _ hop _ iha ihb =>
      obtain ⟨hls, hrs⟩ := List.forall_mem_append.mp hproper
      rw [openings_sum hop, count_around]
      exact Nat.add_le_add (iha hls) (ihb (List.forall_mem_cons.mp hrs).2)
  | @multiply ls rs op a b _ hop _ iha ihb =>
      obtain ⟨hls, hrs⟩ := List.forall_mem_append.mp hproper
      rw [openings_product hop, count_around]
      exact Nat.add_le_add (iha hls) (ihb (List.forall_mem_cons.mp hrs).2)
  | @raise ls rs a b _ _ iha ihb =>
      obtain ⟨hls, hrs⟩ := List.forall_mem_append.mp hproper
      rw [openings_power, count_around]
      exact Nat.add_le_add (iha hls) (ihb (List.forall_mem_cons.mp hrs).2)
  | @minus ls e _ ih =>
      rw [openings_signed, List.count_cons_of_ne (by simp)]
      exact ih (List.forall_mem_cons.mp hproper).2
  | plus _ ih =>
      rw [List.count_cons_of_ne (by simp)]
      exact ih (List.forall_mem_cons.mp hproper).2
  | number x | imaginary x =>
      -- literals that are read have no sign, which would make them looser than an atom
      obtain ⟨-, hneg⟩ := hproper _ List.mem_cons_self
      simp [Phrase.openings, openings, precedence_number, precedence_imaginary, hneg]
  | constant name | var name => exact Nat.zero_le _
  | emptyCall hname =>
      cases hname
      all_goals exact Nat.le_of_eq rfl
  | @call l name ls es hname _ ih =>
      obtain ⟨-, hinside⟩ := List.forall_mem_cons.mp hproper
      have hargs := ih (List.forall_mem_append.mp (List.forall_mem_cons.mp hinside).2).1
      have hplace : precedence (.call name es) = 5 := rfl
      have hcount : (l :: enclosed ls).count .openParen = ls.count .openParen + 1 := by
        cases hname <;> simp
      rw [hcount]
      simp only [Phrase.openings, openings, hplace] at hargs ⊢
      exact Nat.succ_le_succ hargs
  | @group ls e _ ih =>
      have hinside := ih (List.forall_mem_append.mp (List.forall_mem_cons.mp hproper).2).1
      have hcount : (enclosed ls).count .openParen = ls.count .openParen + 1 := by simp
      rw [hcount]
      exact Nat.add_le_add hinside (Bool.toNat_le _)
  | argument _ ih => exact ih hproper
  | @nextArgument ls rs es e _ _ ihes ihe =>
      obtain ⟨hls, hrs⟩ := List.forall_mem_append.mp hproper
      have hopenings : openingsAll (es ++ [e]) = openingsAll es + openings e := by
        rw [openingsAll_append, openingsAll, openingsAll, Nat.add_zero]
      have hcount : (ls ++ .comma :: rs).count .openParen =
          ls.count .openParen + rs.count .openParen := by
        rw [List.count_append, List.count_cons_of_ne (by simp)]
      change openingsAll (es ++ [e]) ≤ _
      rw [hopenings, hcount]
      exact Nat.add_le_add (ihes hls) (ihe (List.forall_mem_cons.mp hrs).2)

/-- A text that is read as a tree has at least the parentheses that are printed of the tree. -/
theorem openings_le_count {plain : String} {e : Expr} (h : ofPlain plain = .ok e) :
    openings e ≤ plain.toList.count '(' := by
  obtain ⟨ls, hscans, hproper, hderives⟩ := derives_of_ofPlain h
  have hle := hderives.openings_le hproper
  have hcount : (ls ++ [Lexeme.finish]).count Lexeme.openParen = ls.count Lexeme.openParen := by
    simp
  rwa [hscans.cut.count_openParen, hcount]

/-- The text of a tree that was read from a text has the fewest parentheses of all texts in plain
notation that are read as the same tree. So without one pair of them, whichever it is, the text is
read as another tree, or not at all. -/
theorem ofText_print_without_pair {source : String} {e : Expr} (h : ofText source = .ok e) :
    ∃ written, e.print = .ok written ∧ ofText written = .ok (nameInfinity e) ∧
      (∀ plain, ofPlain plain = .ok (nameInfinity e) →
        written.toList.count '(' ≤ plain.toList.count '(') ∧
      ∀ before inside after, written.toList = before ++ '(' :: (inside ++ ')' :: after) →
        ofText (String.ofList (before ++ (inside ++ after))) ≠ .ok (nameInfinity e) := by
  have hread := isRead_of_ofText h
  have hagain := isRead_nameInfinity e hread
  have hspellable := hread.mono isSpellable_of_isRead
  have hcount : (text e).toList.count '(' = openings (nameInfinity e) := by
    rw [← text_nameInfinity e hread, count_text _ hagain]
  have hwritten : ofText (text e) = .ok (nameInfinity e) := by
    rw [ofText_text hspellable, reread_of_isRead e hread]
  have hleast : ∀ plain, ofPlain plain = .ok (nameInfinity e) →
      (text e).toList.count '(' ≤ plain.toList.count '(' :=
    fun plain hplain => hcount ▸ openings_le_count hplain
  refine ⟨text e, print_eq_text hspellable, hwritten, hleast, ?_⟩
  intro before inside after hparts hsame
  have hplain : Latex.plainOf (String.ofList (before ++ (inside ++ after))) =
      .ok (String.ofList (before ++ (inside ++ after))) := by
    -- nothing has been added to a text in plain notation
    apply plainOf_of_not_isMarkup
    obtain ⟨ls, hlexes, -⟩ := writes_text e hspellable
    intro c hc
    apply hlexes.scans.cut.not_isMarkup c
    rw [hparts]
    rw [String.toList_ofList] at hc
    rcases List.mem_append.mp hc with hc | hc
    · exact List.mem_append_left _ hc
    · rcases List.mem_append.mp hc with hc | hc <;> simp [hc]
  have hfewer : (text e).toList.count '(' = (before ++ (inside ++ after)).count '(' + 1 := by
    simp only [hparts, List.count_append, List.count_cons]
    simp
    omega
  rw [ofText_of_plain hplain] at hsame
  have hle := hleast _ hsame
  rw [String.toList_ofList] at hle
  omega

/-- The tree of `2^(-(x+1)*3)`: one pair of its parentheses stands inside the other one. -/
private def signedSum : Expr :=
  .binary "^" (.number 2.0)
    (.binary "*" (.negate (.binary "+" (.var "x") (.number 1.0))) (.number 3.0))

private def signedSumTokens : List Token :=
  [⟨.number 2.0, 0, none⟩, ⟨.operator "^", 1, none⟩, ⟨.openParen, 2, none⟩,
    ⟨.operator "-", 3, none⟩, ⟨.openParen, 4, none⟩, ⟨.var "x", 5, none⟩, ⟨.operator "+", 6, none⟩,
    ⟨.number 1.0, 7, none⟩, ⟨.closeParen, 8, none⟩, ⟨.operator "*", 9, none⟩, ⟨.number 3.0, 10, none⟩,
    ⟨.closeParen, 11, none⟩, ⟨.finish, 12, none⟩]

theorem ofText_print_without_pair_signedSum :
    ofText "2^(-(x+1)*3)" = .ok signedSum ∧
      ∃ written, signedSum.print = .ok written ∧ ofText written = .ok (nameInfinity signedSum) ∧
        (∀ plain, ofPlain plain = .ok (nameInfinity signedSum) →
          written.toList.count '(' ≤ plain.toList.count '(') ∧
        ∀ before inside after, written.toList = before ++ '(' :: (inside ++ ')' :: after) →
          ofText (String.ofList (before ++ (inside ++ after))) ≠
            .ok (nameInfinity signedSum) := by
  have htokens : (tokenize "2^(-(x+1)*3)").toOption = some signedSumTokens := by decide +kernel
  have hread : ofText "2^(-(x+1)*3)" = .ok signedSum :=
    ofText_of_tokens (by decide) htokens (by rfl)
  exact ⟨hread, ofText_print_without_pair hread⟩

end Expr

end Reckoner
