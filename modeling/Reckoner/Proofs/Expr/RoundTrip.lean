import Reckoner.Proofs.Expr.Printing
import Reckoner.Proofs.Expr.Soundness

/-!
# Round trips

The text of a tree that can be written is read as what `reread` says. A tree that was read from
a text can be written, and its text is read as the same tree, in which infinity is written by
its name.
-/

namespace Reckoner.Expr

open Reckoner.Token Reckoner.Text Reckoner.Double

/-! ## Reading what is written -/

theorem plainOf_of_not_isMarkup {text : String} (h : ∀ c ∈ text.toList, ¬ IsMarkup c) :
    Latex.plainOf text = .ok text := by
  have hplain : Latex.isMarkup text = false := by
    unfold Latex.isMarkup
    rw [List.any_eq_false]
    intro c hc
    have hmarkup := h c hc
    simpa [IsMarkup] using hmarkup
  unfold Latex.plainOf
  rw [hplain]
  rfl

theorem plainOf_of_scans {text : String} {ls : List Lexeme} (h : Scans text.toList ls) :
    Latex.plainOf text = .ok text := plainOf_of_not_isMarkup h.cut.not_isMarkup

theorem ofPlain_of_tokens {text : String} {tokens : List Token} {e : Expr}
    (htokens : tokenize text = .ok tokens) (htree : ofTokens tokens = .ok e) :
    ofPlain text = .ok e := by
  unfold ofPlain ofTokensOf
  rw [htokens]
  change (ofTokens tokens).mapError (·.within text) = .ok e
  rw [htree]
  rfl

theorem ofPlain_of_derives {text : String} {ls : List Lexeme} {e : Expr}
    (h : Scans text.toList (ls ++ [.finish])) (hderives : Derives ls (.sum e)) :
    ofPlain text = .ok e := by
  obtain ⟨tokens, htokens, hlexemes⟩ := scans_iff_tokenize.mp h
  obtain ⟨read, last, rfl, hread, hlast⟩ := List.map_eq_append_iff.mp hlexemes
  obtain ⟨finish, rfl, hfinish⟩ := List.map_eq_singleton_iff.mp hlast
  exact ofPlain_of_tokens htokens (ofTokens_of_derives (hread ▸ hderives) hfinish)

theorem ofText_of_plain {text plain : String} (h : Latex.plainOf text = .ok plain) :
    ofText text = ofPlain plain := by
  unfold ofText
  rw [h]
  rfl

/-- A text without markup is read as the tree of its tokens. -/
theorem ofText_of_tokens {text : String} {tokens : List Token} {e : Expr}
    (hmarkup : Latex.isMarkup text = false) (htokens : (tokenize text).toOption = some tokens)
    (htree : ofTokens tokens = .ok e) : ofText text = .ok e := by
  have hplain : Latex.plainOf text = .ok text := by
    unfold Latex.plainOf
    rw [hmarkup]
    rfl
  cases hresult : tokenize text with
  | error error => rw [hresult] at htokens; cases htokens
  | ok found =>
      rw [hresult] at htokens
      cases htokens
      rw [ofText_of_plain hplain]
      exact ofPlain_of_tokens hresult htree

theorem ofText_of_writes {text : String} {e : Expr} (h : Writes text.toList (.sum e)) :
    ofText text = .ok e := by
  obtain ⟨ls, hlexes, hderives⟩ := h
  rw [ofText_of_plain (plainOf_of_scans hlexes.scans)]
  exact ofPlain_of_derives hlexes.scans hderives

/-- The text of a tree that can be written is read as what its literals and names are read as. -/
theorem ofText_text {e : Expr} (h : e.Everywhere IsSpellable) :
    ofText (text e) = .ok (reread e) :=
  ofText_of_writes (Writes.mono (m := 0) (Nat.zero_le _) (writes_text e h))

/-! ## Trees that were read -/

/-- A node as reading makes it: numbers without signs, the known operators and constants, and
names that are read as themselves. -/
def IsRead : Expr → Prop
  | number x | imaginary x => x.isNaN = false ∧ isNegative x = false
  | constant name => Constant.isName name = true
  | var name => lexemeOf? name = some (.var name)
  | negate _ => True
  | binary op _ _ => op ∈ ["+", "-", "*", "/", "^"]
  | call name _ => lexemeOf? name = some (.var name) ∨ lexemeOf? name = some (.function name)
  | blank | foreign .. => False

theorem inherits_isRead : Inherits IsProper IsRead where
  number _ h := h
  imaginary _ h := h
  constant _ h := h
  var _ h := Spells.lexemeOf? h
  negate _ := trivial
  binary _ _ _ h := h
  call l name _ hname h := by
    cases hname with
    | var => exact .inl (Spells.lexemeOf? h)
    | function => exact .inr (Spells.lexemeOf? h)

theorem isSpellable_of_isRead (e : Expr) (h : IsRead e) : IsSpellable e := by
  cases e with
  | number | imaginary | negate => trivial
  | constant name => exact h
  | var name => exact ⟨name, .inl h⟩
  | binary op l r => exact h
  | call name args => exact ⟨name, h⟩
  | blank | foreign => exact h.elim

/-- A node that was read has no defect. -/
theorem nodeDefect?_of_isRead {e : Expr} (h : IsRead e) : nodeDefect? e = none := by
  have hne {name : String} {l : Lexeme} (hname : lexemeOf? name = some l) : name ≠ "" := by
    rintro rfl
    have hempty : lexemeOf? "" = none := by decide
    rw [hempty] at hname
    cases hname
  cases e with
  | number | imaginary | negate => rfl
  | constant name => exact nodeDefect?_constant.mpr h
  | var name => exact if_neg (hne h)
  | call name args =>
      rcases h with h | h
      all_goals exact if_neg (hne h)
  | binary op l r =>
      have hknown : ∀ sign ∈ ["+", "-", "*", "/", "^"], (Operator.ofSymbol? sign).isSome = true := by
        decide
      exact nodeDefect?_binary.mpr (hknown op h)
  | blank | foreign => exact h.elim

/-- A run of characters whose tokens are read has proper lexemes, and the tree is the one that they
derive. -/
theorem derives_of_ofTokensOf {text : String} {position : Int} {cs : List Char}
    {tokens : List Token} {e : Expr} (hscan : scan position cs = .ok tokens)
    (h : ofTokensOf text tokens = .ok e) :
    ∃ ls, Scans cs (ls ++ [.finish]) ∧ (∀ l ∈ ls, IsProper l) ∧ Derives ls (.sum e) := by
  have hscans := scans_of_scan hscan
  obtain ⟨ls, hls, hproper⟩ := hscans.cut.isProper
  rw [hls] at hscans
  obtain ⟨read, last, rfl, rfl, hlast⟩ := List.map_eq_append_iff.mp hls
  obtain ⟨finish, rfl, hfinish⟩ := List.map_eq_singleton_iff.mp hlast
  have honly : ∀ token ∈ read, token.lexeme ≠ .finish := by
    intro token htoken heq
    have hfin := hproper _ (List.mem_map_of_mem htoken)
    rw [heq] at hfin
    exact hfin
  exact ⟨_, hscans, hproper, derives_of_ofTokens hfinish honly (mapError_eq_ok h)⟩

theorem derives_of_ofPlain {text : String} {e : Expr} (h : ofPlain text = .ok e) :
    ∃ ls, Scans text.toList (ls ++ [.finish]) ∧ (∀ l ∈ ls, IsProper l) ∧ Derives ls (.sum e) := by
  obtain ⟨tokens, htokens, htree⟩ := exists_of_bind_eq_ok h
  rw [tokenize_eq] at htokens
  exact derives_of_ofTokensOf (mapError_eq_ok htokens) htree

theorem isRead_of_ofTokensOf {text : String} {position : Int} {cs : List Char}
    {tokens : List Token} {e : Expr} (hscan : scan position cs = .ok tokens)
    (h : ofTokensOf text tokens = .ok e) : e.Everywhere IsRead := by
  obtain ⟨ls, -, hproper, hderives⟩ := derives_of_ofTokensOf hscan h
  exact hderives.everywhere inherits_isRead hproper

theorem isRead_of_ofPlain {text : String} {e : Expr} (h : ofPlain text = .ok e) :
    e.Everywhere IsRead := by
  obtain ⟨tokens, htokens, htree⟩ := exists_of_bind_eq_ok h
  rw [tokenize_eq] at htokens
  exact isRead_of_ofTokensOf (mapError_eq_ok htokens) htree

/-- Every node of a tree that was read is as reading makes it. -/
theorem isRead_of_ofText {text : String} {e : Expr} (h : ofText text = .ok e) :
    e.Everywhere IsRead := by
  obtain ⟨plain, -, hplain⟩ := exists_of_bind_eq_ok h
  exact isRead_of_ofPlain hplain

/-! ## Infinity by its name -/

mutual

/-- The tree in which the name of infinity stands for infinite numbers. -/
def nameInfinity : Expr → Expr
  | number x => if x.isInf then constant Constant.inf.name else number x
  | negate e => negate (nameInfinity e)
  | binary op l r => binary op (nameInfinity l) (nameInfinity r)
  | call name args => call name (nameInfinityAll args)
  | e => e

/-- The arguments in which the name of infinity stands for infinite numbers. -/
def nameInfinityAll : List Expr → List Expr
  | [] => []
  | e :: rest => nameInfinity e :: nameInfinityAll rest

end

theorem rereadCall_of_isRead {name : String} {args : List Expr} (h : IsRead (.call name args)) :
    rereadCall name = name := by
  unfold rereadCall
  rcases h with hname | hname <;> rw [hname]

mutual

theorem reread_of_isRead : ∀ e : Expr, e.Everywhere IsRead → reread e = nameInfinity e
  | .number _, h => rereadNumber_eq h.1 h.2
  | .imaginary _, h => rereadImaginary_eq h.1 h.2
  | .constant _, _ => rfl
  | .var name, h => by
      have hname : lexemeOf? name = some (.var name) := h
      rw [reread, rereadName, hname]
      rfl
  | .negate e, h => by
      rw [reread, nameInfinity, reread_of_isRead e h.2]
  | .binary _ l r, h => by
      rw [reread, nameInfinity, reread_of_isRead l h.2.1, reread_of_isRead r h.2.2]
  | .call name args, h => by
      rw [reread, nameInfinity, rereadCall_of_isRead h.1, rereadAll_of_isRead args h.2]
  | .blank, h => h.elim
  | .foreign .., h => h.elim

theorem rereadAll_of_isRead : ∀ es : List Expr, EverywhereAll IsRead es →
    rereadAll es = nameInfinityAll es
  | [], _ => rfl
  | e :: rest, h => by
      rw [rereadAll, nameInfinityAll, reread_of_isRead e h.1, rereadAll_of_isRead rest h.2]

end

/-- The name of infinity stands with the same parentheses as the number. -/
theorem shape_nameInfinity {e : Expr} (h : IsRead e) :
    precedence (nameInfinity e) = precedence e ∧ isNegation (nameInfinity e) = isNegation e ∧
      isNegativeLiteral (nameInfinity e) = isNegativeLiteral e ∧
      wrapsUnderSign (nameInfinity e) = wrapsUnderSign e := by
  cases e with
  | number x =>
      have hneg : isNegative x = false := h.2
      rw [nameInfinity]
      split
      · have hliteral : isNegativeLiteral (.number x) = false := hneg
        rw [precedence_number, hneg, hliteral]
        exact ⟨rfl, rfl, rfl, rfl⟩
      · exact ⟨rfl, rfl, rfl, rfl⟩
  | _ => exact ⟨rfl, rfl, rfl, rfl⟩

theorem Everywhere.here {p : Expr → Prop} {e : Expr} (h : e.Everywhere p) : p e := by
  cases e with
  | negate | binary | call => exact h.1
  | _ => exact h

mutual

theorem text_nameInfinity : ∀ e : Expr, e.Everywhere IsRead → text (nameInfinity e) = text e
  | .number x, h => by
      obtain ⟨-, hneg⟩ : x.isNaN = false ∧ isNegative x = false := h
      rw [nameInfinity]
      split
      case isTrue hinf =>
          rw [eq_infinity hinf hneg, text, text, numberText_infinity]
          rfl
      case isFalse => rfl
  | .negate e, h => by
      obtain ⟨-, -, -, hwraps⟩ := shape_nameInfinity h.2.here
      rw [nameInfinity, text, text, hwraps, text_nameInfinity e h.2]
  | .binary op l r, h => by
      obtain ⟨hleft, -⟩ := shape_nameInfinity h.2.1.here
      obtain ⟨hright, hnegation, hliteral, -⟩ := shape_nameInfinity h.2.2.here
      have hwrapsLeft : wrapsLeft op (nameInfinity l) = wrapsLeft op l := by
        unfold wrapsLeft
        rw [hleft]
      have hwrapsRight : wrapsRight op (nameInfinity r) = wrapsRight op r := by
        unfold wrapsRight
        rw [hright, hnegation, hliteral]
      rw [nameInfinity, text, text, hwrapsLeft, hwrapsRight, text_nameInfinity l h.2.1,
        text_nameInfinity r h.2.2]
  | .call name args, h => by
      rw [nameInfinity, text, text, textAll_nameInfinityAll args h.2]
  | .imaginary _, _ | .constant _, _ | .var _, _ | .blank, _ | .foreign .., _ => rfl

theorem textAll_nameInfinityAll : ∀ es : List Expr, EverywhereAll IsRead es →
    textAll (nameInfinityAll es) = textAll es
  | [], _ => rfl
  | e :: rest, h => by
      rw [nameInfinityAll, textAll, textAll, text_nameInfinity e h.1,
        textAll_nameInfinityAll rest h.2]

end

mutual

theorem isRead_nameInfinity : ∀ e : Expr, e.Everywhere IsRead →
    (nameInfinity e).Everywhere IsRead
  | .number x, h => by
      rw [nameInfinity]
      split
      · exact (by decide : Constant.isName Constant.inf.name = true)
      · exact h
  | .negate e, h => ⟨trivial, isRead_nameInfinity e h.2⟩
  | .binary _ l r, h => ⟨h.1, isRead_nameInfinity l h.2.1, isRead_nameInfinity r h.2.2⟩
  | .call _ args, h => ⟨h.1, isRead_nameInfinityAll args h.2⟩
  | .imaginary _, h | .constant _, h | .var _, h | .blank, h | .foreign .., h => h

theorem isRead_nameInfinityAll : ∀ es : List Expr, EverywhereAll IsRead es →
    EverywhereAll IsRead (nameInfinityAll es)
  | [], _ => trivial
  | e :: rest, h => ⟨isRead_nameInfinity e h.1, isRead_nameInfinityAll rest h.2⟩

end

/-- A tree that was read from a text can be written. Its text is read as the same tree, in which
infinite numbers have become the name of infinity, and that tree has the same text. -/
theorem ofText_print {source : String} {e : Expr} (h : ofText source = .ok e) :
    ∃ written, e.print = .ok written ∧ ofText written = .ok (nameInfinity e) ∧
      (nameInfinity e).print = .ok written := by
  have hread := isRead_of_ofText h
  have hspellable := hread.mono isSpellable_of_isRead
  have hagain := (isRead_nameInfinity e hread).mono isSpellable_of_isRead
  refine ⟨text e, print_eq_text hspellable, ?_, ?_⟩
  · rw [ofText_text hspellable, reread_of_isRead e hread]
  · rw [print_eq_text hagain, text_nameInfinity e hread]

/-- The tree of `-2^-(1e999-x)*3i`. -/
private def infinitePower : Expr :=
  .binary "*" (.negate (.binary "^" (.number 2.0)
    (.negate (.binary "-" (.number infinity) (.var "x"))))) (.imaginary 3.0)

private def infinitePowerTokens : List Token :=
  [⟨.operator "-", 0, none⟩, ⟨.number 2.0, 1, none⟩, ⟨.operator "^", 2, none⟩,
    ⟨.operator "-", 3, none⟩, ⟨.openParen, 4, none⟩, ⟨.number infinity, 5, none⟩,
    ⟨.operator "-", 10, none⟩, ⟨.var "x", 11, none⟩, ⟨.closeParen, 12, none⟩,
    ⟨.operator "*", 13, none⟩, ⟨.imaginary 3.0, 14, none⟩, ⟨.finish, 16, none⟩]

theorem ofText_print_infinitePower :
    ofText "-2^-(1e999-x)*3i" = .ok infinitePower ∧
      ∃ written, infinitePower.print = .ok written ∧
        ofText written = .ok (nameInfinity infinitePower) ∧
        (nameInfinity infinitePower).print = .ok written := by
  have htokens : (tokenize "-2^-(1e999-x)*3i").toOption = some infinitePowerTokens := by
    decide +kernel
  have hplain : Latex.plainOf "-2^-(1e999-x)*3i" = .ok "-2^-(1e999-x)*3i" := by
    rw [Latex.plainOf, if_neg (by decide)]
  have hread : ofText "-2^-(1e999-x)*3i" = .ok infinitePower := by
    cases hresult : tokenize "-2^-(1e999-x)*3i" with
    | error e => rw [hresult] at htokens; cases htokens
    | ok tokens =>
        rw [hresult] at htokens
        cases htokens
        have htree : ofTokens infinitePowerTokens = .ok infinitePower := by rfl
        rw [ofText_of_plain hplain]
        exact ofPlain_of_tokens hresult htree
  exact ⟨hread, ofText_print hread⟩

end Reckoner.Expr
