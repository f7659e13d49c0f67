import Reckoner.Console.Basic
import Reckoner.Proofs.Expr.Sides
import Reckoner.Proofs.Expr.Soundness
import Reckoner.Proofs.Latex.Application

/-!
# Formulas that are in plain notation already

Writing a formula anew changes three things where there is no markup: brackets, blanks in front of
an operand that is multiplied, and nothing else. Without brackets nothing is changed where no
operand begins behind a closing parenthesis, for only there a multiplication sign is put in. Such a
text is called settled. What the parser reads is settled: behind a closing parenthesis it waits for
an operator, a comma, another closing parenthesis or the end.
-/

namespace Reckoner.Latex

open Reckoner.Text Reckoner.Token

/-- The signs between operands. -/
def signs : List Char := ['+', '-', '*', '/', '^', '×', '÷', ',', '=']

/-- The text has no markup and no brackets, and no operand in it begins behind a closing
parenthesis. The index tells whether the text itself stands behind one. -/
inductive Settled : Bool → List Char → Prop
  | nil {closed} : Settled closed []
  | blank {closed c rest} (h : isBlank c = true) (hrest : Settled closed rest) :
      Settled closed (c :: rest)
  | operand {c rest} (h : isPlain c = true ∨ c = '_') (hrest : Settled false rest) :
      Settled false (c :: rest)
  | opening {rest} (hrest : Settled false rest) : Settled false ('(' :: rest)
  | closing {closed rest} (hrest : Settled true rest) : Settled closed (')' :: rest)
  | sign {closed c rest} (h : c ∈ signs) (hrest : Settled false rest) : Settled closed (c :: rest)

variable {closed : Bool} {cs rest run : List Char} {c : Char}

/-! ## Writing -/

/-- Whether what has been written ends with a closing parenthesis. -/
structure Leaves (closed : Bool) (out : Output) : Prop where
  afterFunction : out.afterFunction = false
  closed : (out.operandEnd && out.commandEnd) = closed

/-- The edit writes the piece as it is. -/
def Copies (closed : Bool) (piece : List Char) (after : Bool) (e : Edit) : Prop :=
  ∀ out, Leaves closed out → Leaves after (e.apply out) ∧ (e.apply out).text = out.text ++ piece

theorem Leaves.before {out : Output} (h : Leaves false out) : out.before false = out := by
  have hnone : (out.operandEnd && !out.afterFunction && (false || out.commandEnd)) = false := by
    have hclosed := h.closed
    rw [h.afterFunction]
    simpa using hclosed
  rw [Output.before, hnone]
  rfl

theorem copies_append (closed : Bool) (piece : List Char) :
    Copies closed piece closed (.append piece) :=
  fun out h => ⟨⟨h.afterFunction, h.closed⟩, Output.text_cons out piece⟩

theorem copies_closing (closed : Bool) (piece : List Char) :
    Copies closed piece true (.closing piece) :=
  fun out _ => ⟨⟨rfl, rfl⟩, Output.text_cons out piece⟩

theorem copies_operator (closed : Bool) (piece : List Char) :
    Copies closed piece false (.operator piece) :=
  fun out _ => ⟨⟨rfl, rfl⟩, Output.text_cons out piece⟩

theorem copies_operand (piece : List Char) : Copies false piece false (.operand piece false) := by
  intro out h
  rw [Edit.apply, Output.operand_eq, h.before]
  exact ⟨⟨rfl, rfl⟩, Output.text_cons out piece⟩

theorem copies_opening (piece : List Char) : Copies false piece false (.opening piece false) := by
  intro out h
  rw [Edit.apply, Output.opening, h.afterFunction, Output.operand_eq, h.before]
  exact ⟨⟨rfl, rfl⟩, Output.text_cons out piece⟩

/-- The text is written as it is. -/
def Kept (closed : Bool) (cs : List Char) : Prop :=
  ∃ es, Runs [] .piece cs es ∧ ∀ out, Leaves closed out →
    (Edit.applyAll out es).text = out.text ++ cs

theorem Kept.behind {after : Bool} {piece : List Char} {e : Edit} (h : Kept after rest)
    (hemits : Emits piece rest [e]) (hcopies : Copies closed piece after e) :
    Kept closed (piece ++ rest) := by
  obtain ⟨es, hruns, hrest⟩ := h
  refine ⟨[e] ++ es, .piece hemits hruns, fun out hout => ?_⟩
  obtain ⟨hleaves, htext⟩ := hcopies out hout
  rw [List.singleton_append, Edit.applyAll_cons, hrest _ hleaves, htext, List.append_assoc]

theorem mem_signs (h : c ∈ signs) : c = '^' ∨ IsSign c := by
  simp only [signs, List.mem_cons, List.not_mem_nil, or_false] at h
  rcases h with rfl | rfl | rfl | rfl | rfl | rfl | rfl | rfl | rfl
  case inr.inr.inr.inr.inl => exact .inl rfl
  all_goals exact .inr ⟨by decide, by decide, by decide⟩

theorem isPlain_of_mem_signs (h : c ∈ signs) : isPlain c = false := by
  rcases mem_signs h with rfl | hsign
  · decide
  · exact hsign.2.2

theorem Settled.no_brace (h : Settled closed cs) : '\x7b' ∉ cs := by
  induction h with
  | nil => exact List.not_mem_nil
  | blank h _ ih => exact List.not_mem_cons_of_ne_of_not_mem (ne_of_class h (by decide)).symm ih
  | operand h _ ih =>
      refine List.not_mem_cons_of_ne_of_not_mem ?_ ih
      rintro rfl
      revert h
      decide
  | opening _ ih | closing _ ih => exact
      List.not_mem_cons_of_ne_of_not_mem (by decide) ih
  | sign h _ ih =>
      refine List.not_mem_cons_of_ne_of_not_mem ?_ ih
      rintro rfl
      exact absurd h (by decide)

theorem Settled.head_ne_brace (h : Settled closed cs) {p : Char → Bool} :
    (cs.dropWhile p).head? ≠ some '\x7b' :=
  fun hbrace => h.no_brace ((List.dropWhile_sublist p).subset (List.mem_of_mem_head? hbrace))

theorem Settled.plain (h : Settled closed (c :: rest)) (hc : isPlain c = true) :
    closed = false ∧ Settled false rest := by
  cases h with
  | operand _ hrest => exact ⟨rfl, hrest⟩
  | blank hblank _ => rw [isBlank_of_isPlain hc] at hblank; cases hblank
  | opening _ | closing _ => exact absurd hc (by decide)
  | sign hsign _ => rw [isPlain_of_mem_signs hsign] at hc; cases hc

theorem Settled.behind_run (h : Settled false (run ++ rest))
    (hrun : ∀ c ∈ run, isPlain c = true) : Settled false rest := by
  induction run with
  | nil => exact h
  | cons c run ih =>
      rw [List.forall_mem_cons] at hrun
      exact ih (h.plain hrun.1).2 hrun.2

/-- By induction on the length of the text, since a run of letters and digits is one piece. -/
theorem Settled.kept (h : Settled closed cs) : Kept closed cs := by
  induction hn : cs.length using Nat.strongRecOn generalizing closed cs with
  | _ n ih =>
  subst hn
  cases h with
  | nil => exact ⟨[], .finish, fun out _ => (List.append_nil _).symm⟩
  | @blank _ c rest h hrest =>
      have hkept := ih rest.length (Nat.lt_succ_self _) hrest rfl
      exact hkept.behind (.blank h) (copies_append closed [c])
  | @opening rest hrest =>
      have hkept := ih rest.length (Nat.lt_succ_self _) hrest rfl
      exact hkept.behind (.opening (.inl rfl)) (copies_opening ['('])
  | @closing _ rest hrest =>
      have hkept := ih rest.length (Nat.lt_succ_self _) hrest rfl
      exact hkept.behind (.closing (.inl rfl)) (copies_closing closed [')'])
  | @sign _ c rest h hrest =>
      have hkept := ih rest.length (Nat.lt_succ_self _) hrest rfl
      refine hkept.behind ?_ (copies_operator closed [c])
      rcases mem_signs h with rfl | hsign
      · exact .raise hrest.head_ne_brace
      · exact .sign hsign
  | @operand c rest h hrest =>
      by_cases hplain : isPlain c = true
      case neg =>
          obtain rfl : c = '_' := h.resolve_left hplain
          have hkept := ih rest.length (Nat.lt_succ_self _) hrest rfl
          refine hkept.behind (.underscore fun hbrace => ?_) (copies_append false ['_'])
          exact hrest.no_brace (List.mem_of_mem_head? hbrace)
      case pos =>
          have hrun : ∀ d ∈ c :: rest.takeWhile isPlain, isPlain d = true :=
            List.forall_mem_cons.mpr ⟨hplain, fun d hd => List.mem_takeWhile_imp hd⟩
          have hparts : Settled false (rest.takeWhile isPlain ++ rest.dropWhile isPlain) := by
            rwa [List.takeWhile_append_dropWhile]
          have hbehind := hparts.behind_run (List.forall_mem_cons.mp hrun).2
          have hlength : (rest.dropWhile isPlain).length < (c :: rest).length :=
            Nat.lt_succ_of_le (List.dropWhile_suffix isPlain).length_le
          have hkept := (ih _ hlength hbehind rfl).behind
            (.run (List.cons_ne_nil c _) hrun (head_dropWhile isPlain rest)) (copies_operand _)
          rwa [List.cons_append, List.takeWhile_append_dropWhile] at hkept

theorem Settled.toPlain {text : String} (h : Settled false text.toList) :
    toPlain text = .ok text := by
  obtain ⟨es, hruns, hcopies⟩ := h.kept
  have hwritten := hruns.toPlain
  rw [Edit.text, hcopies {} ⟨rfl, rfl⟩, String.ofList_toList] at hwritten
  rw [hwritten]
  exact congrArg _ String.ofList_toList

/-! ## Reading -/

/-- Behind a closing parenthesis no operand begins. -/
def Continues : Lexeme → Prop
  | .operator _ | .closeParen | .comma | .finish => True
  | _ => False

/-- The second lexeme may stand behind the first one. -/
def Joins (l k : Lexeme) : Prop := l = .closeParen → Continues k

theorem isChain_append {ls ks : List Lexeme} (hls : ls.IsChain Joins) (hks : ks.IsChain Joins)
    (h : ∀ k ∈ ks.head?, Continues k) : (ls ++ ks).IsChain Joins :=
  List.isChain_append.mpr ⟨hls, hks, fun _ _ k hk _ => h k hk⟩

theorem isChain_cons {l : Lexeme} {ks : List Lexeme} (hks : ks.IsChain Joins)
    (h : l ≠ .closeParen) : (l :: ks).IsChain Joins :=
  List.isChain_cons.mpr ⟨fun _ _ hclose => absurd hclose h, hks⟩

theorem isChain_of_derives {ls : List Lexeme} {phrase : Expr.Phrase} (h : Expr.Derives ls phrase) :
    ls.IsChain Joins := by
  have hend : [Lexeme.closeParen].IsChain Joins := List.isChain_singleton _
  induction h with
  | product _ ih | signed _ ih | power _ ih | atom _ ih | argument _ ih => exact ih
  | add _ _ _ ih ih' | multiply _ _ _ ih ih' | raise _ _ ih ih' | nextArgument _ _ ih ih' =>
      exact isChain_append ih (isChain_cons ih' nofun) (by simp [Continues])
  | minus _ ih | plus _ ih => exact isChain_cons ih nofun
  | number | imaginary | constant | var => exact List.isChain_singleton _
  | emptyCall hname => exact isChain_cons (isChain_cons hend nofun) (by cases hname <;> nofun)
  | call hname _ ih =>
      have harguments := isChain_append ih hend (by simp [Continues])
      exact isChain_cons (isChain_cons harguments nofun) (by cases hname <;> nofun)
  | group _ ih => exact isChain_cons (isChain_append ih hend (by simp [Continues])) nofun

theorem isPlain_of_isNameChar (h : isNameChar c = true) : isPlain c = true ∨ c = '_' := by
  rw [isNameChar, Bool.or_eq_true, beq_iff_eq] at h
  exact h.imp_left fun h => by rw [isPlain, h]; rfl

/-- Characters of operands, one after the other. -/
theorem Settled.operands (h : Settled false rest) (hrun : ∀ c ∈ run, isPlain c = true ∨ c = '_') :
    Settled false (run ++ rest) := by
  induction run with
  | nil => exact h
  | cons c run ih =>
      rw [List.forall_mem_cons] at hrun
      exact .operand hrun.1 (ih hrun.2)

theorem Settled.digits (h : Settled false rest) (hrun : ∀ c ∈ run, isDigit c = true ∨ c = '.') :
    Settled false (run ++ rest) := by
  refine h.operands fun c hc => ?_
  rcases hrun c hc with hdigit | rfl
  · exact isPlain_of_isNameChar (isNameChar_of_isDigit hdigit)
  · exact .inl (by decide)

theorem Settled.power {power : List Char} (h : Settled false rest) (hpower : IsPower power) :
    Settled false (power ++ rest) := by
  cases hpower with
  | none => exact h
  | @some c sign digits hc hsign _ hdigits =>
      have hbehind := h.digits fun d hd => .inl (hdigits d hd)
      have hexponent : isPlain c = true := by rcases hc with rfl | rfl <;> decide
      rw [List.cons_append, List.append_assoc]
      refine .operand (.inl hexponent) ?_
      rcases hsign with rfl | rfl | rfl
      · exact hbehind
      · exact .sign (by decide) hbehind
      · exact .sign (by decide) hbehind

theorem mem_signs_of_operatorSign {sign : String} (h : operatorSign? c = some sign) :
    c ∈ signs := by
  unfold operatorSign? at h
  split at h
  case h_8 => cases h
  all_goals decide

theorem not_continues_named (name : String) : ¬ Continues (named name) := by
  unfold named
  split_ifs <;> exact id

/-- A run that stands for a lexeme, where the lexeme may stand. -/
theorem settled_of_spells {l : Lexeme} (hrun : Spells run l) (hclosed : closed = true → Continues l)
    (h : ∀ after, (after = true → l = .closeParen) → Settled after rest) :
    Settled closed (run ++ rest) := by
  have hbegins (hoperand : ¬ Continues l) : closed = false :=
    Bool.eq_false_iff.mpr fun htrue => hoperand (hclosed htrue)
  have hopen := h false nofun
  cases hrun with
  | operator hsign => exact .sign (mem_signs_of_operatorSign hsign) hopen
  | comma => exact .sign (by decide) hopen
  | closeParen => exact .closing (h true fun _ => rfl)
  | openParen =>
      rw [hbegins id]
      exact .opening hopen
  | pi =>
      rw [hbegins id]
      exact .operand (.inl (by decide)) hopen
  | name _ _ hstart hrest =>
      rw [hbegins (not_continues_named _)]
      refine hopen.operands (List.forall_mem_cons.mpr ⟨?_, fun d hd => ?_⟩)
      · exact isPlain_of_isNameChar (isNameChar_of_isNameStart hstart)
      · exact isPlain_of_isNameChar (hrest d hd)
  | number hmantissa hpower _ =>
      rw [hbegins id, List.append_assoc]
      exact (hopen.power hpower).digits hmantissa.chars
  | imaginary hmantissa hpower _ =>
      rw [hbegins id, List.append_assoc, List.append_assoc]
      have hunit : Settled false (['i'] ++ rest) := .operand (.inl (by decide)) hopen
      exact (hunit.power hpower).digits hmantissa.chars

/-- By induction on how the text is cut into the lexemes. -/
theorem settled_of_cut {ls : List Lexeme} (h : Cut cs ls) (hchain : ls.IsChain Joins)
    (hclosed : closed = true → ∀ l ∈ ls.head?, Continues l) : Settled closed cs := by
  induction h generalizing closed with
  | finish => exact .nil
  | blank hblank _ ih => exact .blank hblank (ih hchain hclosed)
  | lexeme hrun _ ih =>
      rw [List.isChain_cons] at hchain
      refine settled_of_spells hrun (fun htrue => hclosed htrue _ rfl) fun after hafter => ?_
      exact ih hchain.2 fun htrue k hk => hchain.1 k hk (hafter htrue)

theorem settled_of_readAt {position : Int} {e : Expr} (h : Expr.readAt position cs = .ok e) :
    Settled false cs := by
  obtain ⟨tokens, hscan, htokens⟩ := exists_of_bind_eq_ok h
  obtain ⟨init, last, rfl, husable, hlast⟩ := Expr.isEnded_of_scan hscan
  have hcut := (scans_of_scan hscan).cut
  rw [List.map_append, List.map_singleton, hlast] at hcut
  have honly : ∀ token ∈ init, token.lexeme ≠ .finish := fun token htoken hfinish => by
    have := husable token htoken
    rw [hfinish] at this
    exact this
  have hchain := isChain_of_derives (Expr.derives_of_ofTokens hlast honly htokens)
  exact settled_of_cut hcut (isChain_append hchain (List.isChain_singleton _) (by simp [Continues]))
    nofun

theorem Settled.equals {left right : List Char} (hleft : Settled closed left)
    (hright : Settled false right) : Settled closed (left ++ '=' :: right) := by
  induction hleft with
  | nil => exact .sign (by decide) hright
  | blank h _ ih => exact .blank h ih
  | operand h _ ih => exact .operand h ih
  | opening _ ih => exact .opening ih
  | closing _ ih => exact .closing ih
  | sign h _ ih => exact .sign h ih

/-- A text without markup that is read as an expression or as an equation is in plain notation
already, and the console gives the same result for it whether or not it is to bring it to plain
notation first. -/
theorem toPlain_of_read {text : String} (hmarkup : ∀ c ∈ text.toList, c ≠ '\\' ∧ c ≠ '\x7b')
    (h : (∃ e, Expr.ofText text = .ok e) ∨ ∃ e, Equation.ofText text = .ok e) :
    toPlain text = .ok text ∧ ∀ settings (arguments : Console.Arguments) known,
      Console.result settings { arguments with latex := true } known text =
        Console.result settings { arguments with latex := false } known text := by
  have hnone := isMarkup_eq_false hmarkup
  have hsettled : Settled false text.toList := by
    rcases h with ⟨e, h⟩ | ⟨e, h⟩
    · rw [Expr.ofText_eq_readAt hnone] at h
      exact settled_of_readAt (mapError_eq_ok h)
    · rw [Equation.ofText, plainOf, hnone] at h
      obtain ⟨left, right, l, r, htext, hl, hr, -⟩ := Equation.exists_sides h
      rw [htext]
      exact (settled_of_readAt hl).equals (settled_of_readAt hr)
  have hplain := hsettled.toPlain
  refine ⟨hplain, fun settings arguments known => ?_⟩
  simp only [Console.result, hplain, if_true]
  rfl

/-- A closing parenthesis with an operator behind it. -/
theorem toPlain_of_read_quotient : toPlain "x = (a - y_1) / 2" = .ok "x = (a - y_1) / 2" := by
  have hread : (Equation.ofText "x = (a - y_1) / 2").toOption.isSome = true := by decide +kernel
  obtain ⟨e, he⟩ := Option.isSome_iff_exists.mp hread
  have htext : "x = (a - y_1) / 2".toList = ['x', ' ', '=', ' ', '(', 'a', ' ', '-', ' ', 'y', '_',
      '1', ')', ' ', '/', ' ', '2'] := by decide +kernel
  exact (toPlain_of_read (by simp [htext]) (.inr ⟨e, eq_ok_of_toOption he⟩)).1

end Reckoner.Latex
