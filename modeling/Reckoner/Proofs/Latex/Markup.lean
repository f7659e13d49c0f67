import Reckoner.Proofs.Latex.Application
import Reckoner.Proofs.Latex.Place

/-!
# What is left of markup

Writing takes all braces out of a text, and all backslashes but one kind: a backslash behind a
backslash is a command whose name it is, and an unknown command stands for its name. So the plain
notation has as many backslashes as the text has escaped ones, and no braces. The count goes along
the pieces of the text; blanks and multiplication signs, which come and go between operands, do not
matter for it.
-/

namespace Reckoner.Latex

open Reckoner.Text

/-- The characters of markup. -/
def marks : List Char := ['\\', '{', '}']

variable {c : Char} {cs xs ys rest : List Char}

theorem isBlank_of_mem_marks (hc : c ∈ marks) : isBlank c = false := by
  have hall : marks.all (fun c => !isBlank c) = true := by decide
  simpa using List.all_eq_true.mp hall c hc

/-- A class without markup has none of it. -/
theorem count_eq_zero_of_class (hc : c ∈ marks) {p : Char → Bool} (hp : marks.all (!p ·) = true)
    (h : ∀ d ∈ cs, p d = true) : cs.count c = 0 := by
  refine List.count_eq_zero.mpr fun hmem => ?_
  have hnot := List.all_eq_true.mp hp c hc
  simp [h c hmem] at hnot

/-! ## Escaped backslashes -/

/-- How many backslashes stand behind a backslash as its character. -/
def escaped : List Char → Nat
  | '\\' :: c :: rest => (if c = '\\' then 1 else 0) + escaped rest
  | _ :: rest => escaped rest
  | [] => 0

theorem escaped_cons (hc : c ≠ '\\') (cs : List Char) : escaped (c :: cs) = escaped cs := by
  rw [escaped]
  rintro d rest rfl
  exact absurd rfl hc

theorem Whole.escaped_append (h : Whole xs) (ys : List Char) :
    escaped (xs ++ ys) = escaped xs + escaped ys := by
  induction h with
  | nil => exact (Nat.zero_add _).symm
  | escape c _ ih =>
      rw [List.cons_append, List.cons_append, escaped, escaped, ih, Nat.add_assoc]
  | char hc _ ih => rw [List.cons_append, escaped_cons hc, escaped_cons hc, ih]

/-- How often writing leaves a character of markup of a text. -/
def left (c : Char) (cs : List Char) : Nat := if c = '\\' then escaped cs else 0

theorem left_nil (c : Char) : left c [] = 0 := by
  unfold left
  split <;> rfl

theorem Whole.left_append (h : Whole xs) (c : Char) (ys : List Char) :
    left c (xs ++ ys) = left c xs + left c ys := by
  unfold left
  split
  case isTrue => exact h.escaped_append ys
  case isFalse => rfl

theorem left_cons {d : Char} (hd : d ≠ '\\') (c : Char) (cs : List Char) :
    left c (d :: cs) = left c cs := by
  unfold left
  rw [escaped_cons hd]

theorem left_class {p : Char → Bool} (hp : p '\\' = false) (h : ∀ d ∈ xs, p d = true) (c : Char)
    (ys : List Char) : left c (xs ++ ys) = left c ys := by
  induction xs with
  | nil => rfl
  | cons d xs ih =>
      obtain ⟨hd, hxs⟩ := List.forall_mem_cons.mp h
      rw [List.cons_append, left_cons (ne_of_class hd hp), ih hxs]

theorem Enclosed.left_append {opening closing : Char} {group content : List Char}
    (h : Enclosed opening closing group content) (hopening : opening ≠ '\\')
    (hclosing : closing ≠ '\\') (c : Char) (rest : List Char) :
    left c (group ++ rest) = left c content + left c rest := by
  obtain @⟨blanks, _, hblanks, hcontent⟩ := h
  rw [List.append_assoc, cons_group_append, left_class (by decide) hblanks, left_cons hopening, hcontent.whole.left_append,
    left_cons hclosing]

/-! ## Commands -/

/-- What a command writes of its own. -/
def Command.written : Command → List Char
  | .operator sign => [sign]
  | .function name | .operand name => name.toList
  | _ => []

/-- How often a command leaves a character of markup: only if its name is a backslash. -/
def leftByName (c : Char) (name : List Char) : Nat := if name = ['\\'] ∧ c = '\\' then 1 else 0

theorem left_command {name : List Char} (h : commandName (name ++ rest) = (name, rest)) (c : Char) :
    left c ('\\' :: (name ++ rest)) = leftByName c name + left c rest := by
  unfold leftByName
  rcases commandName_cases h with ⟨rfl, rfl⟩ | ⟨d, rfl, -⟩ | ⟨hne, hletters, -⟩
  · unfold left
    split <;> rfl
  · unfold left
    rw [List.singleton_append, escaped]
    by_cases hd : d = '\\'
    · by_cases hc : c = '\\' <;> simp [hc, hd]
    · by_cases hc : c = '\\' <;> simp [hc, hd]
  · obtain ⟨d, name, rfl⟩ := List.exists_cons_of_ne_nil hne
    obtain ⟨hd, hname⟩ := List.forall_mem_cons.mp hletters
    have hbackslash : d ≠ '\\' := ne_of_class hd (by decide)
    have hrest : left c (name ++ rest) = left c rest := left_class (by decide) hname c rest
    rw [if_neg (by simp [hbackslash]), Nat.zero_add, ← hrest]
    unfold left
    rw [List.cons_append, escaped, if_neg hbackslash, Nat.zero_add]

theorem count_functionName (hc : c ∈ marks) (f : Function) : f.name.toList.count c = 0 := by
  have hnone : f.name.toList.all (!marks.contains ·) = true := by cases f <;> decide
  refine List.count_eq_zero.mpr fun hmem => ?_
  simpa [hc] using List.all_eq_true.mp hnone c hmem

theorem Command.count_written {name : List Char} (h : commandName (name ++ rest) = (name, rest))
    (hc : c ∈ marks) :
    (ofName (String.ofList name)).written.count c = leftByName c name := by
  unfold ofName leftByName
  split
  case h_1 command hlookup =>
      have hall : meanings.all (fun entry => entry.1 != "\\" &&
          entry.2.written.all (!marks.contains ·)) = true := by decide
      obtain ⟨hname, hnone⟩ :=
        Bool.and_eq_true_iff.mp (List.all_eq_true.mp hall _ (mem_meanings hlookup))
      have hcount : command.written.count c = 0 := List.count_eq_zero.mpr fun hmem => by
        simpa [hc] using List.all_eq_true.mp hnone c hmem
      rw [hcount, if_neg]
      rintro ⟨rfl, -⟩
      cases hname
  case h_2 hlookup =>
      split
      case isTrue hfunction =>
          obtain ⟨f, hf⟩ := Option.isSome_iff_exists.mp hfunction
          have hname : f.name = String.ofList name := by simpa using List.find?_some hf
          have hne : name ≠ ['\\'] := by
            rintro rfl
            cases hf
          rw [written, ← hname, count_functionName hc, if_neg fun h => hne h.1]
      case isFalse =>
          rw [written, String.toList_ofList]
          rcases commandName_cases h with ⟨rfl, -⟩ | ⟨d, rfl, -⟩ | ⟨-, hletters, -⟩
          · rfl
          · have hbraces : d ≠ '{' ∧ d ≠ '}' := by
              constructor <;>
                · rintro rfl
                  cases hlookup
            rw [marks] at hc
            simp only [List.mem_cons, List.not_mem_nil, or_false] at hc
            rcases hc with rfl | rfl | rfl
            · by_cases hd : d = '\\' <;> simp [hd]
            · simp [hbraces.1]
            · simp [hbraces.2]
          · rw [count_eq_zero_of_class hc (by decide) hletters, if_neg]
            rintro ⟨rfl, -⟩
            exact absurd (hletters '\\' List.mem_cons_self) (by decide)

theorem left_written {name : List Char} {command : Command} (hc : c ∈ marks)
    (hname : commandName (name ++ rest) = (name, rest))
    (h : Command.ofName (String.ofList name) = command) :
    left c ('\\' :: (name ++ rest)) = command.written.count c + left c rest := by
  rw [left_command hname, ← Command.count_written hname hc, h]

/-! ## Edits -/

namespace Edit

/-- What an edit writes, apart from multiplication signs. -/
def piece : Edit → List Char
  | operand piece _ | append piece | closing piece | operator piece | opening piece _ => piece
  | brace => ['(']
  | awaiting => []

/-- What edits write. -/
def written (es : List Edit) : List Char := es.flatMap piece

theorem written_cons (e : Edit) (es : List Edit) : written (e :: es) = e.piece ++ written es :=
  List.flatMap_cons

theorem written_append (es fs : List Edit) : written (es ++ fs) = written es ++ written fs :=
  List.flatMap_append

end Edit

section Count

variable (hblank : isBlank c = false) (hstar : c ≠ '*')

include hblank hstar

theorem Output.count_before (out : Output) (fromCommand : Bool) :
    (out.before fromCommand).text.count c = out.text.count c := by
  rw [Output.before]
  split
  case isFalse => rfl
  case isTrue =>
      obtain ⟨blanks, hblanks, htext⟩ := out.text_eq_core
      have hnone : blanks.count c = 0 := List.count_eq_zero.mpr fun hmem => by
        rw [hblanks c hmem] at hblank
        cases hblank
      have hsign : ['*'].count c = 0 := List.count_eq_zero.mpr (by simpa using hstar)
      rw [Output.text_multiply, htext, List.count_append, List.count_append, hnone, hsign]

theorem Output.count_operand (out : Output) (piece : List Char) (fromCommand : Bool) :
    (out.operand piece fromCommand).text.count c = out.text.count c + piece.count c := by
  rw [← out.count_before hblank hstar fromCommand, ← List.count_append]
  exact congrArg (List.count c) (Output.text_cons (out.before fromCommand) piece)

theorem Edit.count_apply (out : Output) (e : Edit) :
    (e.apply out).text.count c = out.text.count c + e.piece.count c := by
  have hcons (piece : List Char) :
      (Output.text { out with pieces := piece :: out.pieces }).count c =
      out.text.count c + piece.count c := by
    rw [Output.text_cons, List.count_append]
  cases e with
  | operand piece fromCommand => exact out.count_operand hblank hstar piece fromCommand
  | append piece | closing piece | operator piece => exact hcons piece
  | opening piece fromCommand =>
      rw [apply, Output.opening]
      split
      case isTrue => exact hcons piece
      case isFalse => exact out.count_operand hblank hstar piece fromCommand
  | brace => exact out.count_operand hblank hstar ['('] true
  | awaiting => rfl

theorem Edit.count_applyAll (out : Output) (es : List Edit) :
    (applyAll out es).text.count c = out.text.count c + (written es).count c := by
  induction es generalizing out with
  | nil => rfl
  | cons e es ih =>
      rw [applyAll_cons, ih, count_apply hblank hstar, written_cons, List.count_append,
        Nat.add_assoc]

theorem Edit.count_text (es : List Edit) : (text es).count c = (written es).count c := by
  rw [text, count_applyAll hblank hstar]
  exact Nat.zero_add _

end Count

/-! ## Pieces -/

theorem count_char {d : Char} (hd : d ∉ marks) (hc : c ∈ marks) (cs : List Char) :
    (d :: cs).count c = cs.count c :=
  List.count_cons_of_ne (ne_of_mem_of_not_mem hc hd).symm

theorem count_inParens (hc : c ∈ marks) (cs : List Char) : (inParens cs).count c = cs.count c := by
  rw [inParens, count_char (by decide) hc, List.count_append, count_char (by decide) hc,
    List.count_nil, Nat.add_zero]

theorem count_squeeze (hc : c ∈ marks) (cs : List Char) : (squeeze cs).count c = cs.count c :=
  List.count_filter (by rw [isBlank_of_mem_marks hc]; rfl)

theorem count_edits? {command : Command} {es : List Edit} (hc : c ∈ marks)
    (h : command.edits? = some es) : (Edit.written es).count c = command.written.count c := by
  cases command <;> cases h
  case openBrace | closeBrace => exact count_char (by decide) hc []
  all_goals simp [Edit.written, Edit.piece, Command.written]

theorem count_delimiterEdits (left : Bool) (piece : String) :
    (Edit.written (delimiterEdits left piece)).count c = piece.toList.count c := by
  unfold delimiterEdits
  split
  case isTrue hpiece =>
      rw [hpiece]
      rfl
  case isFalse => cases left <;> simp [Edit.written, Edit.piece]

theorem left_char {d : Char} (hd : d ∉ marks) (c : Char) (cs : List Char) :
    left c (d :: cs) = left c cs :=
  left_cons (ne_of_mem_of_not_mem (by decide) hd).symm c cs

theorem left_delimiter? {side : Bool} {piece : String} (hc : c ∈ marks)
    (h : delimiter? side cs = some (piece, rest)) :
    piece.toList.count c = 0 ∧ left c cs = left c rest := by
  have hescape {d : Char} (hd : d ≠ '\\') : left c ('\\' :: d :: rest) = left c rest := by
    unfold left
    rw [escaped, if_neg hd, Nat.zero_add]
  have hnone {cs : List Char} (h : cs.all (!marks.contains ·) = true) : cs.count c = 0 :=
    count_eq_zero_of_class hc (p := (!marks.contains ·)) (by decide) (List.all_eq_true.mp h)
  unfold delimiter? at h
  split at h
  case h_1 | h_2 =>
      cases side <;> cases h
      exact ⟨hnone (by decide), hescape (by decide)⟩
  case h_3 | h_4 | h_5 | h_6 =>
      cases side <;> cases h
      exact ⟨hnone (by decide), left_char (by decide) c _⟩
  case h_7 =>
      cases h
      refine ⟨hnone ?_, left_char (by decide) c _⟩
      cases side <;> decide
  case h_8 =>
      cases h
      exact ⟨rfl, left_char (by decide) c _⟩
  case h_9 => cases h

theorem Emits.count (hc : c ∈ marks) {es : List Edit} (h : Emits cs rest es) :
    (Edit.written es).count c + left c rest = left c (cs ++ rest) := by
  have hchar {d e : Char} (hd : d ∉ marks) (he : e ∉ marks) :
      [d].count c + left c rest = left c ([e] ++ rest) := by
    rw [count_char hd hc, List.singleton_append, left_char he]
    exact Nat.zero_add _
  cases h with
  | @blank d _ h =>
      have hd : d ∉ marks := fun hmem => by
        rw [isBlank_of_mem_marks hmem] at h
        cases h
      exact hchar hd hd
  | run _ hrun _ =>
      have hwritten : Edit.written [.operand cs false] = cs := List.append_nil cs
      rw [hwritten, count_eq_zero_of_class hc (by decide) hrun, left_class (by decide) hrun,
        Nat.zero_add]
  | opening h | closing h => rcases h with rfl | rfl <;> exact hchar (by decide) (by decide)
  | @sign d _ h =>
      have hd : d ∉ marks := fun hmem =>
        h.1 (List.mem_append_left ['^', '_', '(', '[', ')', ']'] hmem)
      exact hchar hd hd
  | raise | underscore => exact hchar (by decide) (by decide)
  | @command name _ _ hname h =>
      rw [count_edits? hc h, List.cons_append, left_written hc hname rfl]
  | @delimiter name blanks d _ side piece hname h hblanks hd =>
      obtain ⟨hpiece, hd⟩ := left_delimiter? hc hd
      rw [count_delimiterEdits, hpiece, List.cons_append, List.append_assoc, List.append_assoc,
        left_written hc hname h, left_class (by decide) hblanks, hd]
      rfl

/-- The backslashes of a text are left where they are escaped, and nothing else of its markup. -/
theorem Runs.count (hc : c ∈ marks) {stop : List Char} {place : Place} {es : List Edit}
    (h : Runs stop place cs es) : (Edit.written es).count c + left c stop = left c cs := by
  have hblank := isBlank_of_mem_marks hc
  have hstar : c ≠ '*' := ne_of_mem_of_not_mem hc (by decide)
  -- the content of a group is written on its own
  have htext {content : List Char} {es : List Edit}
      (ih : (Edit.written es).count c + left c [] = left c content) :
      (Edit.text es).count c = left c content := by
    rw [Edit.count_text hblank hstar, ← ih, left_nil, Nat.add_zero]
  have hcons {stop rest : List Char} {e : Edit} {fs : List Edit}
      (ih : (Edit.written fs).count c + left c stop = left c rest) :
      (Edit.written (e :: fs)).count c + left c stop = e.piece.count c + left c rest := by
    rw [Edit.written_cons, List.count_append, Nat.add_assoc, ih]
  induction h with
  | finish => exact Nat.zero_add _
  | piece h _ ih =>
      rw [Edit.written_append, List.count_append, Nat.add_assoc, ih, h.count hc]
  | group h _ _ ih ihrest =>
      rw [hcons ihrest, left_cons (by decide), h.whole.left_append, left_cons (by decide),
        Edit.piece, count_inParens hc, htext ih]
  | power h _ _ ih ihrest =>
      rw [hcons ihrest, left_cons (by decide), h.left_append (by decide) (by decide),
        Edit.piece, count_char (by decide) hc, count_inParens hc, htext ih]
  | index h _ _ ih ihrest =>
      rw [hcons ihrest, left_cons (by decide), left_cons (by decide), h.whole.left_append,
        left_cons (by decide), Edit.piece, count_char (by decide) hc, count_squeeze hc, htext ih]
  | fraction hname h hgroup _ hgroup' _ _ ih ih' ihrest =>
      rw [hcons ihrest, left_written hc hname h, hgroup.left_append (by decide) (by decide),
        hgroup'.left_append (by decide) (by decide), Edit.piece, List.count_append,
        count_inParens hc, htext ih, count_char (by decide) hc, count_inParens hc, htext ih',
        Nat.add_assoc]
      exact (Nat.zero_add _).symm
  | root hname h hgroup _ hgroup' _ _ ih ih' ihrest =>
      rw [hcons ihrest, left_written hc hname h, hgroup.left_append (by decide) (by decide),
        hgroup'.left_append (by decide) (by decide), Edit.piece, List.count_append,
        count_inParens hc, htext ih', count_char (by decide) hc, count_inParens hc,
        count_char (by decide) hc, count_char (by decide) hc, count_inParens hc, htext ih,
        Nat.add_assoc, Nat.add_left_comm]
      exact (Nat.zero_add _).symm
  | squareRoot hname h hgroup _ _ ih ihrest =>
      rw [hcons ihrest, left_written hc hname h, hgroup.left_append (by decide) (by decide),
        Edit.piece, List.count_append, count_functionName hc, count_inParens hc, htext ih,
        Nat.zero_add]
      exact (Nat.zero_add _).symm
  | text hname h hgroup _ _ ih ihrest =>
      rw [hcons ihrest, left_written hc hname h, hgroup.left_append (by decide) (by decide),
        Edit.piece, htext ih]
      exact (Nat.zero_add _).symm
  | function hname h _ ih => exact (hcons ih).trans (left_written hc hname h).symm
  | namedFunction hname h hgroup _ _ ih ihrest =>
      rw [hcons ihrest, left_written hc hname h, hgroup.left_append (by decide) (by decide),
        Edit.piece, count_squeeze hc, htext ih]
      exact (Nat.zero_add _).symm
  | groupArgument h _ _ ih ihrest =>
      rw [hcons ihrest, h.left_append (by decide) (by decide), Edit.piece, count_inParens hc,
        htext ih]
  | @runArgument _ blanks d run rest _ hblanks hd hrun _ _ ih =>
      have hplain : ∀ d' ∈ d :: run, isPlain d' = true :=
        List.forall_mem_cons.mpr ⟨by rw [isPlain, hd]; rfl, hrun⟩
      rw [hcons ih, left_class (by decide) hblanks, left_class (by decide) hplain, Edit.piece,
        count_inParens hc, count_eq_zero_of_class hc (by decide) hplain, Nat.zero_add]
  | @commandArgument _ blanks name rest argument _ hblanks hname _ h _ ih =>
      -- the name is a command that writes the same as an operand
      obtain ⟨-, -, hoperand, -⟩ := bareArgument?_eq_some h
      rw [hcons ih, left_class (by decide) hblanks, left_written hc hname hoperand, Edit.piece,
        count_inParens hc]
      rfl
  | noArgument _ _ ih => exact (hcons ih).trans (Nat.zero_add _)

/-! ## Texts -/

theorem count_toPlain {text plain : String} (h : toPlain text = .ok plain) (hc : c ∈ marks) :
    plain.toList.count c = left c text.toList := by
  rw [toPlain_eq_write] at h
  obtain ⟨out, hwrite, h⟩ := exists_of_bind_eq_ok h
  obtain ⟨es, hruns, rfl⟩ := runs_of_write hwrite
  cases h
  have hcount := hruns.count hc
  rw [left_nil, Nat.add_zero] at hcount
  rw [String.toList_ofList, ← hcount]
  exact Edit.count_text (isBlank_of_mem_marks hc) (ne_of_mem_of_not_mem hc (by decide)) es

/-- Writing comes to an end with every text: with a plain notation that has no braces in it, or with
a refusal that tells what stands at its place in the text. -/
theorem toPlain_unbraced_or_placed (text : String) :
    (∀ rounds, text.length ≤ rounds →
      writeFrom rounds ⟨0, text.toList⟩ {} = writeFrom text.length ⟨0, text.toList⟩ {}) ∧
    ((∃ plain, toPlain text = .ok plain ∧ '{' ∉ plain.toList ∧ '}' ∉ plain.toList) ∨
      ∃ (cause : Cause) (p : Nat), toPlain text = .error (.located cause p) ∧
        cause.code? = some "3025" ∧ cause.kind = .grammatical ∧
          cause.IsPlaced text.toList p) := by
  refine ⟨fun rounds hrounds => ?_, ?_⟩
  · rw [← String.length_toList] at hrounds ⊢
    exact writeFrom_eq ⟨0, text.toList⟩ {} hrounds (Nat.le_refl _)
  cases h : toPlain text with
  | ok plain =>
      have hnone {c : Char} (hc : c ∈ marks) (hne : c ≠ '\\') : c ∉ plain.toList := by
        rw [← List.count_eq_zero, count_toPlain h hc, left, if_neg hne]
      exact .inl ⟨plain, rfl, hnone (by decide) (by decide), hnone (by decide) (by decide)⟩
  | error err =>
      obtain ⟨cause, p, rfl, hplaced⟩ := failsOnly_toPlain_isPlaced text err h
      exact .inr ⟨cause, p, rfl, hplaced.code.1, hplaced.code.2, hplaced⟩

/-! ## Markup in plain notation -/

theorem two_mul_escaped_le (cs : List Char) : 2 * escaped cs ≤ cs.count '\\' := by
  fun_induction escaped cs with
  | case1 c rest ih =>
      rw [List.count_cons_self, List.count_cons]
      by_cases hc : c = '\\'
      · subst hc
        simp only [if_true, beq_self_eq_true]
        omega
      · simp only [if_neg hc, beq_eq_false_iff_ne.mpr hc]
        omega
  | case2 c rest _ ih => exact Nat.le_trans ih (List.count_le_count_cons ..)
  | case3 => exact Nat.le_refl 0

theorem not_mem_of_isMarkup {text : String} (h : isMarkup text = false) :
    '\\' ∉ text.toList ∧ '{' ∉ text.toList := by
  have hnone := List.any_eq_false.mp h
  exact ⟨fun hmem => absurd rfl (hnone _ hmem), fun hmem => absurd rfl (hnone _ hmem)⟩

/-- The plain notation of a text is its own plain notation, unless backslashes are left in it. -/
theorem plainOf_plain_iff {text plain : String} (h : plainOf text = .ok plain) :
    plainOf plain = .ok plain ↔ escaped text.toList = 0 := by
  -- a text that stays as it is has no backslashes, as writing leaves less than half of them
  have hsettled {text : String} (h : plainOf text = .ok text) : '\\' ∉ text.toList := by
    unfold plainOf at h
    split at h
    case isTrue =>
        have hcount : text.toList.count '\\' = escaped text.toList :=
          count_toPlain h (by decide)
        have hhalf := two_mul_escaped_le text.toList
        rw [← List.count_eq_zero]
        omega
    case isFalse hmarkup => exact (not_mem_of_isMarkup (by simpa using hmarkup)).1
  by_cases hmarkup : isMarkup text = true
  · rw [plainOf, if_pos hmarkup] at h
    have hbackslash : plain.toList.count '\\' = escaped text.toList := count_toPlain h (by decide)
    have hbrace : '{' ∉ plain.toList := List.count_eq_zero.mp (count_toPlain h (by decide))
    rw [← hbackslash, List.count_eq_zero]
    refine ⟨hsettled, fun hnone => ?_⟩
    have hplain : isMarkup plain = false := isMarkup_eq_false fun c hc =>
      ⟨ne_of_mem_of_not_mem hc hnone, ne_of_mem_of_not_mem hc hbrace⟩
    rw [plainOf, hplain]
    rfl
  · rw [Bool.not_eq_true] at hmarkup
    have hcopy : plainOf text = .ok text := by rw [plainOf, hmarkup]; rfl
    obtain rfl : text = plain := Except.ok.inj (hcopy.symm.trans h)
    have hhalf := two_mul_escaped_le text.toList
    rw [List.count_eq_zero.mpr (hsettled h)] at hhalf
    exact ⟨fun _ => by omega, fun _ => h⟩

example : plainOf "\\\\ + 3" = .ok "\\ + 3" ∧ plainOf "\\ + 3" = .ok "+ 3" := ⟨rfl, rfl⟩

theorem exists_emits {tail : List Char} (hc : c ∉ marks) (htail : '{' ∉ tail) :
    ∃ run rest es, c :: tail = run ++ rest ∧ '}' ∉ run ∧ Emits run rest es := by
  have hsingle {es : List Edit} (h : Emits [c] tail es) :
      ∃ run rest es, c :: tail = run ++ rest ∧ '}' ∉ run ∧ Emits run rest es :=
    ⟨[c], tail, es, rfl, by simpa using (ne_of_mem_of_not_mem (by decide) hc), h⟩
  by_cases hraise : c = '^'
  · subst hraise
    refine hsingle (.raise fun hhead => htail ?_)
    exact (List.dropWhile_suffix Text.isBlank).subset (List.mem_of_mem_head? hhead)
  by_cases hunderscore : c = '_'
  · subst hunderscore
    exact hsingle (.underscore fun hhead => htail (List.mem_of_mem_head? hhead))
  by_cases hblank : isBlank c = true
  · exact hsingle (.blank hblank)
  by_cases hplain : isPlain c = true
  · have hrun : ∀ d ∈ (c :: tail).takeWhile isPlain, isPlain d = true :=
      fun d hd => List.mem_takeWhile_imp hd
    refine ⟨_, _, _, List.takeWhile_append_dropWhile.symm, fun hbrace => ?_,
      .run ?_ hrun (head_dropWhile isPlain (c :: tail))⟩
    · exact absurd (hrun _ hbrace) (by decide)
    · rw [List.takeWhile_cons_of_pos hplain]
      exact List.cons_ne_nil _ _
  by_cases hopening : c = '(' ∨ c = '['
  · exact hsingle (.opening hopening)
  by_cases hclosing : c = ')' ∨ c = ']'
  · exact hsingle (.closing hclosing)
  refine hsingle (.sign ⟨?_, by simpa using hblank, by simpa using hplain⟩)
  simp only [marks, List.mem_cons, List.not_mem_nil, or_false, not_or] at hc ⊢
  tauto

/-- The first brace of a text whose only markup are closing braces is met in the end. -/
theorem write_of_brace {cs : List Char} (hbackslash : '\\' ∉ cs) (hopening : '{' ∉ cs)
    (hclosing : '}' ∈ cs) (position : Nat) (out : Output) :
    write ⟨position, cs⟩ out =
      .error (.located .unbalancedBraces ((position + cs.idxOf '}' : Nat) : Int)) := by
  induction hn : cs.length using Nat.strongRecOn generalizing cs position out with
  | _ n ih =>
      subst hn
      cases cs with
      | nil => cases hclosing
      | cons c tail =>
          rw [write_cons]
          by_cases hc : c = '}'
          · subst hc
            rw [List.idxOf_cons_self]
            rfl
          have hmark : c ∉ marks := by
            simp only [marks, List.mem_cons, List.not_mem_nil, or_false, not_or]
              at hbackslash hopening ⊢
            exact ⟨Ne.symm hbackslash.1, Ne.symm hopening.1, hc⟩
          obtain ⟨run, rest, es, htext, hrun, hemits⟩ :=
            exists_emits hmark fun hmem => hopening (List.mem_cons_of_mem _ hmem)
          obtain ⟨d, piece, rfl, hpiece⟩ := hemits.writePiece
          rw [htext] at hbackslash hopening hclosing ⊢
          rw [List.cons_append] at htext
          injection htext with hd htail
          subst hd
          rw [hpiece, bind_ok, List.idxOf_append_of_notMem hrun, ← Nat.add_assoc]
          have hrest := (List.mem_append.mp hclosing).resolve_left hrun
          exact ih rest.length (by simp [htail])
            (fun hmem => hbackslash (List.mem_append_right _ hmem))
            (fun hmem => hopening (List.mem_append_right _ hmem)) hrest _ _ rfl

theorem toPlain_of_brace {text : String} (hplain : isMarkup text = false)
    (h : '}' ∈ text.toList) :
    toPlain text = .error (.located .unbalancedBraces (text.toList.idxOf '}')) := by
  obtain ⟨hbackslash, hopening⟩ := not_mem_of_isMarkup hplain
  rw [toPlain_eq_write, write_of_brace hbackslash hopening h, Nat.zero_add]
  rfl

end Reckoner.Latex
