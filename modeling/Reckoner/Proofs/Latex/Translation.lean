import Reckoner.Proofs.Expr.RoundTrip
import Reckoner.Proofs.Latex.Formula
import Reckoner.Proofs.Latex.State

/-!
# Braced formulas are translated correctly

By induction on a formula: its text runs to edits that add the lexemes of its tree to the output,
from every output in which it may stand. So the translation of a whole formula is read as its tree.
A formula without any markup is not translated, and need not be: it would be left as it is.
-/

namespace Reckoner.Latex

open Reckoner.Text Reckoner.Token Reckoner.Expr

/-! ## Commands and their names -/

/-- The name is read as what it is the name of. -/
def IsWord (name : String) : Prop :=
  match name.toList with
  | [] => False
  | c :: rest => isDigit c = false ∧ c ≠ 'π' ∧ isNameStart c = true ∧ rest.all isNameChar = true

instance (name : String) : Decidable (IsWord name) := by
  unfold IsWord
  split <;> infer_instance

theorem IsWord.spells {name : String} (h : IsWord name) : Spells name.toList (named name) := by
  unfold IsWord at h
  rw [← String.ofList_toList (s := name)]
  split at h
  · exact h.elim
  case h_2 c rest hname =>
      rw [hname, String.toList_ofList]
      exact spells_word h.1 h.2.1 h.2.2.1 h.2.2.2

theorem spells_greek {name : String} (h : name ∈ greekLetters) :
    Spells name.toList (named name) := by
  have hwords : ∀ name ∈ greekLetters, IsWord name := by decide
  exact (hwords name h).spells

theorem spells_function (f : Function) : Spells f.name.toList (.function f.name) := by
  have hword : IsWord f.name := by cases f <;> decide
  have hnamed : named f.name = .function f.name := by
    have hfound : (Function.ofName? f.name).isSome = true := by cases f <;> decide
    rw [named, if_pos hfound]
  exact hnamed ▸ hword.spells

theorem derives_operandOf? {l : Lexeme} {e : Expr} (h : operandOf? l = some e) :
    Derives [l] (.atom e) := by
  unfold operandOf? at h
  split at h
  case h_1 => cases h; exact .number _
  case h_2 => cases h; exact .imaginary _
  case h_3 => cases h; exact .constant _
  case h_4 => cases h; exact .var _
  case h_5 => cases h

/-- A command for a function is its own name, an alias, or the root. -/
theorem IsFunctionCommand.command {name f : String} (h : IsFunctionCommand name f) :
    (∃ g : Function, g.name = f) ∧
      (Command.ofName name = .function f ∨ name = "sqrt" ∧ f = Function.sqrt.name) := by
  obtain ⟨-, h | ⟨rfl, h⟩⟩ := h
  · simp only [aliases, List.mem_cons, List.not_mem_nil, or_false, Prod.mk.injEq] at h
    rcases h with ⟨rfl, rfl⟩ | ⟨rfl, rfl⟩ | ⟨rfl, rfl⟩ | ⟨rfl, rfl⟩ | ⟨rfl, rfl⟩ | ⟨rfl, rfl⟩
    · exact ⟨⟨.asin, rfl⟩, .inl rfl⟩
    · exact ⟨⟨.acos, rfl⟩, .inl rfl⟩
    · exact ⟨⟨.atan, rfl⟩, .inl rfl⟩
    · exact ⟨⟨.asinh, rfl⟩, .inl rfl⟩
    · exact ⟨⟨.acosh, rfl⟩, .inl rfl⟩
    · exact ⟨⟨.atanh, rfl⟩, .inl rfl⟩
  · obtain ⟨g, hg⟩ := Option.isSome_iff_exists.mp h
    have hname : g.name = name := by simpa using List.find?_some hg
    subst hname
    refine ⟨⟨g, rfl⟩, ?_⟩
    cases g with
    | sqrt => exact .inr ⟨rfl, rfl⟩
    | _ => exact .inl rfl

/-- The text is a letter or several, or one other character. -/
def IsCommandName (name : List Char) : Prop :=
  (name ≠ [] ∧ ∀ c ∈ name, isLetter c = true) ∨ ∃ c, name = [c] ∧ isLetter c = false

theorem IsCommandName.commandName {name rest : List Char} (h : IsCommandName name)
    (hrest : Apart ('\\' :: name) rest) : commandName (name ++ rest) = (name, rest) := by
  rcases h with ⟨hne, hletters⟩ | ⟨c, rfl, hc⟩
  · have hhead := hrest ⟨[], name, rfl, hne, hletters⟩
    obtain ⟨c, tail, rfl⟩ := List.exists_cons_of_ne_nil hne
    obtain ⟨htake, hdrop⟩ := takeWhile_append_of_head hletters hhead
    rw [List.cons_append] at htake hdrop ⊢
    rw [Latex.commandName, if_pos (hletters c List.mem_cons_self), htake, hdrop]
  · rw [List.singleton_append, Latex.commandName, hc]
    rfl

/-! ## What may follow -/

/-- The rest goes on neither a bare operand nor a command of letters. -/
def Follows (bare : Bool) (cs rest : List Char) : Prop :=
  (bare = true → ∀ c ∈ rest.head?, isPlain c = false) ∧ Apart cs rest

theorem Apart.of_append {xs ys rest : List Char} (h : Apart (xs ++ ys) rest) : Apart ys rest := by
  rintro ⟨before, name, rfl, hne, hletters⟩
  exact h ⟨xs ++ before, name, by simp, hne, hletters⟩

theorem Apart.cons {c : Char} {xs ys : List Char} (h : Apart xs ys) (hc : c ≠ '\\') :
    Apart (c :: xs) ys := by
  rintro ⟨before, name, htext, hname⟩
  cases before with
  | nil =>
      injection htext with hbackslash _
      exact absurd hbackslash hc
  | cons d before =>
      injection htext with _ htext
      exact h ⟨before, name, htext, hname⟩

theorem apart_nil (rest : List Char) : Apart [] rest := by
  rintro ⟨before, name, htext, -⟩
  simp at htext

theorem Apart.before {xs ys : List Char} (h : Apart xs ys) (hne : ys ≠ []) (rest : List Char) :
    Apart xs (ys ++ rest) := by
  obtain ⟨c, ys, rfl⟩ := List.exists_cons_of_ne_nil hne
  exact h

theorem apart_of_not_plain {cs rest : List Char} (h : ∀ c ∈ rest.head?, isPlain c = false) :
    Apart cs rest := by
  intro _ c hc
  rw [← Bool.not_eq_true]
  intro hletter
  have hplain := isPlain_of_isLetter hletter
  rw [h c hc] at hplain
  cases hplain

theorem follows_of_not_plain {bare : Bool} {cs rest : List Char}
    (h : ∀ c ∈ rest.head?, isPlain c = false) : Follows bare cs rest :=
  ⟨fun _ => h, apart_of_not_plain h⟩

theorem IsSpace.head {cs : List Char} (h : IsSpace cs) : ∀ c ∈ cs.head?, isPlain c = false := by
  intro c hc
  cases h with
  | none => cases hc
  | @blank d _ hblank =>
      cases hc
      rw [← Bool.not_eq_true]
      intro hplain
      rw [isBlank_of_isPlain hplain] at hblank
      cases hblank
  | command =>
      cases hc
      decide

theorem Apart.through {xs space rest : List Char} (h : Apart (xs ++ space) rest)
    (hspace : IsSpace space) : Apart xs (space ++ rest) := by
  cases space with
  | nil => rwa [List.append_nil] at h
  | cons c space => exact apart_of_not_plain hspace.head

theorem Follows.through {bare : Bool} {xs space rest : List Char} (h : Apart (xs ++ space) rest)
    (hspace : IsSpace space) (hrest : bare = true → ∀ c ∈ rest.head?, isPlain c = false) :
    Follows bare xs (space ++ rest) := by
  refine ⟨fun hbare => ?_, h.through hspace⟩
  cases space with
  | nil => exact hrest hbare
  | cons c space => exact hspace.head

/-! ## What parts of formulas run to -/

/-- The text runs to the edits wherever it is followed by what may follow it. -/
def RunsTo (bare : Bool) (cs : List Char) (es : List Edit) : Prop :=
  ∀ rest fs, Follows bare cs rest → Runs [] .piece rest fs → Runs [] .piece (cs ++ rest) (es ++ fs)

theorem RunsTo.mono {bare : Bool} {cs : List Char} {es : List Edit} (h : RunsTo bare cs es) :
    RunsTo true cs es :=
  fun rest fs hrest => h rest fs ⟨fun _ => hrest.1 rfl, hrest.2⟩

/-- What edits have to do for a part of a formula: add the lexemes of its tree. -/
def Adds : Shape → List Edit → Expr → Prop
  | .base plain, es, e => ∃ ks, Derives ks (.atom e) ∧ ∀ out ls, Accepts (!plain) out ls →
      Done plain (Edit.applyAll out es) (ls ++ ks)
  | .factor plain bare, es, e => ∃ ks, Derives ks (.power e) ∧ ∀ out ls,
      Accepts (!plain) out ls → Done bare (Edit.applyAll out es) (ls ++ ks)
  | .signed bare, es, e => ∃ ks, Derives ks (.signed e) ∧ ∀ out ls, Ready out ls →
      Done bare (Edit.applyAll out es) (ls ++ ks)
  | .term bare, es, e => ∃ ks, Derives ks (.product e) ∧ ∀ out ls, Ready out ls →
      Done bare (Edit.applyAll out es) (ls ++ ks)
  | .formula, es, e => ∃ ks, Derives ks (.sum e) ∧ ∀ out ls, Ready out ls →
      ∃ bare, Done bare (Edit.applyAll out es) (ls ++ ks)

/-- A part of a formula that ends with a bare operand, as far as its shape tells. -/
def Shape.bare : Shape → Bool
  | .base plain => plain
  | .factor _ bare | .signed bare | .term bare => bare
  | .formula => true

/-- The text is translated into lexemes of the tree. -/
def Translates (shape : Shape) (cs : List Char) (e : Expr) : Prop :=
  ∃ es, RunsTo shape.bare cs es ∧ Adds shape es e

/-- Space runs to edits that change nothing but blanks. -/
theorem IsSpace.runs {cs : List Char} (h : IsSpace cs) :
    ∃ es, (∀ rest fs, Apart cs rest → Runs [] .piece rest fs → Runs [] .piece (cs ++ rest) (es ++ fs)) ∧
      (∀ out ls, Ready out ls → Ready (Edit.applyAll out es) ls) ∧
      ∀ bare out ls, Done bare out ls → Done bare (Edit.applyAll out es) ls := by
  induction h with
  | none => exact ⟨[], fun _ _ _ h => h, fun _ _ h => h, fun _ _ _ h => h⟩
  | @blank c rest hblank _ ih =>
      obtain ⟨es, hruns, hready, hdone⟩ := ih
      refine ⟨.append [c] :: es, fun rest' fs hapart h => ?_, fun out ls h => ?_,
        fun bare out ls h => ?_⟩
      · have hpart : Apart ([c] ++ rest) rest' := hapart
        have hblanks : Runs [] .piece ([c] ++ (rest ++ rest')) ([.append [c]] ++ (es ++ fs)) :=
          .piece (.blank hblank) (hruns rest' fs hpart.of_append h)
        exact hblanks
      · exact hready _ _ (h.blank hblank)
      · exact hdone _ _ _ (h.blank hblank)
  | @command name rest hname hspace ih =>
      obtain ⟨es, hruns, hready, hdone⟩ := ih
      refine ⟨es, fun rest' fs hapart h => ?_, hready, hdone⟩
      have hnames : ∀ name ∈ spacings, IsCommandName name.toList := by
        intro name h
        simp only [spacings, List.mem_cons, List.not_mem_nil, or_false] at h
        rcases h with rfl | rfl | rfl | rfl | rfl | rfl | rfl
        all_goals
          first
          | exact .inr ⟨_, rfl, by decide⟩
          | exact .inl ⟨by decide, List.all_eq_true.mp (by decide)⟩
      have hspacing : Command.ofName (String.ofList name.toList) = .spacing := by
        rw [String.ofList_toList]
        simp only [spacings, List.mem_cons, List.not_mem_nil, or_false] at hname
        rcases hname with rfl | rfl | rfl | rfl | rfl | rfl | rfl <;> rfl
      have hapart' : Apart ('\\' :: name.toList ++ rest) rest' := hapart
      have hread := (hnames name hname).commandName (hapart'.through hspace)
      have hcommand := Runs.piece (.command hread (by rw [hspacing]; rfl)) (hruns rest' fs hapart'.of_append h)
      simpa using hcommand

/-- A formula between delimiters, which is translated on its own. -/
structure Content (cs : List Char) (es : List Edit) (ks : List Lexeme) (e : Expr) : Prop where
  neutral : IsNeutral cs
  runs : Runs [] .piece cs es
  lexes : Lexes (Edit.text es) ks
  derives : Derives ks (.sum e)

theorem Translates.content {cs : List Char} {e : Expr} (h : Translates .formula cs e)
    (hneutral : IsNeutral cs) : ∃ es ks, Content cs es ks e := by
  obtain ⟨es, hruns, ks, hderives, hadds⟩ := h
  have hcontent := hruns [] [] (follows_of_not_plain (by simp)) .finish
  rw [List.append_nil, List.append_nil] at hcontent
  obtain ⟨bare, hdone⟩ := hadds {} [] ready_empty
  exact ⟨es, ks, hneutral, hcontent, hdone.lexes_text, hderives⟩

/-- An operand that is a single piece. -/
theorem translates_operand {plain : Bool} {cs : List Char} (piece : List Char) {ks : List Lexeme} {e : Expr}
    (hruns : RunsTo plain cs [.operand piece (!plain)]) (hpiece : Lexes piece ks)
    (hblank : allBlank piece = false) (hderives : Derives ks (.atom e)) :
    Translates (.base plain) cs e := by
  refine ⟨_, hruns, ks, hderives, fun out ls h => ?_⟩
  have hdone := h.operand hpiece hblank
  rwa [Bool.not_not] at hdone

theorem allBlank_cons {c : Char} (h : isBlank c = false) (cs : List Char) :
    allBlank (c :: cs) = false := by
  simp [allBlank, h]

theorem IsAtom.translates {cs : List Char} {e : Expr} (h : IsAtom cs e) :
    Translates (.base true) cs e := by
  obtain ⟨l, hl, he⟩ := Option.bind_eq_some_iff.mp h.operand
  have hcut := Cut.of_lexemeOf? hl
  rw [String.toList_ofList] at hcut
  obtain ⟨c, tail, rfl⟩ := List.exists_cons_of_ne_nil h.ne_nil
  refine translates_operand _ (fun rest fs hrest hfs => ?_) hcut.lexes
    (allBlank_cons (isBlank_of_isPlain (h.plain c List.mem_cons_self)) tail)
    (derives_operandOf? he)
  exact .piece (.run h.ne_nil h.plain (hrest.1 rfl)) hfs

theorem translates_greek {name : String} {e : Expr} (h : name ∈ greekLetters)
    (he : operandOf? (named name) = some e) :
    Translates (.base false) ('\\' :: name.toList) e := by
  have hnames : ∀ name ∈ greekLetters, name.toList ≠ [] ∧
      name.toList.all isLetter = true ∧ (meanings.lookup name).isNone = true ∧
      (Function.ofName? name).isSome = false := by decide
  obtain ⟨hne, hletters, hmeaning, hfunction⟩ := hnames name h
  rw [List.all_eq_true] at hletters
  have hcommand : Command.ofName (String.ofList name.toList) = .operand name := by
    rw [String.ofList_toList, Command.ofName, Option.isNone_iff_eq_none.mp hmeaning, hfunction]
    rfl
  obtain ⟨c, tail, hname⟩ := List.exists_cons_of_ne_nil hne
  refine translates_operand name.toList (fun rest fs hrest hfs => ?_)
    (spells_greek h).lexes ?_ (derives_operandOf? he)
  · have hread := IsCommandName.commandName (.inl ⟨hne, hletters⟩) hrest.2
    exact .piece (.command hread (by rw [hcommand]; rfl)) hfs
  · rw [hname]
    rw [hname, List.forall_mem_cons] at hletters
    exact allBlank_cons (isBlank_of_isPlain (isPlain_of_isLetter hletters.1)) tail

section Content

variable {cs : List Char} {es : List Edit} {ks : List Lexeme} {e : Expr}

/-- A group is an operand in parentheses. -/
theorem translates_group (h : Content cs es ks e) : Translates (.base false) (braced cs) e := by
  refine translates_operand (inParens (Edit.text es)) (fun rest fs _ hfs => ?_)
    h.lexes.inParens.toLexes (allBlank_cons (by decide) _) (.group h.derives)
  have hgroup := Runs.group h.neutral.balanced h.runs hfs
  simpa [braced] using hgroup

theorem Content.enclosed (h : Content cs es ks e) : Enclosed '{' '}' (braced cs) cs :=
  enclosed_of_balanced h.neutral.balanced

/-- The name of a command of letters ends where no letter follows. -/
theorem commandName_letters {name rest : List Char} (hne : name ≠ [])
    (hletters : ∀ c ∈ name, isLetter c = true) (hrest : ∀ c ∈ rest.head?, isLetter c = false) :
    commandName (name ++ rest) = (name, rest) :=
  IsCommandName.commandName (.inl ⟨hne, hletters⟩) fun _ => hrest

theorem translates_function {name f : String} (h : IsFunctionCommand name f)
    (hcontent : Content cs es ks e) :
    Translates (.base false) ('\\' :: (name.toList ++ braced cs)) (.call f [e]) := by
  have hbrace : isLetter '{' = false := by decide
  obtain ⟨⟨g, rfl⟩, hcommand⟩ := h.command
  have hread (rest : List Char) : commandName (name.toList ++ (braced cs ++ rest)) =
      (name.toList, braced cs ++ rest) :=
    commandName_letters h.name_ne h.1 (by simpa [braced] using hbrace)
  have hcall : Derives (.function g.name :: .openParen :: (ks ++ [.closeParen]))
      (.atom (.call g.name [e])) := .call (.function g.name) (.argument hcontent.derives)
  rcases hcommand with hcommand | ⟨rfl, hsqrt⟩
  · refine ⟨[.operand g.name.toList true, .append (inParens (Edit.text es))],
      fun rest fs _ hfs => ?_, _, hcall, fun out ls hout => ?_⟩
    · have hfunction := Runs.function (hread rest) (by rw [String.ofList_toList]; exact hcommand)
        (.groupArgument hcontent.enclosed hcontent.runs hfs)
      simpa using hfunction
    · exact hout.call (spells_function g).lexes hcontent.lexes
  · refine translates_operand (Function.sqrt.name.toList ++ inParens (Edit.text es))
      (fun rest fs _ hfs => ?_) ?_ (allBlank_cons (by decide) _) hcall
    · have hroot := Runs.squareRoot (hread rest) rfl hcontent.enclosed hcontent.runs hfs
      simpa using hroot
    · rw [hsqrt]
      exact ((spells_function .sqrt).lexes.call hcontent.lexes).toLexes

/-- A delimiter behind `\left` or `\right`. -/
theorem emits_delimiter (name : List Char) {left : Bool} {c : Char} {piece : String}
    (hne : name ≠ []) (hletters : ∀ c ∈ name, isLetter c = true)
    (hcommand : Command.ofName (String.ofList name) = .delimiter left) (hc : isLetter c = false)
    (h : ∀ rest, delimiter? left (c :: rest) = some (piece, rest)) (rest : List Char) :
    Emits ('\\' :: (name ++ [c])) rest (delimiterEdits left piece) := by
  have hread : commandName (name ++ ([] ++ ([c] ++ rest))) = (name, [] ++ ([c] ++ rest)) :=
    commandName_letters hne hletters (by simpa using hc)
  exact .delimiter hread hcommand (by simp) (h rest)

/-- A formula between `\left` and `\right`. -/
theorem translates_delimited {opening closing : Char} (piece : String) {ks' : List Lexeme}
    {whole : Expr} (hopening : isLetter opening = false) (hclosing : isLetter closing = false)
    (hleft : ∀ rest, delimiter? true (opening :: rest) = some (piece, rest))
    (hright : ∀ rest, delimiter? false (closing :: rest) = some (")", rest))
    (hpiece : LexesBefore piece.toList ks') (hne : piece ≠ "")
    (h : Translates .formula cs e)
    (hwhole : ∀ ks, Derives ks (.sum e) → Derives (ks' ++ (ks ++ [.closeParen])) (.atom whole)) :
    Translates (.base false)
      ('\\' :: ("left".toList ++ opening :: (cs ++ '\\' :: ("right".toList ++ [closing])))) whole := by
  obtain ⟨es, hruns, ks, hderives, hadds⟩ := h
  refine ⟨.opening piece.toList true :: (es ++ [.closing [')']]), fun rest fs _ hfs => ?_, _,
    hwhole ks hderives, fun out ls hout => ?_⟩
  · have hbackslash : isPlain '\\' = false := by decide
    have hlast := Runs.piece (emits_delimiter "right".toList (by decide)
      (List.all_eq_true.mp (by decide)) rfl hclosing hright rest) hfs
    have hcontent := hruns _ _ (follows_of_not_plain (by simpa using hbackslash)) hlast
    have hfirst := Runs.piece (emits_delimiter "left".toList (by decide)
      (List.all_eq_true.mp (by decide)) rfl hopening hleft _) hcontent
    simpa [delimiterEdits, hne] using hfirst
  · obtain ⟨bare, hdone⟩ := hadds _ _ (hout.opening hpiece)
    rw [Edit.applyAll_cons, Edit.applyAll_append]
    have hclosed := hdone.closeParen
    rw [List.append_assoc, List.append_assoc] at hclosed
    exact hclosed

theorem text_operand (piece : List Char) {fromCommand : Bool} :
    Edit.text [.operand piece fromCommand] = piece := by
  simp [Edit.text, Edit.applyAll, Edit.apply, Output.operand, Output.text]

end Content

section Braced

variable {xs ys : List Char} {es es' : List Edit} {ks ks' : List Lexeme} {a b : Expr}

/-- A fraction in braces. -/
theorem translates_fraction {name : String} (h : name ∈ ["frac", "dfrac", "tfrac"])
    (hx : Content xs es ks a) (hy : Content ys es' ks' b) :
    Translates (.base false) (braced ('\\' :: (name.toList ++ (braced xs ++ braced ys))))
      (.binary "/" a b) := by
  have hbrace : isLetter '{' = false := by decide
  have hnames : ∀ name ∈ ["frac", "dfrac", "tfrac"], name.toList ≠ [] ∧
      name.toList.all isLetter = true := by decide
  obtain ⟨hne, hletters⟩ := hnames name h
  have hcommand : Command.ofName (String.ofList name.toList) = .fraction := by
    rw [String.ofList_toList]
    simp only [List.mem_cons, List.not_mem_nil, or_false] at h
    rcases h with rfl | rfl | rfl <;> rfl
  have hread : commandName (name.toList ++ (braced xs ++ (braced ys ++ []))) =
      (name.toList, braced xs ++ (braced ys ++ [])) :=
    commandName_letters hne (List.all_eq_true.mp hletters) (by simpa [braced] using hbrace)
  have hruns := Runs.fraction hread hcommand hx.enclosed hx.runs hy.enclosed hy.runs .finish
  rw [List.append_nil] at hruns
  refine translates_group ⟨isNeutral_fraction h hx.neutral hy.neutral, hruns, ?_,
    .product (.multiply (.signed (.power (.atom (.group hx.derives)))) (.inr rfl)
      (.power (.atom (.group hy.derives))))⟩
  rw [text_operand]
  have hover := isMark_operator (c := '/') (by decide)
  exact (hx.lexes.inParens.append (hover.lexesBefore.append hy.lexes.inParens)).toLexes

/-- A root with an index in braces. -/
theorem translates_root (hx : Content xs es ks a) (hy : Content ys es' ks' b) :
    Translates (.base false)
      (braced ('\\' :: ("sqrt".toList ++ ('[' :: (xs ++ [']']) ++ braced ys))))
      (.binary "^" b (.binary "/" (.number 1.0) a)) := by
  have hbracket : isLetter '[' = false := by decide
  have hread : commandName ("sqrt".toList ++ ('[' :: (xs ++ [']']) ++ (braced ys ++ []))) =
      ("sqrt".toList, '[' :: (xs ++ [']']) ++ (braced ys ++ [])) :=
    commandName_letters (by decide) (List.all_eq_true.mp (by decide))
      (by simpa using hbracket)
  have hruns := Runs.root hread rfl (enclosed_of_balanced hx.neutral.balanced_brackets) hx.runs
    hy.enclosed hy.runs .finish
  rw [List.append_nil] at hruns
  have hone : Lexes ['1'] [.number 1.0] := by
    have hrun : IsMantissa ['1'] := ⟨by simp, by simp [isDigit_of_isDigit], by decide⟩
    have hspells := Spells.number hrun .none (rfl : Double.read? ['1'] = some 1.0)
    exact hspells.lexes
  have hexponent : Derives (.number 1.0 :: .operator "/" :: .openParen :: (ks ++ [.closeParen]))
      (.sum (.binary "/" (.number 1.0) a)) :=
    .product (.multiply (.signed (.power (.atom (.number 1.0)))) (.inr rfl)
      (.power (.atom (.group hx.derives))))
  refine translates_group ⟨isNeutral_root hx.neutral hy.neutral, hruns, ?_,
    .product (.signed (.power (.raise (.group hy.derives) (.power (.atom (.group hexponent))))))⟩
  rw [text_operand]
  have hraise := isMark_operator (c := '^') (by decide)
  have hover := (hone.mark (isMark_operator (c := '/') (by decide))).append hx.lexes.inParens
  have hall := hy.lexes.inParens.append (hraise.lexesBefore.append hover.toLexes.inParens)
  exact hall.toLexes

/-- An operand with an exponent. -/
theorem translates_raised {plain : Bool} (h : Translates (.base plain) xs a)
    (hy : Content ys es ks b) :
    Translates (.factor plain false) (xs ++ '^' :: braced ys) (.binary "^" a b) := by
  obtain ⟨es', hruns, ks', ha, hadds⟩ := h
  refine ⟨es' ++ [.closing ('^' :: inParens (Edit.text es))], fun rest fs _ hfs => ?_, _,
    .raise ha (.power (.atom (.group hy.derives))), fun out ls hout => ?_⟩
  · have hcaret : isPlain '^' = false := by decide
    have hpower := Runs.power hy.enclosed hy.runs hfs
    have hbase := hruns _ _ (follows_of_not_plain (by simpa using hcaret)) hpower
    simpa [braced] using hbase
  · have hraised := (hadds out ls hout).raised hy.lexes
    rw [Edit.applyAll_append, ← List.append_assoc]
    exact hraised

end Braced

/-! ## Signs -/

theorem IsSpace.head_append {space rest : List Char} (h : IsSpace space)
    (hrest : ∀ c ∈ rest.head?, isPlain c = false) :
    ∀ c ∈ (space ++ rest).head?, isPlain c = false := by
  cases space with
  | nil => exact hrest
  | cons c space => exact h.head

/-- A text for an operator. -/
structure IsOperator (sign : List Char) (op : Char) : Prop where
  mem : op ∈ ['+', '-', '*', '/', '^']
  head : ∃ c tail, sign = c :: tail ∧ isPlain c = false
  runs : ∀ rest fs, Apart sign rest → Runs [] .piece rest fs →
    Runs [] .piece (sign ++ rest) (.operator [op] :: fs)

theorem isOperator_char {c : Char} (h : c ∈ ['+', '-', '*', '/']) : IsOperator [c] c := by
  have hsign : c ∈ ['+', '-', '*', '/', '^'] ∧ IsSign c := by
    simp only [List.mem_cons, List.not_mem_nil, or_false] at h
    rcases h with rfl | rfl | rfl | rfl
    all_goals exact ⟨by decide, by decide, by decide, by decide⟩
  exact ⟨hsign.1, ⟨c, [], rfl, hsign.2.2.2⟩, fun rest fs _ hfs => .piece (.sign hsign.2) hfs⟩

theorem IsProductSign.isOperator {sign : List Char} {op : Char} (h : IsProductSign sign op) :
    IsOperator sign op := by
  have hbackslash : isPlain '\\' = false := by decide
  have hcommand {name : List Char} {op : Char} (hmem : op ∈ ['+', '-', '*', '/', '^'])
      (hname : IsCommandName name)
      (hop : Command.ofName (String.ofList name) = .operator op) : IsOperator ('\\' :: name) op := by
    refine ⟨hmem, ⟨'\\', name, rfl, hbackslash⟩, fun rest fs hrest hfs => ?_⟩
    exact .piece (.command (hname.commandName hrest) (by rw [hop]; rfl)) hfs
  cases h with
  | star | slash => exact isOperator_char (by decide)
  | cdot | cross | div =>
      exact hcommand (by decide) (.inl ⟨by decide, List.all_eq_true.mp (by decide)⟩) rfl

/-- An operator with space around it. -/
theorem IsOperator.spaced {space sign space' : List Char} {op : Char} (h : IsOperator sign op)
    (hspace : IsSpace space) (hspace' : IsSpace space') :
    ∃ es, (∀ rest fs, Apart (sign ++ space') rest → Runs [] .piece rest fs →
        Runs [] .piece (space ++ (sign ++ (space' ++ rest))) (es ++ fs)) ∧
      ∀ bare out ls, Done bare out ls →
        Ready (Edit.applyAll out es) (ls ++ [.operator (String.singleton op)]) := by
  obtain ⟨c, tail, hsign, hc⟩ := h.head
  obtain ⟨es, hruns, -, hdone⟩ := hspace.runs
  obtain ⟨es', hruns', hready, -⟩ := hspace'.runs
  refine ⟨es ++ .operator [op] :: es', fun rest fs hapart hfs => ?_, fun bare out ls hout => ?_⟩
  · have hbehind := h.runs _ _ (hapart.through hspace') (hruns' rest fs hapart.of_append hfs)
    have hbefore : Apart space (sign ++ (space' ++ rest)) :=
      apart_of_not_plain (by rw [hsign]; simpa using hc)
    rw [List.append_assoc]
    exact hruns _ _ hbefore hbehind
  · rw [Edit.applyAll_append]
    exact hready _ _ ((hdone bare out ls hout).operator h.mem)

section Signs

variable {xs ys space sign space' : List Char} {op : Char} {a b : Expr} {bare bare' : Bool}

theorem translates_minus (hspace : IsSpace space) (hapart : Apart space xs) (hne : xs ≠ [])
    (h : Translates (.signed bare) xs a) :
    Translates (.signed bare) ('-' :: (space ++ xs)) (.negate a) := by
  have hminus := isOperator_char (c := '-') (by decide)
  obtain ⟨es, hruns, ks, ha, hadds⟩ := h
  obtain ⟨es', hruns', hready, -⟩ := hspace.runs
  refine ⟨.operator ['-'] :: (es' ++ es), fun rest fs hrest hfs => ?_, _, .minus ha,
    fun out ls hout => ?_⟩
  · have hpart : Apart ('-' :: space ++ xs) rest := hrest.2
    have hoperand := hruns rest fs ⟨hrest.1, hpart.of_append⟩ hfs
    have hspaced := hruns' _ _ (hapart.before hne rest) hoperand
    simpa using hminus.runs _ _ ((apart_nil _).cons (by decide)) hspaced
  · rw [Edit.applyAll_cons, Edit.applyAll_append]
    have hdone := hadds _ _ (hready _ _ (hout.operator hminus.mem))
    rwa [List.append_assoc] at hdone

/-- Operands next to each other. -/
theorem translates_juxtapose {plain : Bool} (ha : Translates (.term bare) xs a)
    (hspace : IsSpace space) (hb : Translates (.factor plain bare') ys b)
    (hhead : ∃ c tail, ys = c :: tail ∧ (plain = false → isPlain c = false))
    (hboth : (bare && plain) = false) (hapart : Apart (xs ++ space) ys) :
    Translates (.term bare') (xs ++ (space ++ ys)) (.binary "*" a b) := by
  obtain ⟨es, hruns, ks, ha, hadds⟩ := ha
  obtain ⟨es', hruns', ks', hb, hadds'⟩ := hb
  obtain ⟨fs', hspaces, -, hdone⟩ := hspace.runs
  refine ⟨es ++ (fs' ++ es'), fun rest fs hrest hfs => ?_, _,
    .multiply ha (.inl rfl) (.power hb), fun out ls hout => ?_⟩
  · obtain ⟨c, tail, rfl, hc⟩ := hhead
    have hpart : Apart (c :: tail) rest := hrest.2.of_append.of_append
    have hright := hruns' rest fs ⟨hrest.1, hpart⟩ hfs
    have hmiddle := hspaces _ _ (hapart.of_append.before (List.cons_ne_nil _ _) rest) hright
    have hleft := hruns (space ++ (c :: tail ++ rest)) _ ?_ hmiddle
    · simpa using hleft
    · refine Follows.through (hapart.before (List.cons_ne_nil _ _) rest) hspace fun hbare => ?_
      have hplain : plain = false := by simpa [show bare = true from hbare] using hboth
      simpa using hc hplain
  · rw [Edit.applyAll_append, Edit.applyAll_append]
    have hfactor := hadds' _ _ ((hdone _ _ _ (hadds out ls hout)).accepts (by simpa using hboth))
    simpa using hfactor

theorem translates_multiply (ha : Translates (.term bare) xs a) (hspace : IsSpace space)
    (hsign : IsProductSign sign op) (hspace' : IsSpace space')
    (hb : Translates (.signed bare') ys b) (hne : ys ≠ []) (hapart : Apart (sign ++ space') ys) :
    Translates (.term bare') (xs ++ (space ++ (sign ++ (space' ++ ys))))
      (.binary (String.singleton op) a b) := by
  obtain ⟨es, hruns, ks, ha, hadds⟩ := ha
  obtain ⟨es', hruns', ks', hb, hadds'⟩ := hb
  obtain ⟨fs', hspaced, hready⟩ := hsign.isOperator.spaced hspace hspace'
  have hop : IsMultiplicative (String.singleton op) := by
    cases hsign <;> first | exact .inl rfl | exact .inr rfl
  refine ⟨es ++ (fs' ++ es'), fun rest fs hrest hfs => ?_, _,
    .multiply ha hop hb, fun out ls hout => ?_⟩
  · have hpart : Apart ys rest := hrest.2.of_append.of_append.of_append.of_append
    have hright := hruns' rest fs ⟨hrest.1, hpart⟩ hfs
    have hmiddle := hspaced _ _ (hapart.before hne rest) hright
    obtain ⟨c, tail, htext, hc⟩ := hsign.isOperator.head
    have hleft := hruns _ _ (follows_of_not_plain
      (hspace.head_append (by rw [htext]; simpa using hc))) hmiddle
    simpa using hleft
  · rw [Edit.applyAll_append, Edit.applyAll_append]
    have hright := hadds' _ _ (hready _ _ _ (hadds out ls hout))
    simpa using hright

/-- A sign of sums. -/
theorem additive_of_mem (h : op ∈ ['+', '-']) :
    op ∈ ['+', '-', '*', '/'] ∧ op ≠ '\\' ∧ IsAdditive (String.singleton op) := by
  rcases List.mem_cons.mp h with rfl | h
  · exact ⟨by decide, by decide, .inl rfl⟩
  · cases List.mem_singleton.mp h
    exact ⟨by decide, by decide, .inr rfl⟩

theorem translates_add (ha : Translates .formula xs a) (hspace : IsSpace space)
    (hop : op ∈ ['+', '-']) (hspace' : IsSpace space')
    (hb : Translates (.term bare) ys b) (hne : ys ≠ []) (hapart : Apart space' ys) :
    Translates .formula (xs ++ (space ++ op :: (space' ++ ys)))
      (.binary (String.singleton op) a b) := by
  obtain ⟨es, hruns, ks, ha, hadds⟩ := ha
  obtain ⟨es', hruns', ks', hb, hadds'⟩ := hb
  obtain ⟨hmem, hbackslash, hadditive⟩ := additive_of_mem hop
  have hoperator := isOperator_char hmem
  obtain ⟨fs', hspaced, hready⟩ := hoperator.spaced hspace hspace'
  refine ⟨es ++ (fs' ++ es'), fun rest fs hrest hfs => ?_, _,
    .add ha hadditive hb, fun out ls hout => ?_⟩
  · have hpart : Apart ([op] ++ (space' ++ ys)) rest := hrest.2.of_append.of_append
    have hright := hruns' rest fs ⟨fun _ => hrest.1 rfl, hpart.of_append.of_append⟩ hfs
    have hmiddle := hspaced _ _ ((hapart.before hne rest).cons hbackslash) hright
    obtain ⟨c, tail, htext, hc⟩ := hoperator.head
    have hleft := hruns _ _ (follows_of_not_plain
      (hspace.head_append (by rw [htext]; simpa using hc))) hmiddle
    simpa using hleft
  · obtain ⟨bare', hdone⟩ := hadds out ls hout
    rw [Edit.applyAll_append, Edit.applyAll_append]
    have hright := hadds' _ _ (hready _ _ _ hdone)
    exact ⟨bare, by simpa using hright⟩

end Signs

/-! ## Formulas -/

theorem Formula.translates {shape : Shape} {cs : List Char} {e : Expr} (h : Formula shape cs e) :
    Translates shape cs e := by
  induction h with
  | atom h => exact h.translates
  | greek h he => exact translates_greek h he
  | group h ih =>
      obtain ⟨es, ks, hcontent⟩ := ih.content h.isNeutral
      exact translates_group hcontent
  | fraction hname hx hy ihx ihy =>
      obtain ⟨es, ks, hx⟩ := ihx.content hx.isNeutral
      obtain ⟨es', ks', hy⟩ := ihy.content hy.isNeutral
      exact translates_fraction hname hx hy
  | root hx hy ihx ihy =>
      obtain ⟨es, ks, hx⟩ := ihx.content hx.isNeutral
      obtain ⟨es', ks', hy⟩ := ihy.content hy.isNeutral
      exact translates_root hx hy
  | function hname h ih =>
      obtain ⟨es, ks, hcontent⟩ := ih.content h.isNeutral
      exact translates_function hname hcontent
  | @delimited opening closing _ _ hpair _ ih =>
      simp only [List.mem_cons, List.not_mem_nil, or_false, Prod.mk.injEq] at hpair
      rcases hpair with ⟨rfl, rfl⟩ | ⟨rfl, rfl⟩
      · exact translates_delimited "(" (by decide) (by decide)
          (fun _ => rfl) (fun _ => rfl) isMark_openParen.lexesBefore (by decide) ih
          fun ks hks => .group hks
      · exact translates_delimited "(" (by decide) (by decide)
          (fun _ => rfl) (fun _ => rfl) isMark_openParen.lexesBefore (by decide) ih
          fun ks hks => .group hks
  | absolute _ ih =>
      have hpiece := (spells_function .abs).lexes.mark isMark_openParen
      exact translates_delimited "abs(" (by decide) (by decide)
        (fun _ => rfl) (fun _ => rfl) hpiece (by decide) ih
        fun ks hks => .call (.function _) (.argument hks)
  | plain _ ih =>
      obtain ⟨es, hruns, ks, hderives, hadds⟩ := ih
      exact ⟨es, hruns, ks, .atom hderives, hadds⟩
  | raised _ h ihx ih =>
      obtain ⟨es, ks, hcontent⟩ := ih.content h.isNeutral
      exact translates_raised ihx hcontent
  | unsigned _ ih =>
      obtain ⟨es, hruns, ks, hderives, hadds⟩ := ih
      exact ⟨es, hruns, ks, .power hderives, fun out ls hout => hadds out ls (hout.accepts _)⟩
  | minus hspace h hapart ih => exact translates_minus hspace hapart h.ne_nil ih
  | single _ ih =>
      obtain ⟨es, hruns, ks, hderives, hadds⟩ := ih
      exact ⟨es, hruns, ks, .signed hderives, hadds⟩
  | juxtapose _ hspace hy hboth hapart ihx ihy =>
      exact translates_juxtapose ihx hspace ihy hy.head hboth hapart
  | multiply _ hspace hsign hspace' hy hapart ihx ihy =>
      exact translates_multiply ihx hspace hsign hspace' ihy hy.ne_nil hapart
  | sum _ ih =>
      obtain ⟨es, hruns, ks, hderives, hadds⟩ := ih
      exact ⟨es, hruns.mono, ks, .product hderives, fun out ls hout => ⟨_, hadds out ls hout⟩⟩
  | add _ hspace hop hspace' hy hapart ihx ihy =>
      exact translates_add ihx hspace hop hspace' ihy hy.ne_nil hapart

/-! ## Formulas without markup -/

/-- The phrase that a part of a formula is read as. -/
def Shape.phrase (e : Expr) : Shape → Phrase
  | .base _ => .atom e
  | .factor .. => .power e
  | .signed _ => .signed e
  | .term _ => .product e
  | .formula => .sum e

theorem IsSpace.isBlank {cs : List Char} (h : IsSpace cs) (hplain : ∀ c ∈ cs, ¬ IsMarkup c) :
    ∀ c ∈ cs, isBlank c = true := by
  induction h with
  | none => simp
  | blank hblank _ ih =>
      rw [List.forall_mem_cons] at hplain
      exact List.forall_mem_cons.mpr ⟨hblank, ih hplain.2⟩
  | command => exact absurd (.inl rfl) (hplain '\\' (by simp))

/-- A formula without markup consists of bare operands and is read as it is. -/
theorem Formula.reads {shape : Shape} {cs : List Char} {e : Expr} (h : Formula shape cs e)
    (hplain : ∀ c ∈ cs, ¬ IsMarkup c) : shape.plain = true ∧ shape.bare = true ∧
      ∃ ks, Lexes cs ks ∧ Derives ks (shape.phrase e) := by
  induction h with
  | atom h =>
      obtain ⟨l, hl, he⟩ := Option.bind_eq_some_iff.mp h.operand
      have hcut := Cut.of_lexemeOf? hl
      rw [String.toList_ofList] at hcut
      exact ⟨rfl, rfl, _, hcut.lexes, derives_operandOf? he⟩
  | greek | function | delimited | absolute => exact absurd (.inl rfl) (hplain '\\' (by simp))
  | group | fraction | root | raised =>
      exact absurd (.inr rfl) (hplain '{' (by simp [braced]))
  | plain _ ih =>
      obtain ⟨hbare, -, ks, hlexes, hderives⟩ := ih hplain
      exact ⟨hbare, hbare, ks, hlexes, .atom hderives⟩
  | unsigned _ ih =>
      obtain ⟨-, hbare, ks, hlexes, hderives⟩ := ih hplain
      exact ⟨rfl, hbare, ks, hlexes, .power hderives⟩
  | minus hspace _ _ ih =>
      obtain ⟨-, hbare, ks, hlexes, hderives⟩ := ih fun c hc => hplain c (by simp [hc])
      have hblanks := hspace.isBlank fun c hc => hplain c (by simp [hc])
      exact ⟨rfl, hbare, _, lexes_nil.between (by simp : ∀ c ∈ [], isBlank c = true) (by decide) hblanks hlexes,
        .minus hderives⟩
  | single _ ih =>
      obtain ⟨-, hbare, ks, hlexes, hderives⟩ := ih hplain
      exact ⟨rfl, hbare, ks, hlexes, .signed hderives⟩
  | juxtapose _ _ _ hboth _ ihx ihy =>
      obtain ⟨-, hbare, -⟩ := ihx fun c hc => hplain c (by simp [hc])
      obtain ⟨hfirst, -⟩ := ihy fun c hc => hplain c (by simp [hc])
      dsimp only [Shape.bare, Shape.plain] at hbare hfirst
      rw [hbare, hfirst] at hboth
      cases hboth
  | @multiply _ _ _ sign _ _ _ _ _ _ _ hspace hsign hspace' _ _ ihx ihy =>
      obtain ⟨-, -, ks, hx, ha⟩ := ihx fun c hc => hplain c (by simp [hc])
      obtain ⟨-, hbare, ks', hy, hb⟩ := ihy fun c hc => hplain c (by simp [hc])
      have hblanks := hspace.isBlank fun c hc => hplain c (by simp [hc])
      have hblanks' := hspace'.isBlank fun c hc => hplain c (by simp [hc])
      have hread (op : Char) (hop : op ∈ ['+', '-', '*', '/', '^']) :=
        hx.between hblanks hop hblanks' hy
      refine ⟨rfl, hbare, ?_⟩
      cases hsign with
      | star => exact ⟨_, hread '*' (by decide), .multiply ha (.inl rfl) hb⟩
      | slash => exact ⟨_, hread '/' (by decide), .multiply ha (.inr rfl) hb⟩
      | cdot | cross | div => exact absurd (.inl rfl) (hplain '\\' (by simp))
  | sum _ ih =>
      obtain ⟨-, -, ks, hlexes, hderives⟩ := ih hplain
      exact ⟨rfl, rfl, ks, hlexes, .product hderives⟩
  | @add _ _ _ _ op _ _ _ _ hspace hop hspace' _ _ ihx ihy =>
      obtain ⟨-, -, ks, hx, ha⟩ := ihx fun c hc => hplain c (by simp [hc])
      obtain ⟨-, -, ks', hy, hb⟩ := ihy fun c hc => hplain c (by simp [hc])
      have hblanks := hspace.isBlank fun c hc => hplain c (by simp [hc])
      have hblanks' := hspace'.isBlank fun c hc => hplain c (by simp [hc])
      obtain ⟨hmem, -, hadditive⟩ := additive_of_mem hop
      exact ⟨rfl, rfl, _, hx.between hblanks (isOperator_char hmem).mem hblanks' hy,
        .add ha hadditive hb⟩

/-! ## Whole texts -/

/-- Every formula is read as its tree. -/
theorem ofText_of_formula {text : String} {e : Expr} (h : Formula .formula text.toList e) :
    ofText text = .ok e := by
  by_cases hmarkup : isMarkup text = true
  · obtain ⟨es, ks, hcontent⟩ := h.translates.content h.isNeutral
    have hplain : plainOf text = .ok (String.ofList (Edit.text es)) := by
      rw [plainOf, if_pos hmarkup, toPlain_eq_write, hcontent.runs.written.whole]
      rfl
    rw [ofText_of_plain hplain]
    have hscans := hcontent.lexes.scans
    rw [← String.toList_ofList (l := Edit.text es)] at hscans
    exact ofPlain_of_derives hscans hcontent.derives
  · have hplain : ∀ c ∈ text.toList, ¬ IsMarkup c := by
      simpa [isMarkup, IsMarkup] using hmarkup
    obtain ⟨-, -, ks, hlexes, hderives⟩ := h.reads hplain
    rw [ofText_of_plain (plainOf_of_scans hlexes.scans)]
    exact ofPlain_of_derives hlexes.scans hderives

/-- A wave with a growing factor. -/
private def waveText : String :=
  "x^\x7b2\x7d\x7b\\frac\x7bx\x7d\x7b2\x7d\x7d - 2\\pi\\sin\x7bx\x7d"

private def wave : Expr :=
  .binary "-"
    (.binary "*" (.binary "^" (.var "x") (.number 2.0)) (.binary "/" (.var "x") (.number 2.0)))
    (.binary "*" (.binary "*" (.number 2.0) (.constant "pi")) (.call "sin" [.var "x"]))

theorem ofText_of_formula_wave :
    Formula .formula waveText.toList wave ∧ ofText waveText = .ok wave := by
  have hx : Formula (.base true) ['x'] (.var "x") := .atom ⟨List.all_eq_true.mp (by decide +kernel), by rfl⟩
  have htwo : Formula (.base true) ['2'] (.number 2.0) := .atom ⟨List.all_eq_true.mp (by decide +kernel), by rfl⟩
  have hpi := Formula.greek (by decide : "pi" ∈ greekLetters)
    (rfl : operandOf? (named "pi") = some (.constant "pi"))
  have hvariable : Formula .formula ['x'] (.var "x") := .sum (.single (.unsigned (.plain hx)))
  have hnumber : Formula .formula ['2'] (.number 2.0) := .sum (.single (.unsigned (.plain htwo)))
  have hsine := Formula.function (⟨List.all_eq_true.mp (by decide +kernel), .inr ⟨rfl, by decide⟩⟩ :
    IsFunctionCommand "sin" "sin") hvariable
  have hmarkup : isPlain '\\' = false ∧ isPlain '{' = false := by decide +kernel
  have hhalf := Formula.fraction (by decide : "frac" ∈ _) hvariable hnumber
  have hleft := Formula.juxtapose (.single (.unsigned (.raised hx hnumber))) .none (.plain hhalf)
    rfl (apart_of_not_plain (by simpa [braced] using hmarkup.2))
  have hangle := Formula.juxtapose (.single (.unsigned (.plain htwo))) .none (.plain hpi) rfl
    (apart_of_not_plain (by simpa using hmarkup.1))
  have hright := Formula.juxtapose hangle .none (.plain hsine) rfl
    (apart_of_not_plain (by simpa using hmarkup.1))
  have hspace : IsSpace [' '] := .blank (by decide) .none
  have hwave : Formula .formula waveText.toList wave :=
    .add (.sum hleft) hspace (by decide : '-' ∈ _) hspace hright ((apart_nil _).cons (by decide))
  exact ⟨hwave, ofText_of_formula hwave⟩

end Reckoner.Latex
