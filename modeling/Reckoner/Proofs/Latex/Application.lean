import Reckoner.Proofs.Failure
import Reckoner.Proofs.Latex.Bracing
import Reckoner.Proofs.Latex.Extension

/-!
# Functions in front of operands

A function command is applied to the operand behind it where the operand is put between parentheses:
a group, a bare name or number, a Greek letter, and what stands between delimiters. Every other
command is written behind the function as it is everywhere else. So of a fraction the function
takes the numerator alone, and in front of a name or a number it is left without its parenthesis.
-/

namespace Reckoner.Token

open Reckoner.Text

variable {as bs cs : List Char} {ls ks : List Lexeme} {l : Lexeme}

theorem Scans.readsPart (h : Scans cs (ls ++ [.finish])) : ReadsPart cs ls := by
  have hwhole : Scans (cs ++ []) (ls ++ [.finish]) := by rwa [List.append_nil]
  obtain ⟨as, tail, hparts, has, htail⟩ := hwhole.parts stops_nil
  obtain rfl := htail.unique scans_nil
  rwa [List.append_cancel_right hparts]

/-- A name or a number in front of blanks or of a parenthesis. -/
theorem Lexes.before (ha : Lexes as ls) (hb : LexesBefore bs ks)
    (hstops : ∀ rest, Stops (bs ++ rest)) : LexesBefore (as ++ bs) (ls ++ ks) := by
  intro rest ls' h
  rw [List.append_assoc, List.append_assoc]
  refine ha _ _ (fun c hc => ?_) (hb rest ls' h)
  obtain ⟨hname, hpoint⟩ := hstops rest c hc
  refine ⟨hname, ?_⟩
  rintro rfl
  exact hpoint (by decide)

/-- A text between parentheses, perhaps behind blanks. -/
theorem ReadsPart.called {blanks : List Char} {f : String} (hf : Lexes f.toList [.function f])
    (hblanks : ∀ b ∈ blanks, isBlank b = true) (h : ReadsPart as ls) :
    LexesBefore (f.toList ++ (blanks ++ Latex.inParens as)) (.function f :: Expr.enclosed ls) := by
  have hparens : LexesBefore (blanks ++ Latex.inParens as) ([] ++ Expr.enclosed ls) :=
    (lexesBefore_nil.blanks hblanks).append h.inParens
  exact hf.before hparens fun rest => by
    rw [List.append_assoc]
    exact stops_blanks hblanks (stops_openParen _)

end Reckoner.Token

namespace Reckoner.Latex

open Reckoner.Text Reckoner.Token Reckoner.Expr

variable {cs blanks : List Char} {es : List Edit} {ks : List Lexeme} {e : Expr}

/-! ## Texts that are read -/

/-- The text has a plain notation, which is read as the tree. -/
def Reads (cs : List Char) (e : Expr) : Prop :=
  ∃ plain, toPlain (String.ofList cs) = .ok plain ∧ ofPlain plain = .ok e

/-- The text runs to the edits, and these make the lexemes of the tree. -/
structure Shows (cs : List Char) (es : List Edit) (ks : List Lexeme) (e : Expr) : Prop where
  runs : Runs [] .piece cs es
  text : ReadsPart (Edit.text es) ks
  derives : Derives ks (.sum e)

theorem Runs.toPlain (h : Runs [] .piece cs es) :
    toPlain (String.ofList cs) = .ok (String.ofList (Edit.text es)) := by
  rw [toPlain_eq_write, String.toList_ofList, h.written.whole]
  rfl

theorem Runs.reads (h : Runs [] .piece cs es) (htext : LexesBefore (Edit.text es) ks)
    (hderives : Derives ks (.sum e)) : Reads cs e := by
  refine ⟨_, h.toPlain, ofPlain_of_derives ?_ hderives⟩
  rw [String.toList_ofList]
  exact htext.readsPart.scans

theorem Reads.shows_of_runs (h : Reads cs e) (hruns : Runs [] .piece cs es) :
    ∃ ks, Shows cs es ks e := by
  obtain ⟨plain, hplain, he⟩ := h
  rw [hruns.toPlain] at hplain
  cases hplain
  obtain ⟨ks, hscans, -, hderives⟩ := derives_of_ofPlain he
  rw [String.toList_ofList] at hscans
  exact ⟨ks, hruns, hscans.readsPart, hderives⟩

theorem Reads.shows (h : Reads cs e) : ∃ es ks, Shows cs es ks e := by
  have ⟨plain, hplain, _⟩ := h
  rw [toPlain_eq_write] at hplain
  obtain ⟨out, hout, -⟩ := exists_of_bind_eq_ok hplain
  rw [String.toList_ofList] at hout
  obtain ⟨es, hruns, -⟩ := runs_of_write hout
  exact ⟨es, h.shows_of_runs hruns⟩

/-- The text is read as the tree, and no backslash at its end takes the next character. -/
structure Complete (cs : List Char) (e : Expr) : Prop where
  whole : Whole cs
  reads : Reads cs e

theorem Complete.balanced (h : Complete cs e) : Balanced '{' '}' cs := by
  obtain ⟨es, ks, hshows⟩ := h.reads.shows
  obtain ⟨front, hfront, hsolid⟩ := hshows.runs.solid (.inr h.whole)
  rw [List.append_nil] at hfront
  exact hfront ▸ hsolid.balanced

theorem Complete.enclosed (h : Complete cs e) : Enclosed '{' '}' (braced cs) cs :=
  enclosed_of_balanced h.balanced

/-! ## Operands -/

/-- A function command in front of a text, with blanks between them. -/
def applied (name : String) (blanks cs : List Char) : List Char :=
  '\\' :: (name.toList ++ (blanks ++ cs))

/-- What a function in front of an operand is applied to. -/
inductive Taking where
  | whole
  /-- The numerator alone, given both parts of a fraction. -/
  | numerator (a b : Expr)
  | nothing

/-- Texts that may stand behind a function, with their trees and with what of them it takes. -/
inductive Argument : Taking → List Char → Expr → Prop
  | group {cs : List Char} {e : Expr} (h : Complete cs e) : Argument .whole (braced cs) e
  | letter {name argument : String} {e : Expr} (h : bareArgument? name = some argument)
      (he : Reads ('\\' :: name.toList) e) : Argument .whole ('\\' :: name.toList) e
  | bare {c : Char} {run : List Char} {e : Expr} (hc : isAlphanumeric c = true)
      (hrun : ∀ d ∈ run, isPlain d = true) (he : Reads (c :: run) e) :
      Argument .whole (c :: run) e
  | delimited {opening closing : Char} {cs : List Char} {e : Expr}
      (hpair : (opening, closing) ∈ [('(', ')'), ('[', ']')]) (h : Complete cs e) :
      Argument .whole
        ('\\' :: ("left".toList ++ opening :: (cs ++ '\\' :: ("right".toList ++ [closing])))) e
  | fraction {name : String} {above below : List Char} {a b : Expr}
      (hname : name ∈ ["frac", "dfrac", "tfrac"]) (ha : Complete above a) (hb : Complete below b) :
      Argument (.numerator a b) ('\\' :: (name.toList ++ (braced above ++ braced below)))
        (.binary "/" a b)
  | function {name f : String} {cs : List Char} {e : Expr} (hname : IsFunctionCommand name f)
      (h : Complete cs e) :
      Argument .nothing ('\\' :: (name.toList ++ braced cs)) (.call f [e])
  | absolute {cs : List Char} {e : Expr} (h : Complete cs e) :
      Argument .nothing
        ('\\' :: ("left".toList ++ '|' :: (cs ++ '\\' :: ("right".toList ++ ['|']))))
        (.call "abs" [e])
  | point {run : List Char} {e : Expr} (hrun : ∀ d ∈ run, isPlain d = true)
      (he : Reads ('.' :: run) e) : Argument .nothing ('.' :: run) e

/-- What a text is read as in which a function stands in front of an operand. -/
def Taking.Outcome (f : String) (e : Expr) (cs : List Char) : Taking → Prop
  | .whole => Reads cs (.call f [e])
  | .numerator a b => Reads cs (.binary "/" (.call f [a]) b)
  | .nothing => ∃ plain err, toPlain (String.ofList cs) = .ok plain ∧
      ofPlain plain = .error err ∧ err.cause = .missingParenthesis f

/-! ## Calls -/

theorem derives_call {f : String} (h : Derives ks (.sum e)) :
    Derives (.function f :: Expr.enclosed ks) (.atom (.call f [e])) :=
  .call (.function f) (.argument h)

theorem derives_sum_of_atom (h : Derives ks (.atom e)) : Derives ks (.sum e) :=
  .product (.signed (.power (.atom h)))

/-- A function in front of a text between parentheses. -/
theorem Runs.reads_call {f : Function} {as : List Char} (h : Runs [] .piece cs es)
    (htext : Edit.text es = f.name.toList ++ (blanks ++ inParens as))
    (hblanks : ∀ b ∈ blanks, isBlank b = true) (has : ReadsPart as ks)
    (hderives : Derives ks (.sum e)) : Reads cs (.call f.name [e]) := by
  refine h.reads ?_ (derives_sum_of_atom (derives_call hderives))
  rw [htext]
  exact has.called (spells_function f).lexes hblanks

/-! ## Functions that wait -/

theorem runs_blanks {stop rest : List Char} {fs : List Edit}
    (hblanks : ∀ b ∈ blanks, isBlank b = true) (h : Runs stop .piece rest fs) :
    Runs stop .piece (blanks ++ rest) (blankEdits blanks ++ fs) := by
  induction blanks with
  | nil => exact h
  | cons b blanks ih =>
      rw [List.forall_mem_cons] at hblanks
      have hall : Runs stop .piece ([b] ++ (blanks ++ rest))
          ([.append [b]] ++ (blankEdits blanks ++ fs)) := .piece (.blank hblanks.1) (ih hblanks.2)
      exact hall

theorem noArgument_left (rest : List Char) : NoArgument ('\\' :: ("left".toList ++ rest)) := by
  have hprefix : "left".toList.isPrefixOf ("left".toList ++ rest) = true :=
    List.isPrefixOf_iff_prefix.mpr (List.prefix_append _ _)
  exact .inl hprefix

theorem noArgument_command {name rest : List Char}
    (hread : commandName (name ++ rest) = (name, rest))
    (hname : bareArgument? (String.ofList name) = none) : NoArgument ('\\' :: (name ++ rest)) := by
  refine .inr ?_
  rw [hread]
  exact hname

/-- An operand, or an operand that has only begun, with something to see in it. -/
inductive Edit.Leads (piece : List Char) : Edit → Prop
  | operand {fromCommand : Bool} (h : allBlank piece = false) :
      Leads piece (.operand piece fromCommand)
  | opening {fromCommand : Bool} (h : allBlank piece = false) :
      Leads piece (.opening piece fromCommand)

theorem Edit.Leads.not_allBlank {edit : Edit} {piece : List Char} (h : edit.Leads piece) :
    allBlank piece = false := by
  cases h with
  | operand h | opening h => exact h

/-- A function that waits makes no difference to the operand. -/
theorem Edit.Leads.behind {edit : Edit} {piece : List Char} (h : edit.Leads piece)
    (front : List (List Char)) :
    ∃ start, Behind [piece] start (edit.apply {}) ∧
      Behind (piece :: front) start (edit.apply ⟨front, true, true, true⟩) := by
  cases h with
  | @operand fromCommand =>
      exact ⟨⟨[], true, fromCommand, false⟩, ⟨rfl, rfl, rfl, fun _ => rfl⟩,
        ⟨rfl, rfl, rfl, fun _ => rfl⟩⟩
  | @opening fromCommand =>
      exact ⟨⟨[], false, fromCommand, false⟩, ⟨rfl, rfl, rfl, fun _ => rfl⟩,
        ⟨rfl, rfl, rfl, fun h => by cases h⟩⟩

theorem Edit.Leads.text {edit : Edit} {piece : List Char} (h : edit.Leads piece) (f : List Char)
    (es : List Edit) :
    Edit.text (.operand f true :: .awaiting :: (blankEdits blanks ++ edit :: es)) =
      f ++ (blanks ++ Edit.text (edit :: es)) := by
  have hfront : Edit.applyAll {} (.operand f true :: .awaiting :: blankEdits blanks) =
      ⟨(blanks.map fun b => [b]).reverse ++ [f], true, true, true⟩ := by
    rw [Edit.applyAll_cons, Edit.applyAll_cons, applyAll_blankEdits]
    rfl
  have hblanks : (blanks.map fun b => [b]).flatten = blanks := List.flatMap_singleton' blanks
  obtain ⟨start, halone, hbehind⟩ := h.behind ((blanks.map fun b => [b]).reverse ++ [f])
  have htext := (halone.applyAll ⟨piece, [], rfl, h.not_allBlank⟩ es).text
  have htext' := (hbehind.applyAll ⟨piece, _, rfl, h.not_allBlank⟩ es).text
  rw [Edit.text, ← List.cons_append, ← List.cons_append, Edit.applyAll_append, hfront, Edit.text,
    Edit.applyAll_cons, Edit.applyAll_cons, htext, htext']
  simp [hblanks]

/-- The text is no argument of a function without parentheses, and runs to an operand and more. -/
structure Waits (cs : List Char) (es : List Edit) : Prop where
  runs : Runs [] .piece cs es
  noArgument : NoArgument cs
  leads : ∃ piece edit rest, es = edit :: rest ∧ edit.Leads piece

/-! ## Operands that a function waits for -/

theorem bareArgument?_eq_some {name argument : String} (h : bareArgument? name = some argument) :
    name.toList ≠ [] ∧ (∀ c ∈ name.toList, isLetter c = true) ∧
      Command.ofName name = .operand argument ∧
      "left".toList.isPrefixOf name.toList = false := by
  have hnames : ∀ name ∈ greekLetters, name.toList ≠ [] ∧ name.toList.all isLetter = true ∧
      (meanings.lookup name).isNone = true ∧ (Function.ofName? name).isSome = false ∧
      "left".toList.isPrefixOf name.toList = false := by decide
  unfold bareArgument? at h
  split at h
  case isTrue hgreek =>
      cases h
      obtain ⟨hne, hletters, hmeaning, hfunction, hleft⟩ := hnames name (by simpa using hgreek)
      refine ⟨hne, List.all_eq_true.mp hletters, ?_, hleft⟩
      rw [Command.ofName, Option.isNone_iff_eq_none.mp hmeaning, hfunction]
      rfl
  case isFalse =>
      simp only [symbols, List.lookup] at h
      split at h
      case h_1 hname =>
          cases h
          obtain rfl : name = "infty" := by simpa using hname
          exact ⟨by decide, List.all_eq_true.mp (by decide), rfl, by decide⟩
      case h_2 => cases h

theorem bareArgument?_eq_none {name : String}
    (h : ∀ piece, Command.ofName name ≠ .operand piece) : bareArgument? name = none := by
  cases hargument : bareArgument? name with
  | none => rfl
  | some argument => exact absurd (bareArgument?_eq_some hargument).2.2.1 (h argument)

theorem IsFunctionCommand.not_operand {name f : String} (h : IsFunctionCommand name f)
    (piece : String) : Command.ofName name ≠ .operand piece := by
  obtain ⟨-, hcommand | ⟨rfl, -⟩⟩ := h.command
  · rw [hcommand]
    exact fun h => by cases h
  · exact fun h => by cases h

theorem text_call (f argument : List Char) :
    Edit.text [.operand f true, .append (inParens argument)] = f ++ ([] ++ inParens argument) := by
  simp [Edit.text, Edit.applyAll, Edit.apply, Output.operand, Output.append, Output.text]

/-- A function in front of a group. The square root is a command of its own. -/
theorem Complete.exists_call {name f : String} {es : List Edit} (h : Complete cs e)
    (hes : Runs [] .piece cs es) (hname : IsFunctionCommand name f)
    (hblanks : ∀ b ∈ blanks, isBlank b = true) :
    ∃ es', Runs [] .piece (applied name blanks (braced cs)) es' ∧
      (∃ piece edit rest, es' = edit :: rest ∧ edit.Leads piece) ∧
      Edit.text es' = f.toList ++ ([] ++ inParens (Edit.text es)) := by
  obtain ⟨⟨g, rfl⟩, hcommand⟩ := hname.command
  have hgroup := h.enclosed.behind hblanks
  have hread : commandName (name.toList ++ ((blanks ++ braced cs) ++ [])) =
      (name.toList, (blanks ++ braced cs) ++ []) :=
    commandName_letters hname.name_ne hname.1 (hgroup.head isLetter_brace [])
  rcases hcommand with hcommand | ⟨rfl, hsqrt⟩
  · have hruns := Runs.function hread (by rw [String.ofList_toList]; exact hcommand)
      (.groupArgument hgroup hes .finish)
    rw [List.append_nil] at hruns
    have hblank : allBlank g.name.toList = false := by cases g <;> decide
    exact ⟨_, hruns, ⟨_, _, _, rfl, .operand hblank⟩, text_call _ _⟩
  · have hruns := Runs.squareRoot hread rfl hgroup hes .finish
    rw [List.append_nil] at hruns
    rw [hsqrt]
    exact ⟨_, hruns, ⟨_, _, _, rfl, .operand (allBlank_cons (by decide) _)⟩, text_operand _⟩

theorem Complete.called {name f : String} (h : Complete cs e) (hname : IsFunctionCommand name f)
    (hblanks : ∀ b ∈ blanks, isBlank b = true) :
    Reads (applied name blanks (braced cs)) (.call f [e]) := by
  obtain ⟨es, ks, hshows⟩ := h.reads.shows
  obtain ⟨es', hruns, -, htext⟩ := h.exists_call hshows.runs hname hblanks
  obtain ⟨⟨g, rfl⟩, -⟩ := hname.command
  exact hruns.reads_call htext (by simp) hshows.text hshows.derives

theorem Complete.waits_call {name f : String} {es : List Edit} (h : Complete cs e)
    (hes : Runs [] .piece cs es) (hname : IsFunctionCommand name f) :
    ∃ es', Waits ('\\' :: (name.toList ++ braced cs)) es' ∧
      Edit.text es' = f.toList ++ inParens (Edit.text es) := by
  obtain ⟨es', hruns, hleads, htext⟩ :=
    h.exists_call hes hname (by simp : ∀ b ∈ [], isBlank b = true)
  have hread : commandName (name.toList ++ braced cs) = (name.toList, braced cs) :=
    commandName_letters hname.name_ne hname.1 (by simpa [braced] using isLetter_brace)
  have hnone : bareArgument? (String.ofList name.toList) = none := by
    rw [String.ofList_toList]
    exact bareArgument?_eq_none hname.not_operand
  exact ⟨es', ⟨hruns, noArgument_command hread hnone, hleads⟩, htext⟩

/-- A text between `\left` and `\right`. -/
theorem Complete.waits_delimited {es : List Edit} {opening closing : Char} (piece : String)
    (h : Complete cs e) (hes : Runs [] .piece cs es) (hopening : isLetter opening = false)
    (hclosing : isLetter closing = false)
    (hleft : ∀ rest, delimiter? true (opening :: rest) = some (piece, rest))
    (hright : ∀ rest, delimiter? false (closing :: rest) = some (")", rest))
    (hne : piece ≠ "") (hpiece : allBlank piece.toList = false) :
    ∃ es', Waits
      ('\\' :: ("left".toList ++ opening :: (cs ++ '\\' :: ("right".toList ++ [closing])))) es' ∧
        Edit.text es' = piece.toList ++ (Edit.text es ++ [')']) := by
  have hlast : Runs [] .piece ('\\' :: ("right".toList ++ [closing])) [.closing [')']] := by
    simpa [delimiterEdits] using Runs.piece (emits_delimiter "right".toList (by decide)
      (List.all_eq_true.mp (by decide)) rfl hclosing hright []) .finish
  have hbarrier : Barrier ('\\' :: ("right".toList ++ [closing])) := by
    have hread : commandName ("right".toList ++ [closing]) = ("right".toList, [closing]) :=
      commandName_letters (by decide) (List.all_eq_true.mp (by decide)) (by simpa using hclosing)
    exact ⟨⟨_, _, rfl, by decide⟩, (by simp), noArgument_command hread (by decide)⟩
  have hcontent := hes.extend h.whole hbarrier hlast
  have hfirst := Runs.piece (emits_delimiter "left".toList (by decide)
    (List.all_eq_true.mp (by decide)) rfl hopening hleft _) hcontent
  refine ⟨.opening piece.toList true :: (es ++ [.closing [')']]), ⟨?_, noArgument_left _, _, _, _,
    rfl, .opening hpiece⟩, ?_⟩
  · simpa [delimiterEdits, hne] using hfirst
  · have hbehind : Behind [piece.toList] {} (({} : Output).opening piece.toList true) :=
      ⟨rfl, rfl, rfl, fun h => by cases h⟩
    have htext := (hbehind.applyAll ⟨_, _, rfl, hpiece⟩ es).text
    rw [Edit.text, Edit.applyAll_cons, Edit.applyAll_append]
    refine (Output.text_cons _ [')']).trans ?_
    rw [← List.append_assoc]
    exact congrArg (· ++ [')']) (by simpa [Edit.text, Edit.apply] using htext)

/-! ## Functions in front of operands -/

/-- A function is followed by a parenthesis. -/
theorem ofPlain_of_function {text f : String} {l : Lexeme} {ls : List Lexeme}
    (h : Scans text.toList (.function f :: l :: ls)) (hl : l ≠ .openParen) :
    ∃ err, ofPlain text = .error err ∧ err.cause = .missingParenthesis f := by
  obtain ⟨tokens, htokens, hlexemes⟩ := scans_iff_tokenize.mp h
  obtain ⟨first, others, rfl, hfirst, hothers⟩ := List.map_eq_cons_iff.mp hlexemes
  obtain ⟨second, rest, rfl, rfl, -⟩ := List.map_eq_cons_iff.mp hothers
  have hrefused : ofTokens (first :: second :: rest) =
      .error (.located (.missingParenthesis f) second.position) := by
    obtain ⟨lexeme, position, caption⟩ := first
    obtain ⟨lexeme', position', caption'⟩ := second
    cases hfirst
    unfold ofTokens readFrom
    dsimp only
    split
    case h_1 heq | h_2 heq => cases heq; exact absurd rfl hl
    case h_3 heq => cases heq; rfl
    case h_4 heq => cases heq
  refine ⟨(Error.located (.missingParenthesis f) second.position).within text, ?_, ?_⟩
  · unfold ofPlain ofTokensOf
    rw [htokens]
    change (ofTokens (first :: second :: rest)).mapError (·.within text) = _
    rw [hrefused]
    rfl
  · exact Error.cause_within _ _

theorem not_isLetter_of_blanks (hblanks : ∀ b ∈ blanks, isBlank b = true) (hne : blanks ≠ [])
    (rest : List Char) : ∀ c ∈ (blanks ++ rest).head?, isLetter c = false := by
  obtain ⟨b, tail, rfl⟩ := List.exists_cons_of_ne_nil hne
  have hblank := hblanks b List.mem_cons_self
  intro c hc
  cases hc
  rw [← Bool.not_eq_true]
  intro hletter
  rw [isBlank_of_isPlain (isPlain_of_isLetter hletter)] at hblank
  cases hblank

/-- A function command, which the root is none of, and blanks. -/
structure Stem (name f : String) (blanks : List Char) : Prop where
  function : IsFunctionCommand name f
  ne_sqrt : name ≠ "sqrt"
  allBlank : ∀ b ∈ blanks, isBlank b = true
  ne_nil : blanks ≠ []

namespace Stem

variable {name f : String}

theorem command (h : Stem name f blanks) :
    Command.ofName (String.ofList name.toList) = .function f := by
  obtain ⟨-, hcommand | ⟨hsqrt, -⟩⟩ := h.function.command
  · rwa [String.ofList_toList]
  · exact absurd hsqrt h.ne_sqrt

theorem read (h : Stem name f blanks) (rest : List Char) :
    commandName (name.toList ++ (blanks ++ rest)) = (name.toList, blanks ++ rest) :=
  commandName_letters h.function.name_ne h.function.1
    (not_isLetter_of_blanks h.allBlank h.ne_nil rest)

/-- A bare argument is put between parentheses. -/
theorem reads_argument {argument : List Char} {fromCommand : Bool} (h : Stem name f blanks)
    (hcs : Reads cs e) (halone : Runs [] .piece cs [.operand argument fromCommand])
    (hbehind : Runs [] .argument (blanks ++ cs) [.append (inParens argument)]) :
    Reads (applied name blanks cs) (.call f [e]) := by
  obtain ⟨ks, hshows⟩ := hcs.shows_of_runs halone
  have hargument := hshows.text
  rw [text_operand] at hargument
  obtain ⟨⟨g, rfl⟩, -⟩ := h.function.command
  have hcall := Runs.function (h.read cs) h.command hbehind
  exact hcall.reads_call (text_call _ _) (by simp) hargument hshows.derives

/-- Every other operand is written behind the function as it is without it. -/
theorem exists_waiting {es : List Edit} (h : Stem name f blanks) (hcs : Waits cs es) :
    ∃ es', Runs [] .piece (applied name blanks cs) es' ∧
      Edit.text es' = f.toList ++ (blanks ++ Edit.text es) := by
  have hnone := (noArgument_blanks h.allBlank).mpr hcs.noArgument
  have hruns := Runs.function (h.read cs) h.command
    (.noArgument hnone (runs_blanks h.allBlank hcs.runs))
  obtain ⟨piece, edit, rest, rfl, hlead⟩ := hcs.leads
  exact ⟨_, hruns, hlead.text _ _⟩

/-- A name or a number is not put between parentheses behind a function. -/
theorem refused {es : List Edit} {l : Lexeme} {ls : List Lexeme} (h : Stem name f blanks)
    (hcs : Waits cs es) (hscans : Scans (Edit.text es) (l :: ls)) (hl : l ≠ .openParen) :
    Taking.nothing.Outcome f e (applied name blanks cs) := by
  obtain ⟨es', hruns, htext⟩ := h.exists_waiting hcs
  obtain ⟨⟨g, rfl⟩, -⟩ := h.function.command
  have hbehind := lexesBefore_nil.blanks h.allBlank _ _ hscans
  have hboundary : Boundary (blanks ++ Edit.text es) := by
    obtain ⟨b, tail, rfl⟩ := List.exists_cons_of_ne_nil h.ne_nil
    exact boundary_blank (h.allBlank b List.mem_cons_self) _
  have hall := (spells_function g).lexes _ _ hboundary hbehind
  rw [← htext, ← String.toList_ofList (l := Edit.text es')] at hall
  obtain ⟨err, herr, hcause⟩ := ofPlain_of_function hall hl
  exact ⟨_, err, hruns.toPlain, herr, hcause⟩

end Stem

/-! ## Kinds of operands -/

theorem Complete.reads_group (h : Complete cs e) : Reads (braced cs) e := by
  obtain ⟨es, ks, hshows⟩ := h.reads.shows
  have hruns : Runs [] .piece (braced cs) [.operand (inParens (Edit.text es)) true] :=
    .group h.balanced hshows.runs .finish
  have htext : LexesBefore (Edit.text [.operand (inParens (Edit.text es)) true])
      (Expr.enclosed ks) := by
    rw [text_operand]
    exact hshows.text.inParens
  exact hruns.reads htext (derives_sum_of_atom (.group hshows.derives))

theorem runs_plain {run : List Char} (hne : run ≠ []) (hrun : ∀ d ∈ run, isPlain d = true) :
    Runs [] .piece run [.operand run false] := by
  have hruns : Runs [] .piece (run ++ []) [.operand run false] :=
    .piece (.run hne hrun (by simp)) .finish
  rwa [List.append_nil] at hruns

/-- A Greek letter is an operand, and an argument of a function in front of it. -/
theorem runs_letter {name argument : String} (h : bareArgument? name = some argument) :
    Runs [] .piece ('\\' :: name.toList) [.operand argument.toList true] ∧
      ∀ {blanks : List Char}, (∀ b ∈ blanks, isBlank b = true) →
        Runs [] .argument (blanks ++ '\\' :: name.toList)
          [.append (inParens argument.toList)] := by
  obtain ⟨hne, hletters, hcommand, hleft⟩ := bareArgument?_eq_some h
  have hread : commandName (name.toList ++ []) = (name.toList, []) :=
    commandName_letters hne hletters (by simp)
  have hargument : bareArgument? (String.ofList name.toList) = some argument := by
    rwa [String.ofList_toList]
  have hedits : (Command.ofName (String.ofList name.toList)).edits? =
      some [.operand argument.toList true] := by
    rw [String.ofList_toList, hcommand]
    rfl
  have hname : '\\' :: (name.toList ++ []) = '\\' :: name.toList := by rw [List.append_nil]
  refine ⟨?_, fun hblanks => ?_⟩
  · rw [← hname]
    exact .piece (.command hread hedits) .finish
  · rw [← hname]
    exact .commandArgument hblanks hread (by rwa [List.append_nil]) hargument .finish

/-- A name or a number is an operand, and an argument of a function in front of it. -/
theorem runs_bare {c : Char} {run : List Char} (hc : isAlphanumeric c = true)
    (hrun : ∀ d ∈ run, isPlain d = true) :
    Runs [] .piece (c :: run) [.operand (c :: run) false] ∧
      ∀ {blanks : List Char}, (∀ b ∈ blanks, isBlank b = true) →
        Runs [] .argument (blanks ++ c :: run) [.append (inParens (c :: run))] := by
  have hplain : ∀ d ∈ c :: run, isPlain d = true :=
    List.forall_mem_cons.mpr ⟨by rw [isPlain, hc]; rfl, hrun⟩
  refine ⟨runs_plain (List.cons_ne_nil _ _) hplain, fun {blanks} hblanks => ?_⟩
  have hruns : Runs [] .argument (blanks ++ (c :: run ++ [])) [.append (inParens (c :: run))] :=
    .runArgument hblanks hc hrun (by simp) .finish
  rwa [List.append_nil] at hruns

/-- What stands between delimiters of a pair is written between parentheses. -/
theorem Complete.waits_pair {es : List Edit} {opening closing : Char} (h : Complete cs e)
    (hes : Runs [] .piece cs es) (hpair : (opening, closing) ∈ [('(', ')'), ('[', ']')]) :
    ∃ es', Waits
      ('\\' :: ("left".toList ++ opening :: (cs ++ '\\' :: ("right".toList ++ [closing])))) es' ∧
        Edit.text es' = inParens (Edit.text es) := by
  simp only [List.mem_cons, List.not_mem_nil, or_false, Prod.mk.injEq] at hpair
  rcases hpair with ⟨rfl, rfl⟩ | ⟨rfl, rfl⟩
  · exact h.waits_delimited "(" hes (by decide) (by decide) (fun _ => rfl) (fun _ => rfl)
      (by decide) (by decide)
  · exact h.waits_delimited "(" hes (by decide) (by decide) (fun _ => rfl) (fun _ => rfl)
      (by decide) (by decide)

theorem Complete.waits_absolute {es : List Edit} (h : Complete cs e)
    (hes : Runs [] .piece cs es) :
    ∃ es', Waits
      ('\\' :: ("left".toList ++ '|' :: (cs ++ '\\' :: ("right".toList ++ ['|'])))) es' ∧
        Edit.text es' = Function.abs.name.toList ++ inParens (Edit.text es) :=
  h.waits_delimited "abs(" hes (by decide) (by decide) (fun _ => rfl) (fun _ => rfl)
    (by decide) (by decide)

theorem waits_fraction {name : String} {above below : List Char} {a b : Expr}
    {es es' : List Edit} (hname : name ∈ ["frac", "dfrac", "tfrac"]) (ha : Complete above a)
    (hes : Runs [] .piece above es) (hb : Complete below b) (hes' : Runs [] .piece below es') :
    Waits ('\\' :: (name.toList ++ (braced above ++ braced below)))
      [.operand (inParens (Edit.text es) ++ '/' :: inParens (Edit.text es')) true] := by
  have hnames : ∀ name ∈ ["frac", "dfrac", "tfrac"], name.toList ≠ [] ∧
      name.toList.all isLetter = true ∧ bareArgument? name = none := by decide
  obtain ⟨hne, hletters, hnone⟩ := hnames name hname
  have hmeaning : Command.ofName (String.ofList name.toList) = .fraction := by
    rw [String.ofList_toList]
    simp only [List.mem_cons, List.not_mem_nil, or_false] at hname
    rcases hname with rfl | rfl | rfl <;> rfl
  have hcommand : IsCommand name.toList .fraction :=
    ⟨hne, List.all_eq_true.mp hletters, hmeaning⟩
  have hoperation := IsOperation.fraction hcommand ha.enclosed hes hb.enclosed hes'
  refine ⟨hoperation.runs_alone, ?_, _, _, _, rfl, .operand (allBlank_cons (by decide) _)⟩
  refine noArgument_command (hcommand.read (ha.enclosed.head isLetter_brace _)) ?_
  rw [String.ofList_toList]
  exact hnone

/-- A point starts nothing but a number. -/
theorem scans_point {run : List Char} {ls : List Lexeme} (h : Scans ('.' :: run) ls) :
    ∃ l rest, ls = l :: rest ∧ l ≠ .openParen := by
  obtain ⟨l, n, rest, hreading, rfl, -⟩ := h.cons_inv (by decide)
  refine ⟨l, rest, rfl, ?_⟩
  rintro rfl
  obtain ⟨run, tail, htext, -, hspells⟩ := spells_of_reading hreading
  generalize hl : Lexeme.openParen = l at hspells
  cases hspells with
  | openParen => cases htext
  | name _ _ hstart _ =>
      cases htext
      exact absurd hstart (by decide)
  | _ => cases hl

theorem waits_point {run : List Char} (hrun : ∀ d ∈ run, isPlain d = true) :
    Waits ('.' :: run) [.operand ('.' :: run) false] := by
  have hplain : ∀ d ∈ '.' :: run, isPlain d = true :=
    List.forall_mem_cons.mpr ⟨by decide, hrun⟩
  have hnone : isAlphanumeric '.' = false := by decide
  exact ⟨runs_plain (List.cons_ne_nil _ _) hplain, hnone, _, _, _, rfl, .operand (allBlank_cons (by decide) _)⟩

/-- A function in front of a text between parentheses, by itself or behind another function. -/
theorem scans_call {f : Function} {as : List Char} (has : ReadsPart as ks) :
    Scans (f.name.toList ++ inParens as) (.function f.name :: (Expr.enclosed ks ++ [.finish])) :=
  (has.called (spells_function f).lexes (by simp : ∀ b ∈ [], isBlank b = true)).readsPart.scans

/-- A fraction, perhaps with a function in front of its numerator. -/
theorem derives_fraction {ls : List Lexeme} {a b : Expr} (ha : Derives ks (.atom a))
    (hb : Derives ls (.sum b)) :
    Derives (ks ++ .operator "/" :: Expr.enclosed ls) (.sum (.binary "/" a b)) :=
  .product (.multiply (.signed (.power (.atom ha))) (.inr rfl) (.power (.atom (.group hb))))

/-! ## Operands -/

/-- Every operand is read as its tree. -/
theorem Argument.reads {taking : Taking} (h : Argument taking cs e) : Reads cs e := by
  cases h with
  | group h => exact h.reads_group
  | letter _ he | bare _ _ he | point _ he => exact he
  | delimited hpair h =>
      obtain ⟨es, ks, hshows⟩ := h.reads.shows
      obtain ⟨es', hwaits, htext⟩ := h.waits_pair hshows.runs hpair
      refine hwaits.runs.reads ?_ (derives_sum_of_atom (.group hshows.derives))
      rw [htext]
      exact hshows.text.inParens
  | fraction hname ha hb =>
      obtain ⟨es, ks, hes⟩ := ha.reads.shows
      obtain ⟨es', ks', hes'⟩ := hb.reads.shows
      refine (waits_fraction hname ha hes.runs hb hes'.runs).runs.reads ?_
        (derives_fraction (.group hes.derives) hes'.derives)
      rw [text_operand]
      have hover := (isMark_operator (c := '/') (by decide)).lexesBefore
      simpa using hes.text.inParens.append (hover.append hes'.text.inParens)
  | function hname h =>
      have hcall := h.called hname (by simp : ∀ b ∈ [], isBlank b = true)
      exact hcall
  | absolute h =>
      obtain ⟨es, ks, hshows⟩ := h.reads.shows
      obtain ⟨es', hwaits, htext⟩ := h.waits_absolute hshows.runs
      have hcall := hwaits.runs.reads_call htext (by simp : ∀ b ∈ [], isBlank b = true)
        hshows.text hshows.derives
      exact hcall

/-- A function takes of an operand what it is said to. -/
theorem Argument.outcome {taking : Taking} {name f : String} (h : Argument taking cs e)
    (hstem : Stem name f blanks) :
    taking.Outcome f e (applied name blanks cs) := by
  have hreads := h.reads
  obtain ⟨⟨g, rfl⟩, -⟩ := hstem.function.command
  cases h with
  | group h => exact h.called hstem.function hstem.allBlank
  | letter hargument _ =>
      obtain ⟨halone, hbehind⟩ := runs_letter hargument
      exact hstem.reads_argument hreads halone (hbehind hstem.allBlank)
  | bare hc hrun _ =>
      obtain ⟨halone, hbehind⟩ := runs_bare hc hrun
      exact hstem.reads_argument hreads halone (hbehind hstem.allBlank)
  | delimited hpair h =>
      obtain ⟨es, ks, hshows⟩ := h.reads.shows
      obtain ⟨es', hwaits, htext⟩ := h.waits_pair hshows.runs hpair
      obtain ⟨es'', hruns, htext'⟩ := hstem.exists_waiting hwaits
      rw [htext] at htext'
      exact hruns.reads_call htext' hstem.allBlank hshows.text hshows.derives
  | fraction hname ha hb =>
      obtain ⟨es, ks, hes⟩ := ha.reads.shows
      obtain ⟨es', ks', hes'⟩ := hb.reads.shows
      obtain ⟨es'', hruns, htext⟩ :=
        hstem.exists_waiting (waits_fraction hname ha hes.runs hb hes'.runs)
      refine hruns.reads ?_ (derives_fraction (derives_call hes.derives) hes'.derives)
      rw [htext, text_operand]
      have hcall := hes.text.called (spells_function g).lexes hstem.allBlank
      have hover := (isMark_operator (c := '/') (by decide)).lexesBefore
      simpa using hcall.append (hover.append hes'.text.inParens)
  | function hname h =>
      obtain ⟨es, ks, hshows⟩ := h.reads.shows
      obtain ⟨es', hwaits, htext⟩ := h.waits_call hshows.runs hname
      obtain ⟨⟨g', rfl⟩, -⟩ := hname.command
      exact hstem.refused hwaits (htext ▸ scans_call hshows.text) (fun h => by cases h)
  | absolute h =>
      obtain ⟨es, ks, hshows⟩ := h.reads.shows
      obtain ⟨es', hwaits, htext⟩ := h.waits_absolute hshows.runs
      exact hstem.refused hwaits (htext ▸ scans_call hshows.text) (fun h => by cases h)
  | @point run _ hrun _ =>
      have hwaits := waits_point hrun
      obtain ⟨ks, hshows⟩ := hreads.shows_of_runs hwaits.runs
      have hscans := hshows.text.scans
      have hfirst := hscans
      rw [text_operand] at hfirst
      obtain ⟨l, ls, heq, hl⟩ := scans_point hfirst
      exact hstem.refused hwaits (heq ▸ hscans) hl

theorem Argument.head {taking : Taking} (h : Argument taking cs e) :
    (∃ content, cs = braced content ∧ Complete content e ∧ taking = .whole) ∨
      ∃ c tail, cs = c :: tail ∧ c ≠ '{' ∧ c ≠ '[' ∧ isBlank c = false := by
  have hbackslash : '\\' ≠ '{' ∧ '\\' ≠ '[' ∧ isBlank '\\' = false := by decide
  cases h with
  | group h => exact .inl ⟨_, rfl, h, rfl⟩
  | letter | delimited | fraction | function | absolute => exact .inr ⟨_, _, rfl, hbackslash⟩
  | bare hc _ _ =>
      obtain ⟨hbrace, -, hblank⟩ := isAlphanumeric_ne hc
      exact .inr ⟨_, _, rfl, hbrace, ne_of_class hc (by decide), hblank⟩
  | point => exact .inr ⟨_, _, rfl, by decide⟩

/-- The root takes a group and nothing else, apart from an index. -/
theorem toPlain_root {c : Char} {tail : List Char} (hblanks : ∀ b ∈ blanks, isBlank b = true)
    (hne : blanks ≠ []) (hbrace : c ≠ '{') (hbracket : c ≠ '[') (hc : isBlank c = false) :
    ∃ err, toPlain (String.ofList (applied "sqrt" blanks (c :: tail))) = .error err ∧
      err.cause = .expectedDelimiter "\x7b" := by
  have hread : commandName ("sqrt".toList ++ (blanks ++ c :: tail)) =
      ("sqrt".toList, blanks ++ c :: tail) :=
    commandName_letters (by decide) (List.all_eq_true.mp (by decide))
      (not_isLetter_of_blanks hblanks hne _)
  have hroot : Command.ofName (String.ofList "sqrt".toList) = .root := rfl
  have hhead : ∀ d ∈ (c :: tail).head?, isBlank d = false := by simpa using hc
  obtain ⟨htake, hdrop⟩ := takeWhile_append_of_head hblanks hhead
  rw [toPlain_eq_write, String.toList_ofList, applied, write_cons, writePiece_backslash]
  unfold writeCommand
  simp only [List.drop_one, List.tail_cons, hread, hroot, Cursor.skipBlanks, hdrop]
  rw [if_neg (by simpa using hbracket)]
  unfold groupBy Group.read
  simp only [hdrop]
  rw [if_pos hbrace]
  exact ⟨_, rfl, rfl⟩

/-- A text that may stand behind a function is read as its tree, and with a function and blanks in
front of it the function takes what it is said to take: all of a group, of a bare name or number, of
a Greek letter and of what stands between delimiters, but of a fraction the numerator alone. In
front of another function, an absolute value, or a number that starts with a point, the text that is
written is refused. The root is refused already where no group follows. -/
theorem Argument.taken {taking : Taking} {name f : String} (h : Argument taking cs e)
    (hname : IsFunctionCommand name f) (hblanks : ∀ b ∈ blanks, isBlank b = true)
    (hne : blanks ≠ []) :
    Reads cs e ∧
    (name ≠ "sqrt" ∨ cs.head? = some '{' → taking.Outcome f e (applied name blanks cs)) ∧
    (name = "sqrt" ∧ cs.head? ≠ some '{' →
      ∃ err, toPlain (String.ofList (applied name blanks cs)) = .error err ∧
        err.cause = .expectedDelimiter "\x7b") := by
  refine ⟨h.reads, fun hcommand => ?_, ?_⟩
  · by_cases hsqrt : name = "sqrt"
    · obtain ⟨content, rfl, hcontent, rfl⟩ | ⟨c, tail, rfl, hbrace, -⟩ := h.head
      · exact hcontent.called hname hblanks
      · have hhead := hcommand.resolve_left fun hne => hne hsqrt
        exact absurd (Option.some.inj hhead) hbrace
    · exact h.outcome ⟨hname, hsqrt, hblanks, hne⟩
  · rintro ⟨rfl, hgroup⟩
    obtain ⟨content, rfl, -⟩ | ⟨c, tail, rfl, hbrace, hbracket, hblank⟩ := h.head
    · exact absurd rfl hgroup
    · exact toPlain_root hblanks hne hbrace hbracket hblank

private theorem complete_name {c : Char} {name : String} (hc : isPlain c = true)
    (h : (tokenize (String.ofList [c])).toOption =
      some [⟨.var name, 0, none⟩, ⟨.finish, 1, none⟩]) : Complete [c] (.var name) := by
  have hruns := runs_plain (List.cons_ne_nil c []) (by simpa using hc)
  refine ⟨.char (ne_of_class hc (by decide)) .nil, _, hruns.toPlain, ?_⟩
  rw [text_operand]
  exact ofPlain_of_tokens (eq_ok_of_toOption h) rfl

/-- `\frac{x}{y}`. -/
private def quotient : List Char := '\\' :: ("frac".toList ++ (braced ['x'] ++ braced ['y']))

theorem taken_quotient :
    Reads quotient (.binary "/" (.var "x") (.var "y")) ∧
    Reads (applied "sin" [' '] quotient) (.binary "/" (.call "sin" [.var "x"]) (.var "y")) := by
  have hx : Complete ['x'] (.var "x") := complete_name (by decide) (by decide)
  have hy : Complete ['y'] (.var "y") := complete_name (by decide) (by decide)
  have hsin : IsFunctionCommand "sin" "sin" :=
    ⟨List.all_eq_true.mp (by decide), .inr ⟨rfl, by decide⟩⟩
  have hquotient : Argument (.numerator (.var "x") (.var "y")) quotient _ :=
    .fraction (by decide : "frac" ∈ _) hx hy
  have hblanks : ∀ b ∈ [' '], isBlank b = true := by simpa using (by decide : isBlank ' ' = true)
  have hne : "sin" ≠ "sqrt" := by decide
  obtain ⟨hreads, houtcome, -⟩ := hquotient.taken hsin hblanks (by decide)
  exact ⟨hreads, houtcome (.inl hne)⟩

end Reckoner.Latex
