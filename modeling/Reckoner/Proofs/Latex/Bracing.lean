import Reckoner.Proofs.Latex.Exchange
import Reckoner.Proofs.Latex.Grouping
import Reckoner.Proofs.Latex.Translation
import Reckoner.Proofs.Scope.Memory

/-!
# Braces around fractions and roots

A fraction and a root with an index are written as an operation, and braces around the command put
the operation between parentheses, wherever the command stands as an operand: among the pieces of a
text, or inside of a group of another command, at any depth. So where the operation is on its own
among the lexemes of the text, the braces do not change the value.
-/

namespace Reckoner.Latex

open Reckoner.Text Reckoner.Token

variable {command before after left right cs rest : List Char} {opening closing : Char}

/-! ## The commands -/

/-- The name is a command of letters with the meaning. -/
structure IsCommand (name : List Char) (meaning : Command) : Prop where
  ne_nil : name ≠ []
  letters : ∀ c ∈ name, isLetter c = true
  meaning : Command.ofName (String.ofList name) = meaning

theorem IsCommand.read {name : List Char} {meaning : Command} (h : IsCommand name meaning)
    (hrest : ∀ c ∈ rest.head?, isLetter c = false) : commandName (name ++ rest) = (name, rest) :=
  commandName_letters h.ne_nil h.letters hrest

/-- The command is a fraction, or a root with an index, and this is its operation. -/
inductive IsOperation : List Char → Char → List Char → List Char → Prop
  | fraction {name group above group' below : List Char} {es es' : List Edit}
      (hname : IsCommand name .fraction) (h : Enclosed '{' '}' group above)
      (habove : Runs [] .piece above es) (h' : Enclosed '{' '}' group' below)
      (hbelow : Runs [] .piece below es') :
      IsOperation ('\\' :: (name ++ (group ++ group'))) '/' (Edit.text es) (Edit.text es')
  | root {name group index group' radicand : List Char} {es es' : List Edit}
      (hname : IsCommand name .root) (h : Enclosed '[' ']' group index)
      (hindex : Runs [] .piece index es) (h' : Enclosed '{' '}' group' radicand)
      (hradicand : Runs [] .piece radicand es') :
      IsOperation ('\\' :: (name ++ (group ++ group'))) '^' (Edit.text es')
        ('1' :: '/' :: inParens (Edit.text es))

/-- A group starts with no letter. -/
theorem head_blanks {blanks : List Char} (hblanks : ∀ b ∈ blanks, isBlank b = true)
    (hopening : isLetter opening = false) (rest : List Char) :
    ∀ c ∈ (blanks ++ opening :: rest).head?, isLetter c = false := by
  cases blanks with
  | nil => simpa using hopening
  | cons b blanks =>
      intro c hc
      cases hc
      have hblank := hblanks b List.mem_cons_self
      rw [← Bool.not_eq_true]
      intro hletter
      have hplain := isBlank_of_isPlain (isPlain_of_isLetter hletter)
      rw [hblank] at hplain
      cases hplain

theorem Enclosed.head {group content : List Char} (h : Enclosed opening closing group content)
    (hopening : isLetter opening = false) (rest : List Char) :
    ∀ c ∈ (group ++ rest).head?, isLetter c = false := by
  cases h with
  | intro hblanks _ => simpa using head_blanks hblanks hopening (content ++ closing :: rest)

theorem whole_blanks {blanks : List Char} (hblanks : ∀ b ∈ blanks, isBlank b = true)
    (hopening : opening ≠ '\\') : Whole (blanks ++ [opening]) :=
  (solid_blanks hblanks).whole.append (.char hopening .nil)

theorem isLetter_brace : isLetter '{' = false := by decide

theorem isLetter_bracket : isLetter '[' = false := by decide

section Operation

variable {sign : Char} {first second : List Char}

theorem IsOperation.runs {stop : List Char} {fs : List Edit}
    (h : IsOperation command sign first second) (hrest : Runs stop .piece rest fs) :
    Runs stop .piece (command ++ rest)
      (.operand (inParens first ++ sign :: inParens second) true :: fs) := by
  cases h with
  | @fraction _ group _ group' _ _ _ hname h habove h' hbelow =>
      have hread := hname.read (h.head isLetter_brace (group' ++ rest))
      simpa using Runs.fraction hread hname.meaning h habove h' hbelow hrest
  | @root _ group _ group' _ _ _ hname h hindex h' hradicand =>
      have hread := hname.read (h.head isLetter_bracket (group' ++ rest))
      simpa using Runs.root hread hname.meaning h hindex h' hradicand hrest

theorem IsOperation.sign_cases (h : IsOperation command sign first second) : sign = '/' ∨ sign = '^' := by
  cases h with
  | fraction => exact .inl rfl
  | root => exact .inr rfl

theorem IsOperation.wraps (h : IsOperation command sign first second) :
    Wraps (inParens first ++ sign :: inParens second)
      (inParens (inParens first ++ sign :: inParens second)) :=
  wraps_bare h.sign_cases first second

theorem IsOperation.marked (h : IsOperation command sign first second) (rest : List Char) :
    Marked (command ++ rest) := by
  cases h <;> exact ⟨'\\', _, rfl, by decide⟩

theorem IsOperation.head (h : IsOperation command sign first second) (rest : List Char) :
    (command ++ rest).head? = some '\\' := by
  cases h <;> rfl

theorem IsOperation.solid (h : IsOperation command sign first second) : Solid command := by
  have hruns := h.runs (.finish : Runs ['^'] .piece ['^'] [])
  obtain ⟨front, heq, hsolid⟩ := hruns.solid (.inl (List.cons_ne_nil _ _))
  obtain rfl := List.append_cancel_right heq
  exact hsolid

end Operation

/-! ## Groups that hold other text -/

/-- What stands on both sides of the content of a group, its delimiters, and the edits of the whole
for the text that is written for the content. -/
inductive Holds : List Char → List Char → Char → Char → (List Char → List Edit) → Prop
  | group : Holds ['{'] ['}'] '{' '}' fun t => [.operand (inParens t) true]
  | power {blanks : List Char} (hblanks : ∀ b ∈ blanks, isBlank b = true) :
      Holds ('^' :: (blanks ++ ['{'])) ['}'] '{' '}' fun t => [.closing ('^' :: inParens t)]
  | index : Holds ['_', '{'] ['}'] '{' '}' fun t => [.append ('_' :: squeeze t)]
  | above {name blanks group below : List Char} {es : List Edit} (hname : IsCommand name .fraction)
      (hblanks : ∀ b ∈ blanks, isBlank b = true) (h : Enclosed '{' '}' group below)
      (hbelow : Runs [] .piece below es) :
      Holds ('\\' :: (name ++ (blanks ++ ['{']))) ('}' :: group) '{' '}'
        fun t => [.operand (inParens t ++ '/' :: inParens (Edit.text es)) true]
  | below {name group above blanks : List Char} {es : List Edit} (hname : IsCommand name .fraction)
      (h : Enclosed '{' '}' group above) (habove : Runs [] .piece above es)
      (hblanks : ∀ b ∈ blanks, isBlank b = true) :
      Holds ('\\' :: (name ++ (group ++ (blanks ++ ['{'])))) ['}'] '{' '}'
        fun t => [.operand (inParens (Edit.text es) ++ '/' :: inParens t) true]
  | rootIndex {name blanks group radicand : List Char} {es : List Edit}
      (hname : IsCommand name .root) (hblanks : ∀ b ∈ blanks, isBlank b = true)
      (h : Enclosed '{' '}' group radicand) (hradicand : Runs [] .piece radicand es) :
      Holds ('\\' :: (name ++ (blanks ++ ['[']))) (']' :: group) '[' ']'
        fun t => [.operand (inParens (Edit.text es) ++
          '^' :: inParens ('1' :: '/' :: inParens t)) true]
  | radicand {name group index blanks : List Char} {es : List Edit} (hname : IsCommand name .root)
      (h : Enclosed '[' ']' group index) (hindex : Runs [] .piece index es)
      (hblanks : ∀ b ∈ blanks, isBlank b = true) :
      Holds ('\\' :: (name ++ (group ++ (blanks ++ ['{'])))) ['}'] '{' '}'
        fun t => [.operand (inParens t ++
          '^' :: inParens ('1' :: '/' :: inParens (Edit.text es))) true]
  | squareRoot {name blanks : List Char} (hname : IsCommand name .root)
      (hblanks : ∀ b ∈ blanks, isBlank b = true) :
      Holds ('\\' :: (name ++ (blanks ++ ['{']))) ['}'] '{' '}'
        fun t => [.operand (Function.sqrt.name.toList ++ inParens t) true]
  | text {name blanks : List Char} (hname : IsCommand name .text)
      (hblanks : ∀ b ∈ blanks, isBlank b = true) :
      Holds ('\\' :: (name ++ (blanks ++ ['{']))) ['}'] '{' '}' fun t => [.operand t true]
  | argument {name blanks : List Char} {f : String} (hname : IsCommand name (.function f))
      (hblanks : ∀ b ∈ blanks, isBlank b = true) :
      Holds ('\\' :: (name ++ (blanks ++ ['{']))) ['}'] '{' '}'
        fun t => [.operand f.toList true, .append (inParens t)]
  | namedArgument {name group f blanks : List Char} {es : List Edit}
      (hname : IsCommand name .namedFunction) (h : Enclosed '{' '}' group f)
      (hf : Runs [] .piece f es) (hblanks : ∀ b ∈ blanks, isBlank b = true) :
      Holds ('\\' :: (name ++ (group ++ (blanks ++ ['{'])))) ['}'] '{' '}'
        fun t => [.operand (squeeze (Edit.text es)) true, .append (inParens t)]

namespace Holds

variable {edits : List Char → List Edit}

theorem delimiters (h : Holds left right opening closing edits) :
    (opening = '{' ∧ closing = '}') ∨ (opening = '[' ∧ closing = ']') := by
  cases h with
  | rootIndex => exact .inr ⟨rfl, rfl⟩
  | _ => exact .inl ⟨rfl, rfl⟩

theorem marked (h : Holds left right opening closing edits) (rest : List Char) :
    Marked (left ++ rest) := by
  cases h <;> exact ⟨_, _, rfl, by decide⟩

theorem runs {stop content : List Char} {es fs : List Edit}
    (h : Holds left right opening closing edits) (hbalanced : Balanced opening closing content)
    (hcontent : Runs [] .piece content es) (hrest : Runs stop .piece rest fs) :
    Runs stop .piece (left ++ (content ++ (right ++ rest))) (edits (Edit.text es) ++ fs) := by
  have henclosed {blanks : List Char} (hblanks : ∀ b ∈ blanks, isBlank b = true) :
      Enclosed opening closing (blanks ++ opening :: (content ++ [closing])) content :=
    .intro hblanks hbalanced
  cases h with
  | group => exact .group hbalanced hcontent hrest
  | power hblanks => simpa using Runs.power (henclosed hblanks) hcontent hrest
  | index => exact .index hbalanced hcontent hrest
  | @above _ _ group _ _ hname hblanks h hbelow =>
      have hgroup := henclosed hblanks
      have hread := hname.read (hgroup.head isLetter_brace (group ++ rest))
      simpa using Runs.fraction hread hname.meaning hgroup hcontent h hbelow hrest
  | below hname h habove hblanks =>
      have hread (rest : List Char) := hname.read (h.head isLetter_brace rest)
      simpa using Runs.fraction (hread _) hname.meaning h habove (henclosed hblanks) hcontent hrest
  | @rootIndex _ _ group _ _ hname hblanks h hradicand =>
      have hgroup := henclosed hblanks
      have hread := hname.read (hgroup.head isLetter_bracket (group ++ rest))
      simpa using Runs.root hread hname.meaning hgroup hcontent h hradicand hrest
  | radicand hname h hindex hblanks =>
      have hread (rest : List Char) := hname.read (h.head isLetter_bracket rest)
      simpa using Runs.root (hread _) hname.meaning h hindex (henclosed hblanks) hcontent hrest
  | squareRoot hname hblanks =>
      have hgroup := henclosed hblanks
      have hread := hname.read (hgroup.head isLetter_brace rest)
      simpa using Runs.squareRoot hread hname.meaning hgroup hcontent hrest
  | text hname hblanks =>
      have hgroup := henclosed hblanks
      have hread := hname.read (hgroup.head isLetter_brace rest)
      simpa using Runs.text hread hname.meaning hgroup hcontent hrest
  | argument hname hblanks =>
      have hgroup := henclosed hblanks
      have hread := hname.read (hgroup.head isLetter_brace rest)
      simpa using Runs.function hread hname.meaning (.groupArgument hgroup hcontent hrest)
  | namedArgument hname h hf hblanks =>
      have hread (rest : List Char) := hname.read (h.head isLetter_brace rest)
      simpa using Runs.namedFunction (hread _) hname.meaning h hf
        (.groupArgument (henclosed hblanks) hcontent hrest)

/-- A group is a brace of its own, belongs to an exponent or an index, or to a command. -/
theorem shape (h : Holds left right opening closing edits) :
    (∃ c tail, left = c :: tail ∧ c ∈ ['{', '^', '_'] ∧ Whole tail) ∨
      ∃ name meaning tail, left = '\\' :: (name ++ tail) ∧ IsCommand name meaning ∧ Whole tail ∧
        ∀ rest, ∀ c ∈ (tail ++ rest).head?, isLetter c = false := by
  have hblank {blanks : List Char} (hblanks : ∀ b ∈ blanks, isBlank b = true) {opening : Char}
      (hopening : isLetter opening = false) (rest : List Char) :
      ∀ c ∈ (blanks ++ [opening] ++ rest).head?, isLetter c = false := by
    simpa using head_blanks hblanks hopening rest
  have hgroup {group content blanks : List Char} {opening closing : Char}
      (h : Enclosed opening closing group content) (hopening : isLetter opening = false)
      (rest : List Char) : ∀ c ∈ (group ++ (blanks ++ ['{']) ++ rest).head?, isLetter c = false := by
    rw [List.append_assoc]
    exact h.head hopening _
  cases h with
  | group => exact .inl ⟨_, _, rfl, by decide, .nil⟩
  | power hblanks => exact .inl ⟨_, _, rfl, by decide, whole_blanks hblanks (by decide)⟩
  | index => exact .inl ⟨_, _, rfl, by decide, .char (by decide) .nil⟩
  | above hname hblanks | squareRoot hname hblanks | text hname hblanks
  | argument hname hblanks =>
      exact .inr ⟨_, _, _, rfl, hname, whole_blanks hblanks (by decide),
        hblank hblanks isLetter_brace⟩
  | rootIndex hname hblanks =>
      exact .inr ⟨_, _, _, rfl, hname, whole_blanks hblanks (by decide),
        hblank hblanks isLetter_bracket⟩
  | below hname h _ hblanks | namedArgument hname h _ hblanks =>
      exact .inr ⟨_, _, _, rfl, hname, (h.whole (by decide) (by decide)).append
        (whole_blanks hblanks (by decide)), hgroup h isLetter_brace⟩
  | radicand hname h _ hblanks =>
      exact .inr ⟨_, _, _, rfl, hname, (h.whole (by decide) (by decide)).append
        (whole_blanks hblanks (by decide)), hgroup h isLetter_bracket⟩

theorem ne_nil (h : Holds left right opening closing edits) : left ≠ [] := by
  cases h <;> exact List.cons_ne_nil _ _

/-- A function in front has no argument, whatever the group holds. -/
theorem noArgument (h : Holds left right opening closing edits) {cs cs' : List Char}
    (hnone : NoArgument (left ++ cs)) : NoArgument (left ++ cs') := by
  rcases h.shape with ⟨c, tail, rfl, hc, -⟩ | ⟨name, meaning, tail, rfl, hname, -, htail⟩
  · simp only [List.mem_cons, List.not_mem_nil, or_false] at hc
    rcases hc with rfl | rfl | rfl
    · exact hnone.elim
    · exact hnone
    · exact hnone
  · rw [List.cons_append, List.append_assoc] at hnone ⊢
    change "left".toList.isPrefixOf (name ++ (tail ++ cs)) = true ∨
      bareArgument? (String.ofList (commandName (name ++ (tail ++ cs))).1) = none at hnone
    change "left".toList.isPrefixOf (name ++ (tail ++ cs')) = true ∨
      bareArgument? (String.ofList (commandName (name ++ (tail ++ cs'))).1) = none
    rw [isPrefixOf_append_head (htail cs) letters_left, hname.read (htail cs)] at hnone
    rwa [isPrefixOf_append_head (htail cs') letters_left, hname.read (htail cs')]

theorem whole (h : Holds left right opening closing edits) : Whole left := by
  rcases h.shape with ⟨c, tail, rfl, hc, htail⟩ | ⟨name, meaning, tail, rfl, hname, htail, hhead⟩
  · refine .char ?_ htail
    rintro rfl
    simp at hc
  · have hread := hname.read (hhead ['{'])
    exact (solid_command hread (.inl (by simp))).whole.append htail

/-- Text that differs in parentheses makes outputs that differ so. -/
theorem groups (h : Holds left right opening closing edits) {cs ds : List Char}
    (hwraps : Wraps cs ds) (out : Output) :
    Groups (Edit.applyAll out (edits cs)) (Edit.applyAll out (edits ds)) := by
  cases h with
  | group => exact groups_operand hwraps.inParens out true
  | power => exact groups_closing (hwraps.inParens.cons '^') out
  | index => exact groups_append (hwraps.squeeze.cons '_') out
  | above => exact groups_operand (hwraps.inParens.append _) out true
  | below => exact groups_operand ((hwraps.inParens.cons '/').behind _) out true
  | rootIndex =>
      have hexponent := ((hwraps.inParens.cons '/').cons '1').inParens
      exact groups_operand ((hexponent.cons '^').behind _) out true
  | radicand => exact groups_operand (hwraps.inParens.append _) out true
  | squareRoot => exact groups_operand (hwraps.inParens.behind _) out true
  | text => exact groups_operand hwraps out true
  | argument | namedArgument => exact groups_append hwraps.inParens _

end Holds

/-! ## Commands that stand as operands -/

/-- The command stands as an operand between other text: neither right behind an underscore nor as
the argument of a function. It may do so in the content of a group that stands among pieces. -/
inductive Stands (command : List Char) : List Char → List Char → Prop
  | here {before after : List Char} {es fs : List Edit}
      (hbefore : Runs (command ++ after) .piece (before ++ (command ++ after)) es)
      (hindex : before.getLast? ≠ some '_')
      (hargument : (Edit.applyAll {} es).afterFunction = false)
      (hafter : Runs [] .piece after fs) : Stands command before after
  | within {left right front behind before after : List Char} {opening closing : Char}
      {edits : List Char → List Edit} {es fs : List Edit}
      (hholds : Holds left right opening closing edits) (h : Stands command before after)
      (hcontent : Balanced opening closing (before ++ (command ++ after)))
      (hfront : Runs (left ++ (before ++ (command ++ after) ++ (right ++ behind))) .piece
        (front ++ (left ++ (before ++ (command ++ after) ++ (right ++ behind)))) es)
      (hbehind : Runs [] .piece behind fs) :
      Stands command (front ++ (left ++ before)) (after ++ (right ++ behind))

/-- Pieces up to a place, and those from there on. -/
theorem Runs.join {stop : List Char} {es fs : List Edit} (h : Runs stop .piece cs es)
    (hstop : Runs [] .piece stop fs) :
    ∃ gs, Runs [] .piece cs gs ∧ Edit.applyAll {} gs = Edit.applyAll (Edit.applyAll {} es) fs := by
  obtain ⟨next, hnext⟩ := h.written 0 {}
  rw [hstop.written.whole] at hnext
  obtain ⟨gs, hgs, hout⟩ := runs_of_write hnext
  exact ⟨gs, hgs, hout.symm⟩

/-- The second text is written like the first one, with parentheses around an operation. -/
def Regrouped (cs cs' : List Char) : Prop :=
  ∃ es es', Runs [] .piece cs es ∧ Runs [] .piece cs' es' ∧ Wraps (Edit.text es) (Edit.text es')

theorem regrouped_of_groups {cs' stop stop' : List Char} {es es' fs fs' : List Edit}
    (h : Runs stop .piece cs es) (hstop : Runs [] .piece stop fs)
    (h' : Runs stop' .piece cs' es') (hstop' : Runs [] .piece stop' fs')
    (hgroups : Groups (Edit.applyAll (Edit.applyAll {} es) fs)
      (Edit.applyAll (Edit.applyAll {} es') fs')) : Regrouped cs cs' := by
  obtain ⟨gs, hgs, hout⟩ := h.join hstop
  obtain ⟨gs', hgs', hout'⟩ := h'.join hstop'
  refine ⟨gs, gs', hgs, hgs', ?_⟩
  rw [Edit.text, Edit.text, hout, hout']
  exact hgroups.text

theorem Runs.whole_front {stop : List Char} {es : List Edit} (h : Runs stop .piece (before ++ stop) es)
    (hstop : Marked stop) : Whole before := by
  obtain ⟨front, heq, hfront⟩ := h.solid (.inl hstop.ne_nil)
  obtain rfl := List.append_cancel_right heq
  exact hfront.whole

section Stands

variable {sign : Char} {first second : List Char}

theorem Stands.whole (h : Stands command before after)
    (hcommand : IsOperation command sign first second) : Whole before := by
  induction h with
  | here hbefore => exact hbefore.whole_front (hcommand.marked _)
  | within hholds _ _ hfront _ ih =>
      exact (hfront.whole_front (hholds.marked _)).append (hholds.whole.append ih)

/-- A group stays a group with braces around a command in it. -/
theorem balanced_braced {es : List Edit} (hcommand : IsOperation command sign first second)
    (hbefore : Whole before) (hdelimiters : (opening = '{' ∧ closing = '}') ∨
      (opening = '[' ∧ closing = ']'))
    (h : Balanced opening closing (before ++ (command ++ after)))
    (hruns : Runs [] .piece (before ++ (braced command ++ after)) es) :
    Balanced opening closing (before ++ (braced command ++ after)) := by
  have hcommandWhole := hcommand.solid.whole
  rcases hdelimiters with ⟨rfl, rfl⟩ | ⟨rfl, rfl⟩
  · have hafter := hcommandWhole.of_append (hbefore.of_append h.whole)
    have hbraced := hcommand.solid.braces.whole
    obtain ⟨front, heq, hfront⟩ :=
      hruns.solid (.inr (hbefore.append (hbraced.append hafter)))
    rw [List.append_nil] at heq
    rw [heq]
    exact hfront.balanced
  · -- braces do not count among brackets
    have hbrace : Neutral '[' ']' ['{'] := neutral_char (by decide) (by decide) (by decide)
    have hbrace' : Neutral '[' ']' ['}'] := neutral_char (by decide) (by decide) (by decide)
    rw [← List.append_assoc] at h
    have hclosed := h.insert (hbefore.append hcommandWhole) hbrace'
    rw [List.append_assoc] at hclosed
    simpa [braced] using hclosed.insert hbefore hbrace

theorem Enclosed.braced (hcommand : IsOperation command sign first second) :
    Enclosed '{' '}' (braced command) command :=
  enclosed_of_balanced hcommand.solid.balanced

theorem IsOperation.runs_alone (h : IsOperation command sign first second) :
    Runs [] .piece command [.operand (inParens first ++ sign :: inParens second) true] := by
  simpa using h.runs (.finish : Runs [] .piece [] [])

theorem IsOperation.runs_braced {stop : List Char} {fs : List Edit}
    (h : IsOperation command sign first second) (hrest : Runs stop .piece rest fs) :
    Runs stop .piece (braced command ++ rest)
      (.operand (inParens (inParens first ++ sign :: inParens second)) true :: fs) := by
  have hgroup := Runs.group h.solid.balanced h.runs_alone hrest
  rw [text_operand] at hgroup
  simpa [Latex.braced] using hgroup

/-- An operation behind an exponent sign and blanks, and the same with parentheses around it. -/
theorem groups_raised (h : IsOperation command sign first second) {blanks : List Char}
    (hblanks : ∀ b ∈ blanks, isBlank b = true) (out : Output) :
    Groups ((Edit.applyAll (out.operator ['^']) (blankEdits blanks)).operand
        (inParens first ++ sign :: inParens second))
      (out.closing ('^' :: inParens (inParens first ++ sign :: inParens second))) := by
  rw [applyAll_blankEdits]
  refine @Groups.intro [] _ _ _ _ true true false h.wraps.not_allBlank.1 ?_ ?_
  · simp [allBlank, (by decide : isBlank '^' = false)]
  · refine ⟨⟨sign, out.text ++ ['^'], blanks, first, second, []⟩, ⟨h.sign_cases, hblanks⟩, ?_, ?_⟩
    · have hflatten : (blanks.map fun b => [b]).flatten = blanks := List.flatMap_singleton' blanks
      simp [Output.operator, Operation.text, Operation.bare, Output.text, hflatten]
    · simp [Operation.grouped, Operation.bare, Output.text]

theorem braced_here {es fs : List Edit} (hcommand : IsOperation command sign first second)
    (hbefore : Runs (command ++ after) .piece (before ++ (command ++ after)) es)
    (hindex : before.getLast? ≠ some '_') (hargument : (Edit.applyAll {} es).afterFunction = false)
    (hafter : Runs [] .piece after fs) :
    Regrouped (before ++ (command ++ after)) (before ++ (braced command ++ after)) := by
  have hstop' : Marked (braced command ++ after) := ⟨'{', _, rfl, by decide⟩
  obtain ⟨front, heq, -, hexchanged⟩ := hbefore.exchanges (hcommand.marked _) hstop'
  obtain rfl := List.append_cancel_right heq
  cases hexchanged with
  | same h =>
      refine regrouped_of_groups hbefore (hcommand.runs hafter) h (hcommand.runs_braced hafter) ?_
      exact (groups_operand hcommand.wraps _ true).applyAll fs
  | @raised base blanks ds _ _ hfront hblanks hes h =>
      have hgroup : Enclosed '{' '}' (blanks ++ braced command) command :=
        (Enclosed.braced hcommand).behind hblanks
      have hpower := Runs.power hgroup hcommand.runs_alone hafter
      rw [text_operand, List.append_assoc] at hpower
      refine regrouped_of_groups hbefore (hcommand.runs hafter) h hpower ?_
      rw [hes, Edit.applyAll_append]
      exact (groups_raised hcommand hblanks _).applyAll fs
  | index _ _ h => exact absurd h hindex
  | argument _ _ h =>
      rw [h] at hargument
      cases hargument

theorem Stands.regrouped (h : Stands command before after)
    (hcommand : IsOperation command sign first second) :
    Regrouped (before ++ (command ++ after)) (before ++ (braced command ++ after)) := by
  induction h with
  | here hbefore hindex hargument hafter =>
      exact braced_here hcommand hbefore hindex hargument hafter
  | @within left right front behind before after opening closing edits es fs hholds h hcontent
      hfront hbehind ih =>
      obtain ⟨gs, gs', hgs, hgs', hwraps⟩ := ih
      have hbalanced := balanced_braced hcommand (h.whole hcommand) hholds.delimiters hcontent hgs'
      have hstop := hholds.runs hcontent hgs hbehind
      have hstop' := hholds.runs hbalanced hgs' hbehind
      have hmarked (rest : List Char) := hholds.marked rest
      obtain ⟨_, heq, -, hexchanged⟩ := hfront.exchanges (hmarked _)
        (hmarked (before ++ (braced command ++ after) ++ (right ++ behind)))
      obtain rfl := List.append_cancel_right heq
      have hheads (rest rest' : List Char) : (left ++ rest).head? = (left ++ rest').head? := by
        rw [List.head?_append_of_ne_nil _ hholds.ne_nil, List.head?_append_of_ne_nil _ hholds.ne_nil]
      cases hexchanged with
      | same hsame =>
          have hgroups : Groups (Edit.applyAll (Edit.applyAll {} es) (edits (Edit.text gs) ++ fs))
              (Edit.applyAll (Edit.applyAll {} es) (edits (Edit.text gs') ++ fs)) := by
            rw [Edit.applyAll_append, Edit.applyAll_append]
            exact (hholds.groups hwraps (Edit.applyAll {} es)).applyAll fs
          simpa using regrouped_of_groups hfront hstop hsame hstop' hgroups
      | raised hother hgroup => exact absurd ((hheads _ _).trans hgroup) hother
      | index hother hgroup => exact absurd ((hheads _ _).trans hgroup) hother
      | argument hnone hsome => exact absurd (hholds.noArgument hnone) hsome

/-! ## Values -/

theorem plainOf_of_runs {es : List Edit} (h : Runs [] .piece cs es) (hcs : '\\' ∈ cs) :
    plainOf (String.ofList cs) = .ok (String.ofList (Edit.text es)) := by
  have hmarkup : isMarkup (String.ofList cs) = true := by
    rw [isMarkup, String.toList_ofList, List.any_eq_true]
    exact ⟨'\\', hcs, rfl⟩
  rw [plainOf, if_pos hmarkup, toPlain_eq_write, String.toList_ofList, h.written.whole]
  rfl

/-- The plain notations of two texts differ in parentheses around the operation. -/
structure Operation.Separates (o : Operation) (cs cs' : List Char) : Prop where
  proper : o.Proper
  plain : plainOf (String.ofList cs) = .ok (String.ofList o.text)
  grouped : plainOf (String.ofList cs') = .ok (String.ofList o.grouped)

/-- Braces around a fraction, or a root with an index, that stands as an operand put parentheses
around its operation in plain notation, and do not change the value in exact arithmetic where the
operation is on its own among the lexemes. -/
theorem ofText_braced (hcommand : IsOperation command sign first second)
    (h : Stands command before after) {e : Expr}
    (he : Expr.ofText (String.ofList (before ++ (command ++ after))) = .ok e) :
    (∃ o : Operation,
      o.Separates (before ++ (command ++ after)) (before ++ (braced command ++ after))) ∧
    ∀ o : Operation,
      o.Separates (before ++ (command ++ after)) (before ++ (braced command ++ after)) → o.Alone →
      ∃ e', Expr.ofText (String.ofList (before ++ (braced command ++ after))) = .ok e' ∧
        ∀ (K : Type) [Field K] [ExactArithmetic K] (bindings : Table (Binding K)),
          e.evaluate bindings = e'.evaluate bindings := by
  have hbackslash : '\\' ∈ command := List.mem_of_head? (by simpa using hcommand.head [])
  refine ⟨?_, fun o ho halone => ?_⟩
  · obtain ⟨es, es', hes, hes', o, ho, htext, hgrouped⟩ := h.regrouped hcommand
    refine ⟨o, ho, ?_, ?_⟩
    · rw [plainOf_of_runs hes (by simp [hbackslash]), htext]
    · rw [plainOf_of_runs hes' (by simp [braced, hbackslash]), hgrouped]
  · rw [Expr.ofText_of_plain ho.plain] at he
    obtain ⟨e', he', hvalue⟩ := halone.ofPlain_grouped ho.proper he
    refine ⟨e', (Expr.ofText_of_plain ho.grouped).trans he', fun K _ _ bindings => ?_⟩
    rw [Expr.evaluate_eq_outcomeWith, Expr.evaluate_eq_outcomeWith]
    exact hvalue K _

end Stands

/-! ### A product with a fraction -/

/-- The fraction of `b` and `c`. -/
private def share : List Char := '\\' :: ("frac".toList ++ (braced ['b'] ++ braced ['c']))

/-- The fraction in plain notation, behind `a*`. -/
private def shareOperation : Operation := ⟨'/', ['a', '*'], [], ['b'], ['c'], []⟩

/-- The product with the fraction as it is read. -/
private def shareTree : Expr := .binary "/" (.binary "*" (.var "a") (.var "b")) (.var "c")

private theorem runs_name {c : Char} (hc : isPlain c = true) {rest stop : List Char} {fs : List Edit}
    (hhead : ∀ d ∈ rest.head?, isPlain d = false) (h : Runs stop .piece rest fs) :
    Runs stop .piece (c :: rest) (.operand [c] false :: fs) :=
  .piece (.run (List.cons_ne_nil c []) (by simpa using hc) hhead) h

private theorem isOperation_share : IsOperation share '/' ['b'] ['c'] := by
  have hname : IsCommand "frac".toList .fraction :=
    ⟨by decide, List.all_eq_true.mp (by decide), rfl⟩
  have hgroup {c : Char} (hc : isPlain c = true) : Enclosed '{' '}' (braced [c]) [c] :=
    enclosed_of_balanced (isNeutral_of_plain (by simpa using hc)).balanced
  have hb : isPlain 'b' = true := by decide
  have hc : isPlain 'c' = true := by decide
  exact .fraction hname (hgroup hb) (runs_name hb (by simp) .finish) (hgroup hc)
    (runs_name hc (by simp) .finish)

private theorem runs_share {stop rest : List Char} {fs : List Edit} (h : Runs stop .piece rest fs) :
    Runs stop .piece ('a' :: '*' :: rest) (.operand ['a'] false :: .operator ['*'] :: fs) := by
  have hstar : IsSign '*' := by
    refine ⟨by decide, by decide, by decide⟩
  exact runs_name (by decide) (by simpa using hstar.2.2) (.piece (.sign hstar) h)

private theorem stands_share : Stands share ['a', '*'] [] :=
  .here (runs_share .finish) (by decide) rfl .finish

private theorem separates_share :
    shareOperation.Separates (['a', '*'] ++ (share ++ [])) (['a', '*'] ++ (braced share ++ [])) := by
  refine ⟨⟨.inl rfl, by simp [shareOperation]⟩, ?_, ?_⟩
  · exact plainOf_of_runs (runs_share (isOperation_share.runs .finish)) (by decide)
  · exact plainOf_of_runs (runs_share (isOperation_share.runs_braced .finish)) (by decide)

private theorem scans_tokens {text : String} {tokens : List Token} {ls : List Lexeme}
    (h : (tokenize text).toOption = some tokens) (hls : tokens.map Token.lexeme = ls) :
    Scans text.toList ls := by
  cases hresult : tokenize text with
  | error e => rw [hresult] at h; cases h
  | ok found =>
      rw [hresult] at h
      cases h
      exact scans_iff_tokenize.mpr ⟨tokens, hresult, hls⟩

private theorem alone_share : shareOperation.Alone := by
  have hname (text name : String)
      (h : (tokenize text).toOption = some [⟨.var name, 0, none⟩, ⟨.finish, 1, none⟩])
      {ls : List Lexeme} (hls : Scans text.toList (ls ++ [.finish])) : Expr.Shut ls := by
    obtain rfl := List.append_cancel_right (hls.unique (scans_tokens h rfl) : _ = [.var name] ++ _)
    exact Expr.shut_single rfl
  have hfront : (tokenize "a*").toOption = some [⟨.var "a", 0, none⟩, ⟨.operator "*", 1, none⟩,
    ⟨.finish, 2, none⟩] := by decide
  refine ⟨fun h => ?_, fun h => ?_, fun h => ?_, fun h => ?_⟩
  · exact hname "b" "b" (by decide) h
  · exact hname "c" "c" (by decide) h
  · obtain rfl := List.append_cancel_right
      (h.unique (scans_tokens hfront rfl) : _ = [.var "a", .operator "*"] ++ _)
    refine ⟨fun {front l name} heq => ?_, fun _ {front signs other} heq _ => ?_⟩
    · have hlast := congrArg List.getLast? heq
      simp only [List.getLast?_append, List.getLast?_singleton] at hlast
      cases hlast
      intro hnames
      cases hnames
    · match front, heq with
      | [l], heq =>
          injection heq with _ heq
          injection heq with heq _
          cases heq
          decide
      | _ :: _ :: front, heq =>
          have hlength := congrArg List.length heq
          simp at hlength
  · obtain rfl := List.append_cancel_right (h.unique scans_nil : _ = [] ++ _)
    simp [Expr.Unraised]

theorem ofText_braced_share :
    IsOperation share '/' ['b'] ['c'] ∧ Stands share ['a', '*'] [] ∧
      Expr.ofText (String.ofList (['a', '*'] ++ (share ++ []))) =
        .ok shareTree ∧
      ∃ e', Expr.ofText (String.ofList (['a', '*'] ++ (braced share ++ []))) = .ok e' ∧
        ∀ (K : Type) [Field K] [ExactArithmetic K] (bindings : Table (Binding K)),
          shareTree.evaluate bindings = e'.evaluate bindings := by
  have hplain : (tokenize "a*(b)/(c)").toOption = some [⟨.var "a", 0, none⟩,
    ⟨.operator "*", 1, none⟩, ⟨.openParen, 2, none⟩, ⟨.var "b", 3, none⟩, ⟨.closeParen, 4, none⟩,
    ⟨.operator "/", 5, none⟩, ⟨.openParen, 6, none⟩, ⟨.var "c", 7, none⟩, ⟨.closeParen, 8, none⟩,
    ⟨.finish, 9, none⟩] := by decide +kernel
  have he : Expr.ofText (String.ofList (['a', '*'] ++ (share ++ []))) =
      .ok shareTree := by
    have htree : Expr.ofText "a*(b)/(c)" = .ok shareTree :=
      Expr.ofText_of_tokens (by decide) hplain rfl
    have hsame : plainOf "a*(b)/(c)" = .ok "a*(b)/(c)" := rfl
    rw [Expr.ofText_of_plain hsame] at htree
    rw [Expr.ofText_of_plain separates_share.plain]
    exact htree
  exact ⟨isOperation_share, stands_share, he,
    (ofText_braced isOperation_share stands_share he).2 shareOperation separates_share alone_share⟩

end Reckoner.Latex
