import Reckoner.Proofs.Latex.Solid

/-!
# Exchanging what is left of a text

The pieces in front of the place where they stop hardly depend on what is left there. If both what
is left and what is put in its place start with a mark, the pieces stay the same, unless the last
one of them is looking for a group: an exponent, an index or a function in front of its argument.
-/

namespace Reckoner.Latex

open Reckoner.Text

/-! ## Marks -/

/-- The text starts with a command, a group, an exponent or an index. -/
def Marked (cs : List Char) : Prop := ∃ c tail, cs = c :: tail ∧ c ∈ ['\\', '{', '^', '_']

variable {cs front stop stop' rest : List Char}

theorem Marked.ne_nil (h : Marked cs) : cs ≠ [] := by
  obtain ⟨c, tail, rfl, -⟩ := h
  exact List.cons_ne_nil c tail

/-- A class of characters without marks. -/
def Unmarked (p : Char → Bool) : Prop := ['\\', '{', '^', '_'].all (fun c => !p c) = true

theorem unmarked_isBlank : Unmarked isBlank := by
  unfold Unmarked
  decide

theorem unmarked_isPlain : Unmarked isPlain := by
  unfold Unmarked
  decide

theorem unmarked_isLetter : Unmarked isLetter := by
  unfold Unmarked
  decide

theorem Marked.head (h : Marked cs) {p : Char → Bool} (hp : Unmarked p) :
    ∀ c ∈ cs.head?, p c = false := by
  obtain ⟨c, tail, rfl, hc⟩ := h
  intro d hd
  cases hd
  simpa using List.all_eq_true.mp hp c hc

/-- Whether a class goes on at the end of the front. -/
theorem Marked.head_append (h : Marked stop') {p : Char → Bool} (hp : Unmarked p)
    (hfront : ∀ c ∈ (front ++ stop).head?, p c = false) :
    ∀ c ∈ (front ++ stop').head?, p c = false := by
  cases front with
  | nil => exact h.head hp
  | cons d front => exact hfront

/-! ## Names of commands -/

theorem takeWhile_append_marked (h : Marked stop) {p : Char → Bool} (hp : Unmarked p)
    (cs : List Char) :
    (cs ++ stop).takeWhile p = cs.takeWhile p := by
  have hnone : stop.takeWhile p = [] := by
    obtain ⟨c, tail, rfl, hc⟩ := h
    exact List.takeWhile_cons_of_neg (by simpa using List.all_eq_true.mp hp c hc)
  rw [List.takeWhile_append]
  split
  · rw [hnone, List.append_nil]
    exact ((List.takeWhile_prefix p).eq_of_length ‹_›).symm
  · rfl

theorem commandName_fst (h : Marked stop) (hne : cs ≠ []) :
    (commandName (cs ++ stop)).1 = (commandName cs).1 := by
  obtain ⟨c, tail, rfl⟩ := List.exists_cons_of_ne_nil hne
  have htake := takeWhile_append_marked h unmarked_isLetter (c :: tail)
  rw [List.cons_append] at htake ⊢
  rw [commandName, commandName, htake]
  split <;> rfl

/-- A name that has been read ends in front of another text too, if no letter follows there. -/
theorem commandName_behind {name rest' : List Char} (h : commandName (name ++ rest) = (name, rest))
    (hwhole : rest ≠ [] ∨ Whole ('\\' :: name))
    (hhead : (∀ c ∈ rest.head?, isLetter c = false) → ∀ c ∈ rest'.head?, isLetter c = false) :
    commandName (name ++ rest') = (name, rest') := by
  rcases commandName_cases h with ⟨rfl, rfl⟩ | ⟨c, rfl, hc⟩ | ⟨hne, hletters, hrest⟩
  · rcases hwhole with hrest | hwhole
    · exact absurd rfl hrest
    · cases hwhole with
      | char hc => exact absurd rfl hc
  · rw [List.singleton_append, commandName, hc]
    rfl
  · obtain ⟨htake, hdrop⟩ := Token.takeWhile_append_of_head hletters (hhead hrest)
    obtain ⟨c, tail, rfl⟩ := List.exists_cons_of_ne_nil hne
    rw [List.cons_append] at htake hdrop ⊢
    rw [commandName, if_pos (hletters c List.mem_cons_self), htake, hdrop]

theorem commandName_exchange {name : List Char} (hstop' : Marked stop') (hstop : Marked stop)
    (h : commandName (name ++ (front ++ stop)) = (name, front ++ stop)) :
    commandName (name ++ (front ++ stop')) = (name, front ++ stop') :=
  commandName_behind h (.inl (by simp [hstop.ne_nil])) (hstop'.head_append unmarked_isLetter)

theorem letters_left : ∀ c ∈ "left".toList, isLetter c = true :=
  List.all_eq_true.mp (by decide)

theorem isPrefixOf_append_head (hhead : ∀ c ∈ rest.head?, isLetter c = false) {word : List Char}
    (hword : ∀ c ∈ word, isLetter c = true) (cs : List Char) :
    word.isPrefixOf (cs ++ rest) = word.isPrefixOf cs := by
  induction word generalizing cs with
  | nil => simp
  | cons c word ih =>
      rw [List.forall_mem_cons] at hword
      cases cs with
      | nil =>
          cases rest with
          | nil => rfl
          | cons d tail =>
              have hne : c ≠ d := by
                rintro rfl
                have hletter := hhead c rfl
                rw [hword.1] at hletter
                cases hletter
              simp [List.isPrefixOf, hne]
      | cons d cs => simp [List.isPrefixOf, ih hword.2]

/-! ## Arguments of functions -/

theorem dropWhile_append_marked (h : Marked stop) :
    (front ++ stop).dropWhile isBlank = front.dropWhile isBlank ++ stop := by
  rw [List.dropWhile_append]
  split
  case isTrue hempty =>
      obtain ⟨c, tail, rfl, hc⟩ := h
      rw [List.isEmpty_iff.mp hempty, List.nil_append]
      exact List.dropWhile_cons_of_neg (by simpa using List.all_eq_true.mp unmarked_isBlank c hc)
  case isFalse => rfl

theorem noArgument_blanks (hfront : ∀ b ∈ front, isBlank b = true) :
    NoArgument (front ++ rest) ↔ NoArgument rest := by
  have hdrop : (front ++ rest).dropWhile isBlank = rest.dropWhile isBlank := by
    rw [List.dropWhile_append, List.dropWhile_eq_nil_iff.mpr hfront]
    rfl
  unfold NoArgument
  rw [hdrop]

/-- What stands behind makes no difference if something other than blanks stands in front. -/
theorem noArgument_append (hfront : Whole front) (hrest : Marked rest)
    (hne : front.dropWhile isBlank ≠ []) : NoArgument (front ++ rest) ↔ NoArgument front := by
  have hdropped : Whole (front.dropWhile isBlank) := by
    have htext := List.takeWhile_append_dropWhile (p := isBlank) (l := front)
    rw [← htext] at hfront
    exact (solid_blanks fun b hb => List.mem_takeWhile_imp hb).whole.of_append hfront
  unfold NoArgument
  rw [dropWhile_append_marked hrest]
  generalize front.dropWhile isBlank = dropped at *
  obtain ⟨c, tail, rfl⟩ := List.exists_cons_of_ne_nil hne
  rw [List.cons_append]
  by_cases hbackslash : c = '\\'
  · subst hbackslash
    have htail : tail ≠ [] := by
      rintro rfl
      cases hdropped with
      | char hc => exact absurd rfl hc
    have hleft := isPrefixOf_append_head (hrest.head unmarked_isLetter) letters_left tail
    change ("left".toList.isPrefixOf (tail ++ rest) = true ∨
      bareArgument? (String.ofList (commandName (tail ++ rest)).1) = none) ↔
        ("left".toList.isPrefixOf tail = true ∨
          bareArgument? (String.ofList (commandName tail).1) = none)
    rw [hleft, commandName_fst hrest htail]
  · by_cases hbrace : c = '{'
    · subst hbrace
      rfl
    · split
      case h_1 heq => cases heq
      case h_2 heq => cases heq; exact absurd rfl hbrace
      case h_3 heq => cases heq; exact absurd rfl hbackslash
      case h_4 heq => cases heq; rfl

theorem NoArgument.exchange (hfront : Whole front) (hstop : Marked stop) (hstop' : Marked stop')
    (hne : front.dropWhile isBlank ≠ []) (h : NoArgument (front ++ stop)) :
    NoArgument (front ++ stop') :=
  (noArgument_append hfront hstop' hne).mpr ((noArgument_append hfront hstop hne).mp h)

/-! ## The pieces in front -/

/-- The edits of blanks. -/
def blankEdits (blanks : List Char) : List Edit := blanks.map fun b => .append [b]

/-- What comes of the pieces in front when another text is put where they stop. -/
inductive Exchanged (stop stop' : List Char) (place : Place) (front : List Char)
    (es : List Edit) : Prop
  | same (h : Runs stop' place (front ++ stop') es)
  /-- An exponent that was written as it stands becomes a group. -/
  | raised {base blanks : List Char} {ds : List Edit} (hother : stop.head? ≠ some '{')
      (hgroup : stop'.head? = some '{') (hfront : front = base ++ '^' :: blanks)
      (hblanks : ∀ b ∈ blanks, isBlank b = true)
      (hes : es = ds ++ .operator ['^'] :: blankEdits blanks)
      (h : Runs ('^' :: (blanks ++ stop')) place (front ++ stop') ds)
  /-- The group would become an index. -/
  | index (hother : stop.head? ≠ some '{') (hgroup : stop'.head? = some '{')
      (h : front.getLast? = some '_')
  /-- A function that has no argument would get one. -/
  | argument (hnone : NoArgument stop) (hsome : ¬ NoArgument stop')
      (h : ∀ out, (Edit.applyAll out es).afterFunction = true)

/-- The pieces in front of where they stop, with another text put there. -/
def Exchanges (stop stop' : List Char) (place : Place) (cs : List Char) (es : List Edit) : Prop :=
  ∃ front, cs = front ++ stop ∧
    (place = .piece → (∀ b ∈ front, isBlank b = true) → es = blankEdits front) ∧
    Exchanged stop stop' place front es

variable {place place' : Place} {es fs : List Edit} {piece : List Char}

theorem blankEdits_append (xs ys : List Char) :
    blankEdits (xs ++ ys) = blankEdits xs ++ blankEdits ys := List.map_append

theorem applyAll_blankEdits (blanks : List Char) (out : Output) :
    Edit.applyAll out (blankEdits blanks) =
      { out with pieces := (blanks.map fun b => [b]).reverse ++ out.pieces } := by
  induction blanks generalizing out with
  | nil => rfl
  | cons b blanks ih =>
      change Edit.applyAll (out.append [b]) (blankEdits blanks) = _
      rw [ih]
      simp [Output.append]

/-- A piece that does not depend on where the pieces stop. -/
theorem Exchanges.behind (h : Exchanges stop stop' place' rest fs)
    (hblank : place = .piece → (∀ b ∈ piece, isBlank b = true) →
      place' = .piece ∧ es = blankEdits piece)
    (hpiece : ∀ front, rest = front ++ stop → ∀ mid gs, Runs mid place' (front ++ stop') gs →
      Runs mid place (piece ++ (front ++ stop')) (es ++ gs)) :
    Exchanges stop stop' place (piece ++ rest) (es ++ fs) := by
  obtain ⟨front, rfl, hblanks, hexchanged⟩ := h
  refine ⟨piece ++ front, (List.append_assoc ..).symm, fun hpieces hall => ?_, ?_⟩
  · obtain ⟨hall, hfronts⟩ := List.forall_mem_append.mp hall
    obtain ⟨hplace, rfl⟩ := hblank hpieces hall
    rw [blankEdits_append, hblanks hplace hfronts]
  · cases hexchanged with
    | same h =>
        refine .same ?_
        rw [List.append_assoc]
        exact hpiece front rfl _ _ h
    | @raised base blanks ds hother hgroup hfront hblanks hes h =>
        have hfront' : piece ++ front = piece ++ base ++ '^' :: blanks := by
          rw [hfront, List.append_assoc]
        have hes' : es ++ fs = es ++ ds ++ .operator ['^'] :: blankEdits blanks := by
          rw [hes, List.append_assoc]
        refine .raised hother hgroup hfront' hblanks hes' ?_
        rw [List.append_assoc]
        exact hpiece front rfl _ _ h
    | index hother hgroup h =>
        refine .index hother hgroup ?_
        rw [List.getLast?_append, h]
        rfl
    | argument hnone hsome h =>
        refine .argument hnone hsome fun out => ?_
        rw [Edit.applyAll_append]
        exact h _

/-- A piece with a character that is no blank. -/
theorem Exchanges.behind_solid {c : Char} (h : Exchanges stop stop' place' rest fs)
    (hc : c ∈ piece) (hsolid : isBlank c = false)
    (hpiece : ∀ front, rest = front ++ stop → ∀ mid gs, Runs mid place' (front ++ stop') gs →
      Runs mid place (piece ++ (front ++ stop')) (es ++ gs)) :
    Exchanges stop stop' place (piece ++ rest) (es ++ fs) := by
  refine h.behind (fun _ hall => ?_) hpiece
  rw [hall c hc] at hsolid
  cases hsolid

theorem Exchanges.behind_edit {c : Char} {e : Edit} (h : Exchanges stop stop' place' rest fs)
    (hc : c ∈ piece) (hsolid : isBlank c = false)
    (hpiece : ∀ front, rest = front ++ stop → ∀ mid gs, Runs mid place' (front ++ stop') gs →
      Runs mid place (piece ++ (front ++ stop')) (e :: gs)) :
    Exchanges stop stop' place (piece ++ rest) (e :: fs) :=
  @Exchanges.behind_solid _ _ _ _ _ [e] _ _ c h hc hsolid hpiece

/-- A command and its groups. -/
theorem Exchanges.command {name groups : List Char} {e : Edit}
    (h : Exchanges stop stop' place rest fs) (hstop : Marked stop) (hstop' : Marked stop')
    (hname : commandName (name ++ (groups ++ rest)) = (name, groups ++ rest))
    (hpiece : ∀ {rest mid gs}, commandName (name ++ (groups ++ rest)) = (name, groups ++ rest) →
      Runs mid place rest gs → Runs mid .piece ('\\' :: (name ++ (groups ++ rest))) (e :: gs)) :
    Exchanges stop stop' .piece ('\\' :: (name ++ (groups ++ rest))) (e :: fs) := by
  have htext (rest : List Char) : '\\' :: (name ++ (groups ++ rest)) =
      '\\' :: (name ++ groups) ++ rest := by simp
  rw [htext]
  refine h.behind_edit List.mem_cons_self (by decide) fun front heq mid gs hbehind => ?_
  subst heq
  have hassoc (rest : List Char) : groups ++ (front ++ rest) = (groups ++ front) ++ rest :=
    (List.append_assoc ..).symm
  rw [hassoc] at hname
  have hexchange := commandName_exchange hstop' hstop hname
  rw [← hassoc] at hexchange
  rw [← htext]
  exact hpiece hexchange hbehind

theorem exchanges_raise (hrest : Exchanges stop stop' .piece rest fs) (hstop : Marked stop)
    (hstop' : Marked stop') (h : (rest.dropWhile isBlank).head? ≠ some '{') :
    Exchanges stop stop' .piece ('^' :: rest) (.operator ['^'] :: fs) := by
  -- the group is looked for behind blanks
  have hsame (hnone : ∀ {front}, rest = front ++ stop →
      ((front ++ stop').dropWhile isBlank).head? ≠ some '{') :
      Exchanges stop stop' .piece (['^'] ++ rest) (.operator ['^'] :: fs) :=
    hrest.behind_edit List.mem_cons_self (by decide) fun _ heq _ _ => .piece (.raise (hnone heq))
  obtain ⟨front, rfl, hblank, -⟩ := hrest
  rw [dropWhile_append_marked hstop] at h
  by_cases hgroup : (front.dropWhile isBlank ++ stop').head? = some '{'
  · have hall : front.dropWhile isBlank = [] := by
      by_contra hne
      obtain ⟨c, tail, hdrop⟩ := List.exists_cons_of_ne_nil hne
      rw [hdrop] at h hgroup
      exact h hgroup
    rw [hall, List.nil_append] at h hgroup
    have hblanks := List.dropWhile_eq_nil_iff.mp hall
    refine ⟨'^' :: front, rfl, fun _ hcaret => ?_, ?_⟩
    · cases hcaret '^' List.mem_cons_self
    · have hes : .operator ['^'] :: fs = [] ++ .operator ['^'] :: blankEdits front := by
        rw [hblank rfl hblanks, List.nil_append]
      exact .raised h hgroup (List.nil_append _).symm hblanks hes .finish
  · refine hsame fun {front'} heq => ?_
    obtain rfl := List.append_cancel_right heq
    rwa [dropWhile_append_marked hstop']

theorem exchanges_underscore (hrest : Exchanges stop stop' .piece rest fs)
    (h : rest.head? ≠ some '{') :
    Exchanges stop stop' .piece ('_' :: rest) (.append ['_'] :: fs) := by
  have hsame (hnone : ∀ {front}, rest = front ++ stop → (front ++ stop').head? ≠ some '{') :
      Exchanges stop stop' .piece (['_'] ++ rest) (.append ['_'] :: fs) :=
    hrest.behind_edit List.mem_cons_self (by decide) fun _ heq _ _ =>
      .piece (.underscore (hnone heq))
  obtain ⟨front, rfl, -, -⟩ := hrest
  by_cases hgroup : (front ++ stop').head? = some '{'
  · cases front with
    | nil =>
        refine ⟨['_'], rfl, fun _ hall => ?_, .index h hgroup rfl⟩
        cases hall '_' List.mem_cons_self
    | cons c front => exact absurd hgroup h
  · refine hsame fun {front'} heq => ?_
    obtain rfl := List.append_cancel_right heq
    exact hgroup

theorem Emits.exchanges (h : Emits piece rest es) (hrest : Exchanges stop stop' .piece rest fs)
    (hstop : Marked stop) (hstop' : Marked stop') :
    Exchanges stop stop' .piece (piece ++ rest) (es ++ fs) := by
  cases h with
  | blank h =>
      exact hrest.behind (fun _ _ => ⟨rfl, rfl⟩) fun _ _ _ _ => .piece (.blank h)
  | @run run _ hne hrun hhead =>
      obtain ⟨c, run, rfl⟩ := List.exists_cons_of_ne_nil hne
      refine hrest.behind_solid List.mem_cons_self
        (isBlank_of_isPlain (hrun c List.mem_cons_self)) fun _ heq _ _ => ?_
      subst heq
      exact .piece (.run hne hrun (hstop'.head_append unmarked_isPlain hhead))
  | opening h =>
      refine hrest.behind_solid List.mem_cons_self ?_ fun _ _ _ _ => .piece (.opening h)
      rcases h with rfl | rfl <;> decide
  | closing h =>
      refine hrest.behind_solid List.mem_cons_self ?_ fun _ _ _ _ => .piece (.closing h)
      rcases h with rfl | rfl <;> decide
  | sign h => exact hrest.behind_solid List.mem_cons_self h.2.1 fun _ _ _ _ => .piece (.sign h)
  | raise h => exact exchanges_raise hrest hstop hstop' h
  | underscore h => exact exchanges_underscore hrest h
  | command hname h =>
      refine hrest.behind_solid List.mem_cons_self (by decide) fun _ heq _ _ => ?_
      subst heq
      exact .piece (.command (commandName_exchange hstop' hstop hname) h)
  | @delimiter name blanks d _ left _ hname h hblanks hd =>
      refine hrest.behind_solid List.mem_cons_self (by decide) fun front heq _ _ => ?_
      subst heq
      obtain ⟨-, -, hd'⟩ := delimiter?_cases hd
      refine .piece (.delimiter ?_ h hblanks (hd' _))
      rw [← List.append_assoc d, ← List.append_assoc blanks] at hname ⊢
      exact commandName_exchange hstop' hstop hname

/-- A function is followed by its argument, or nothing that could be one follows. -/
theorem exchanges_noArgument (hrest : Exchanges stop stop' .piece rest fs)
    (hsolid : SolidFront stop rest) (hstop : Marked stop) (hstop' : Marked stop') (h : NoArgument rest) :
    Exchanges stop stop' .argument rest (.awaiting :: fs) := by
  obtain ⟨front, rfl, hfront⟩ := hsolid
  by_cases hnone : NoArgument (front ++ stop')
  · have hbehind : Exchanges stop stop' .argument ([] ++ (front ++ stop)) ([.awaiting] ++ fs) := by
      refine hrest.behind (fun hplace => by cases hplace) fun front' heq _ _ hbehind => ?_
      obtain rfl := List.append_cancel_right heq
      exact .noArgument hnone hbehind
    exact hbehind
  · have hall : front.dropWhile isBlank = [] := by
      by_contra hne
      exact hnone (h.exchange hfront.whole hstop hstop' hne)
    have hblanks := List.dropWhile_eq_nil_iff.mp hall
    obtain ⟨_, heq, hblank, -⟩ := hrest
    obtain rfl := List.append_cancel_right heq
    refine ⟨front, rfl, (fun hplace => by cases hplace), .argument ?_ ?_ fun out => ?_⟩
    · rwa [noArgument_blanks hblanks] at h
    · rwa [noArgument_blanks hblanks] at hnone
    · rw [hblank rfl hblanks, Edit.applyAll_cons, applyAll_blankEdits]
      rfl

theorem Enclosed.opening_mem {opening closing : Char} {group content : List Char}
    (h : Enclosed opening closing group content) : opening ∈ group := by
  cases h with
  | intro => simp

theorem Runs.exchanges (h : Runs stop place cs es) (hstop : Marked stop) (hstop' : Marked stop') :
    Exchanges stop stop' place cs es := by
  induction h with
  | finish => exact ⟨[], rfl, fun _ _ => rfl, .same .finish⟩
  | piece h _ ih => exact h.exchanges (ih hstop) hstop hstop'
  | @group _ content _ _ _ h hcontent _ _ ih =>
      rw [← cons_group_append]
      refine (ih hstop).behind_edit List.mem_cons_self (by decide) fun _ _ _ _ hrest => ?_
      rw [cons_group_append]
      exact .group h hcontent hrest
  | @power _ group _ _ _ _ h hcontent _ _ ih =>
      rw [← List.cons_append]
      exact (ih hstop).behind_edit List.mem_cons_self (by decide)
        fun _ _ _ _ hrest => .power h hcontent hrest
  | @index _ content _ _ _ h hcontent _ _ ih =>
      have htext (rest : List Char) : '_' :: '{' :: (content ++ '}' :: rest) =
          ('_' :: '{' :: (content ++ ['}'])) ++ rest :=
        congrArg (List.cons '_') (cons_group_append '{' '}' content rest).symm
      rw [htext]
      refine (ih hstop).behind_edit List.mem_cons_self (by decide) fun _ _ _ _ hrest => ?_
      rw [← htext]
      exact .index h hcontent hrest
  | @fraction _ name group _ group' _ rest _ _ _ hname hcommand h habove h' hbelow _ _ _ ih =>
      have hassoc (rest : List Char) : group ++ (group' ++ rest) = (group ++ group') ++ rest :=
        (List.append_assoc ..).symm
      rw [hassoc] at hname ⊢
      refine (ih hstop).command hstop hstop' hname fun hname hrest => ?_
      rw [← hassoc] at hname ⊢
      exact .fraction hname hcommand h habove h' hbelow hrest
  | @root _ name group _ group' _ rest _ _ _ hname hcommand h hindex h' hradicand _ _ _ ih =>
      have hassoc (rest : List Char) : group ++ (group' ++ rest) = (group ++ group') ++ rest :=
        (List.append_assoc ..).symm
      rw [hassoc] at hname ⊢
      refine (ih hstop).command hstop hstop' hname fun hname hrest => ?_
      rw [← hassoc] at hname ⊢
      exact .root hname hcommand h hindex h' hradicand hrest
  | squareRoot hname hcommand h hradicand _ _ ih =>
      exact (ih hstop).command hstop hstop' hname fun hname hrest =>
        .squareRoot hname hcommand h hradicand hrest
  | text hname hcommand h hcontent _ _ ih =>
      exact (ih hstop).command hstop hstop' hname fun hname hrest =>
        .text hname hcommand h hcontent hrest
  | namedFunction hname hcommand h hcontent _ _ ih =>
      exact (ih hstop).command hstop hstop' hname fun hname hrest =>
        .namedFunction hname hcommand h hcontent hrest
  | function hname hcommand _ ih =>
      exact @Exchanges.command _ _ _ _ _ _ [] _ (ih hstop) hstop hstop' hname
        fun hname hrest => .function hname hcommand hrest
  | groupArgument h hcontent _ _ ih =>
      exact (ih hstop).behind_edit h.opening_mem (by decide)
        fun _ _ _ _ hrest => .groupArgument h hcontent hrest
  | @runArgument _ blanks c run rest _ hblanks hc hrun hhead _ ih =>
      rw [← List.append_assoc]
      have hsolid := isBlank_of_isPlain (c := c) (by rw [isPlain, hc]; rfl)
      refine (ih hstop).behind_edit (List.mem_append_right _ List.mem_cons_self) hsolid
        fun front heq mid gs hbehind => ?_
      subst heq
      rw [List.append_assoc]
      exact .runArgument hblanks hc hrun (hstop'.head_append unmarked_isPlain hhead) hbehind
  | @commandArgument _ blanks name rest _ _ hblanks hname hleft h _ ih =>
      have htext (rest : List Char) : blanks ++ '\\' :: (name ++ rest) =
          (blanks ++ '\\' :: name) ++ rest := by simp
      rw [htext]
      refine (ih hstop).behind_edit (List.mem_append_right _ List.mem_cons_self) (by decide)
        fun front heq mid gs hbehind => ?_
      subst heq
      rw [← htext]
      refine .commandArgument hblanks (commandName_exchange hstop' hstop hname) ?_ h hbehind
      rw [← List.append_assoc,
        isPrefixOf_append_head (hstop.head unmarked_isLetter) letters_left] at hleft
      rwa [← List.append_assoc,
        isPrefixOf_append_head (hstop'.head unmarked_isLetter) letters_left]
  | noArgument h hrest ih =>
      exact exchanges_noArgument (ih hstop) (hrest.solid (.inl hstop.ne_nil)) hstop hstop' h

end Reckoner.Latex
