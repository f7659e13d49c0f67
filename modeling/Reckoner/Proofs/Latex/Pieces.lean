import Reckoner.Proofs.Latex.Rounds

/-!
# A formula as a row of pieces

What a text does to the output, apart from positions and errors: each piece stands for a few
edits, which do not depend on the output so far. `Runs` relates a text to its edits; it holds just
where writing succeeds, and then the output is what the edits make of the output before.
-/

namespace Reckoner.Latex

open Reckoner.Text

/-! ## Edits -/

/-- A change of the output. -/
inductive Edit where
  | operand (piece : List Char) (fromCommand : Bool)
  | append (piece : List Char)
  | closing (piece : List Char)
  | operator (piece : List Char)
  | opening (piece : List Char) (fromCommand : Bool)
  /-- An opening brace, which is multiplied as an operand even behind a function. -/
  | brace
  | awaiting

namespace Edit

/-- The output after an edit. -/
def apply (out : Output) : Edit → Output
  | operand piece fromCommand => out.operand piece fromCommand
  | append piece => out.append piece
  | closing piece => out.closing piece
  | operator piece => out.operator piece
  | opening piece fromCommand => out.opening piece fromCommand
  | brace => { out.operand ['('] with operandEnd := false }
  | awaiting => out.awaiting

/-- The output after several edits. -/
def applyAll (out : Output) (es : List Edit) : Output := es.foldl apply out

theorem applyAll_cons (out : Output) (e : Edit) (es : List Edit) :
    applyAll out (e :: es) = applyAll (apply out e) es := rfl

theorem applyAll_append (out : Output) (es fs : List Edit) :
    applyAll out (es ++ fs) = applyAll (applyAll out es) fs := List.foldl_append

/-- The text that edits make from nothing. -/
def text (es : List Edit) : List Char := (applyAll {} es).text

end Edit

/-! ## Pieces without groups -/

/-- The edits of a command that takes nothing from the text behind it. -/
def Command.edits? : Command → Option (List Edit)
  | .spacing => some []
  | .operator sign => some [.operator [sign]]
  | .openBrace => some [.brace]
  | .closeBrace => some [.closing [')']]
  | .operand name => some [.operand name.toList true]
  | _ => none

/-- The edits of a delimiter that is written as the piece. -/
def delimiterEdits (left : Bool) (piece : String) : List Edit :=
  if piece = "" then [] else if left then [.opening piece.toList true] else [.closing piece.toList]

theorem applyAll_delimiterEdits (out : Output) (left : Bool) (piece : String) (cursor : Cursor) :
    (if piece = "" then pure (out, cursor)
      else if left then pure (out.opening piece.toList true, cursor)
      else pure (out.closing piece.toList, cursor) : Except Error (Output × Cursor)) =
      .ok (Edit.applyAll out (delimiterEdits left piece), cursor) := by
  unfold delimiterEdits
  split
  case isTrue => rfl
  case isFalse => cases left <;> rfl

/-- A character that stands for an operator or for nothing that is known. -/
def IsSign (c : Char) : Prop :=
  c ∉ ['\\', '{', '}', '^', '_', '(', '[', ')', ']'] ∧ isBlank c = false ∧ isPlain c = false

/-- The first characters are a piece with these edits, if the rest follows. -/
inductive Emits : List Char → List Char → List Edit → Prop
  | blank {c rest} (h : isBlank c = true) : Emits [c] rest [.append [c]]
  | run {run rest} (hne : run ≠ []) (hrun : ∀ c ∈ run, isPlain c = true)
      (hrest : ∀ c ∈ rest.head?, isPlain c = false) : Emits run rest [.operand run false]
  | opening {c rest} (h : c = '(' ∨ c = '[') : Emits [c] rest [.opening ['('] false]
  | closing {c rest} (h : c = ')' ∨ c = ']') : Emits [c] rest [.closing [')']]
  | sign {c rest} (h : IsSign c) : Emits [c] rest [.operator [c]]
  | raise {rest} (h : (rest.dropWhile isBlank).head? ≠ some '{') :
      Emits ['^'] rest [.operator ['^']]
  | underscore {rest} (h : rest.head? ≠ some '{') : Emits ['_'] rest [.append ['_']]
  | command {name rest es} (hname : commandName (name ++ rest) = (name, rest))
      (h : (Command.ofName (String.ofList name)).edits? = some es) :
      Emits ('\\' :: name) rest es
  | delimiter {name blanks d rest : List Char} {left : Bool} {piece : String}
      (hname : commandName (name ++ (blanks ++ (d ++ rest))) = (name, blanks ++ (d ++ rest)))
      (h : Command.ofName (String.ofList name) = .delimiter left)
      (hblanks : ∀ b ∈ blanks, isBlank b = true)
      (hd : delimiter? left (d ++ rest) = some (piece, rest)) :
      Emits ('\\' :: (name ++ (blanks ++ d))) rest (delimiterEdits left piece)

/-! ## Rows of pieces -/

/-- Nothing follows that could be the argument of a function without parentheses. -/
def NoArgument (rest : List Char) : Prop :=
  match rest.dropWhile isBlank with
  | [] => True
  | '{' :: _ => False
  | '\\' :: tail => "left".toList.isPrefixOf tail = true ∨
      bareArgument? (String.ofList (commandName tail).1) = none
  | c :: _ => isAlphanumeric c = false

/-- Where a text goes on: at a piece, or behind the name of a function. -/
inductive Place where
  | piece
  | argument

/-- From the place on, the text consists of pieces with these edits up to where it is to stop. The
content of a group is read to its end. -/
inductive Runs : List Char → Place → List Char → List Edit → Prop
  | finish {stop} : Runs stop .piece stop []
  | piece {stop cs rest es fs} (h : Emits cs rest es) (hrest : Runs stop .piece rest fs) :
      Runs stop .piece (cs ++ rest) (es ++ fs)
  | group {stop content rest es fs} (h : Balanced '{' '}' content) (hcontent : Runs [] .piece content es)
      (hrest : Runs stop .piece rest fs) :
      Runs stop .piece ('{' :: (content ++ '}' :: rest))
        (.operand (inParens (Edit.text es)) true :: fs)
  | power {stop group content rest es fs} (h : Enclosed '{' '}' group content)
      (hcontent : Runs [] .piece content es) (hrest : Runs stop .piece rest fs) :
      Runs stop .piece ('^' :: (group ++ rest)) (.closing ('^' :: inParens (Edit.text es)) :: fs)
  | index {stop content rest es fs} (h : Balanced '{' '}' content) (hcontent : Runs [] .piece content es)
      (hrest : Runs stop .piece rest fs) :
      Runs stop .piece ('_' :: '{' :: (content ++ '}' :: rest))
        (.append ('_' :: squeeze (Edit.text es)) :: fs)
  | fraction {stop name group above group' below rest es es' fs}
      (hname : commandName (name ++ (group ++ (group' ++ rest))) = (name, group ++ (group' ++ rest)))
      (hcommand : Command.ofName (String.ofList name) = .fraction)
      (h : Enclosed '{' '}' group above) (habove : Runs [] .piece above es)
      (h' : Enclosed '{' '}' group' below) (hbelow : Runs [] .piece below es')
      (hrest : Runs stop .piece rest fs) :
      Runs stop .piece ('\\' :: (name ++ (group ++ (group' ++ rest))))
        (.operand (inParens (Edit.text es) ++ '/' :: inParens (Edit.text es')) true :: fs)
  | root {stop name group index group' radicand rest es es' fs}
      (hname : commandName (name ++ (group ++ (group' ++ rest))) = (name, group ++ (group' ++ rest)))
      (hcommand : Command.ofName (String.ofList name) = .root)
      (h : Enclosed '[' ']' group index) (hindex : Runs [] .piece index es)
      (h' : Enclosed '{' '}' group' radicand) (hradicand : Runs [] .piece radicand es')
      (hrest : Runs stop .piece rest fs) :
      Runs stop .piece ('\\' :: (name ++ (group ++ (group' ++ rest))))
        (.operand (inParens (Edit.text es') ++
          '^' :: inParens ('1' :: '/' :: inParens (Edit.text es))) true :: fs)
  | squareRoot {stop name group radicand rest es fs}
      (hname : commandName (name ++ (group ++ rest)) = (name, group ++ rest))
      (hcommand : Command.ofName (String.ofList name) = .root)
      (h : Enclosed '{' '}' group radicand) (hradicand : Runs [] .piece radicand es)
      (hrest : Runs stop .piece rest fs) :
      Runs stop .piece ('\\' :: (name ++ (group ++ rest)))
        (.operand (Function.sqrt.name.toList ++ inParens (Edit.text es)) true :: fs)
  | text {stop name group content rest es fs}
      (hname : commandName (name ++ (group ++ rest)) = (name, group ++ rest))
      (hcommand : Command.ofName (String.ofList name) = .text)
      (h : Enclosed '{' '}' group content) (hcontent : Runs [] .piece content es)
      (hrest : Runs stop .piece rest fs) :
      Runs stop .piece ('\\' :: (name ++ (group ++ rest))) (.operand (Edit.text es) true :: fs)
  | function {stop name rest f fs} (hname : commandName (name ++ rest) = (name, rest))
      (hcommand : Command.ofName (String.ofList name) = .function f)
      (hrest : Runs stop .argument rest fs) :
      Runs stop .piece ('\\' :: (name ++ rest)) (.operand f.toList true :: fs)
  | namedFunction {stop name group content rest es fs}
      (hname : commandName (name ++ (group ++ rest)) = (name, group ++ rest))
      (hcommand : Command.ofName (String.ofList name) = .namedFunction)
      (h : Enclosed '{' '}' group content) (hcontent : Runs [] .piece content es)
      (hrest : Runs stop .argument rest fs) :
      Runs stop .piece ('\\' :: (name ++ (group ++ rest)))
        (.operand (squeeze (Edit.text es)) true :: fs)
  | groupArgument {stop group content rest es fs} (h : Enclosed '{' '}' group content)
      (hcontent : Runs [] .piece content es) (hrest : Runs stop .piece rest fs) :
      Runs stop .argument (group ++ rest) (.append (inParens (Edit.text es)) :: fs)
  | runArgument {stop blanks c run rest fs} (hblanks : ∀ b ∈ blanks, isBlank b = true)
      (hc : isAlphanumeric c = true) (hrun : ∀ d ∈ run, isPlain d = true)
      (hrest : ∀ d ∈ rest.head?, isPlain d = false) (hruns : Runs stop .piece rest fs) :
      Runs stop .argument (blanks ++ (c :: run ++ rest)) (.append (inParens (c :: run)) :: fs)
  | commandArgument {stop blanks name rest argument fs} (hblanks : ∀ b ∈ blanks, isBlank b = true)
      (hname : commandName (name ++ rest) = (name, rest))
      (hleft : "left".toList.isPrefixOf (name ++ rest) = false)
      (h : bareArgument? (String.ofList name) = some argument) (hrest : Runs stop .piece rest fs) :
      Runs stop .argument (blanks ++ '\\' :: (name ++ rest)) (.append (inParens argument.toList) :: fs)
  | noArgument {stop rest fs} (h : NoArgument rest) (hrest : Runs stop .piece rest fs) :
      Runs stop .argument rest (.awaiting :: fs)

/-! ## What runs is written -/

theorem writePiece_backslash (group : GroupReader) (position : Nat) (tail : List Char)
    (out : Output) : writePiece group '\\' ⟨position, '\\' :: tail⟩ out =
      writeCommand group ⟨position, '\\' :: tail⟩ out := rfl

theorem skipBlanks_append {blanks : List Char} (hblanks : ∀ b ∈ blanks, isBlank b = true)
    {rest : List Char} (hrest : ∀ c ∈ rest.head?, isBlank c = false) (position : Nat) :
    Cursor.skipBlanks ⟨position, blanks ++ rest⟩ = ⟨position + blanks.length, rest⟩ := by
  obtain ⟨htake, hdrop⟩ := Token.takeWhile_append_of_head hblanks hrest
  unfold Cursor.skipBlanks
  rw [htake, hdrop]

theorem isBlank_of_delimiter? {left : Bool} {cs tail : List Char} {piece : String}
    (h : delimiter? left cs = some (piece, tail)) : ∀ c ∈ cs.head?, isBlank c = false := by
  unfold delimiter? at h
  split at h
  case h_9 => cases h
  all_goals
    intro c hc
    cases hc
    decide

theorem ne_of_class {p : Char → Bool} {c d : Char} (hc : p c = true) (hd : p d = false) :
    c ≠ d := by
  rintro rfl
  rw [hc] at hd
  cases hd

theorem isBlank_of_isPlain {c : Char} (h : isPlain c = true) : isBlank c = false := by
  unfold isPlain at h
  rcases Bool.or_eq_true_iff.mp h with h | h
  · exact Token.isBlank_of_isNameChar (by rw [Token.isNameChar, h]; rfl)
  · rw [beq_iff_eq.mp h]
    decide

theorem drop_length_takeWhile (p : Char → Bool) (cs : List Char) :
    cs.drop (cs.takeWhile p).length = cs.dropWhile p := by
  have htext := List.takeWhile_append_dropWhile (p := p) (l := cs)
  have hleft : (cs.takeWhile p ++ cs.dropWhile p).drop (cs.takeWhile p).length =
      cs.dropWhile p := List.drop_left
  rwa [htext] at hleft

theorem head_dropWhile (p : Char → Bool) (cs : List Char) :
    ∀ c ∈ (cs.dropWhile p).head?, p c = false := by
  intro c hc
  have h := List.head?_dropWhile_not p cs
  rw [Option.mem_def.mp hc] at h
  exact h

/-- A character that is nothing but itself to the translation, or a blank. -/
theorem writePiece_other {c : Char} (h : c ∉ ['\\', '{', '}', '^', '_']) (group : GroupReader)
    (position : Nat) (rest : List Char) (out : Output) :
    writePiece group c ⟨position, c :: rest⟩ out =
      .ok (if isBlank c then (out.append [c], ⟨position + 1, rest⟩)
        else if isPlain c then (out.operand ((c :: rest).takeWhile isPlain) false,
          ⟨position + ((c :: rest).takeWhile isPlain).length, (c :: rest).dropWhile isPlain⟩)
        else if c = '(' ∨ c = '[' then (out.opening ['('] false, ⟨position + 1, rest⟩)
        else if c = ')' ∨ c = ']' then (out.closing [')'], ⟨position + 1, rest⟩)
        else (out.operator [c], ⟨position + 1, rest⟩)) := by
  simp only [List.mem_cons, List.not_mem_nil, or_false, not_or] at h
  obtain ⟨h1, h2, h3, h4, h5⟩ := h
  unfold writePiece
  simp only [if_neg h1, if_neg h2, if_neg h3, if_neg h4, if_neg h5, Cursor.skip,
    drop_length_takeWhile]
  repeat' split
  all_goals rfl

theorem Emits.writePiece {cs rest : List Char} {es : List Edit} (h : Emits cs rest es) :
    ∃ c tail, cs = c :: tail ∧ ∀ group position out,
      writePiece group c ⟨position, cs ++ rest⟩ out =
        .ok (Edit.applyAll out es, ⟨position + cs.length, rest⟩) := by
  cases h with
  | @blank c _ h =>
      refine ⟨c, [], rfl, fun group position out => ?_⟩
      have hc : c ∉ ['\\', '{', '}', '^', '_'] := by
        intro hmem
        have hnone : ['\\', '{', '}', '^', '_'].all (fun d => !isBlank d) = true := by decide
        simpa [h] using List.all_eq_true.mp hnone c hmem
      rw [List.singleton_append, writePiece_other hc, if_pos h]
      rfl
  | @run run _ hne hrun hrest =>
      obtain ⟨c, tail, rfl⟩ := List.exists_cons_of_ne_nil hne
      refine ⟨c, tail, rfl, fun group position out => ?_⟩
      have hplain := hrun c List.mem_cons_self
      have hc : c ∉ ['\\', '{', '}', '^', '_'] := by
        intro hmem
        have hnone : ['\\', '{', '}', '^', '_'].all (fun d => !isPlain d) = true := by
          decide
        simpa [hplain] using List.all_eq_true.mp hnone c hmem
      obtain ⟨htake, hdrop⟩ := Token.takeWhile_append_of_head hrun hrest
      rw [List.cons_append] at htake hdrop ⊢
      rw [writePiece_other hc, isBlank_of_isPlain hplain, hplain, htake, hdrop]
      rfl
  | @opening c _ h =>
      refine ⟨c, [], rfl, fun group position out => ?_⟩
      rcases h with rfl | rfl <;> rfl
  | @closing c _ h =>
      refine ⟨c, [], rfl, fun group position out => ?_⟩
      rcases h with rfl | rfl <;> rfl
  | @sign c _ h =>
      refine ⟨c, [], rfl, fun group position out => ?_⟩
      obtain ⟨hc, hblank, hplain⟩ := h
      simp only [List.mem_cons, List.not_mem_nil, or_false, not_or] at hc
      rw [List.singleton_append, writePiece_other (by simp [hc]), hblank, hplain,
        if_neg (by simp), if_neg (by simp), if_neg (by simp [hc]), if_neg (by simp [hc])]
      rfl
  | raise h =>
      refine ⟨'^', [], rfl, fun group position out => ?_⟩
      change (if (rest.dropWhile isBlank).head? = some '{' then _ else _) = _
      rw [if_neg h]
      rfl
  | underscore h =>
      refine ⟨'_', [], rfl, fun group position out => ?_⟩
      change (if rest.head? = some '{' then _ else _) = _
      rw [if_neg h]
      rfl
  | @command name _ es hname h =>
      refine ⟨'\\', name, rfl, fun group position out => ?_⟩
      rw [List.cons_append, writePiece_backslash]
      unfold writeCommand
      simp only [List.drop_one, List.tail_cons, hname]
      cases hcommand : Command.ofName (String.ofList name) <;> rw [hcommand] at h <;> cases h
      all_goals
        rw [List.length_cons, Nat.add_assoc, Nat.add_comm 1]
        rfl
  | @delimiter name blanks d _ left piece hname h hblanks hd =>
      refine ⟨'\\', _, rfl, fun group position out => ?_⟩
      rw [List.cons_append, writePiece_backslash, List.append_assoc, List.append_assoc]
      unfold writeCommand
      simp only [List.drop_one, List.tail_cons, hname, h]
      rw [skipBlanks_append hblanks (isBlank_of_delimiter? hd)]
      simp only [hd]
      have hposition : position + 1 + name.length + blanks.length +
          ((d ++ rest).length - rest.length) =
            position + ('\\' :: (name ++ (blanks ++ d))).length := by
        simp only [List.length_append, List.length_cons]
        omega
      rw [hposition, applyAll_delimiterEdits]

theorem enclosed_of_balanced {opening closing : Char} {content : List Char}
    (h : Balanced opening closing content) :
    Enclosed opening closing (opening :: (content ++ [closing])) content :=
  @Enclosed.intro _ _ [] _ (by simp) h

/-- What writing comes to from a place on: it goes on where the pieces stop. -/
def Written (stop : List Char) : Place → List Char → List Edit → Prop
  | .piece, cs, es => ∀ position out, ∃ next,
      write ⟨position, cs⟩ out = write ⟨next, stop⟩ (Edit.applyAll out es)
  | .argument, cs, es => ∀ position name out, ∃ next,
      (writeFunction (groupBy write) name ⟨position, cs⟩ out >>= fun found =>
        write found.2 found.1) = write ⟨next, stop⟩ (Edit.applyAll (out.operand name) es)

/-- A text that is read to its end. -/
theorem Written.whole {cs : List Char} {es : List Edit} (h : Written [] .piece cs es)
    (position : Nat) (out : Output) : write ⟨position, cs⟩ out = .ok (Edit.applyAll out es) := by
  obtain ⟨next, hwrite⟩ := h position out
  rw [hwrite, write_nil]

theorem groupBy_enclosed {opening closing : Char} {group content : List Char} {es : List Edit}
    (h : Enclosed opening closing group content) (hopening : isBlank opening = false)
    (hcontent : Written [] .piece content es)
    (position : Nat) (rest : List Char) :
    groupBy write opening closing ⟨position, group ++ rest⟩ =
      .ok (Edit.text es, ⟨position + group.length, rest⟩) := by
  obtain ⟨start, hread⟩ := h.read hopening position rest
  unfold groupBy
  rw [hread]
  change (write ⟨start, content⟩ {} >>= _) = _
  rw [hcontent.whole]
  rfl

theorem written_piece {c : Char} {stop tail rest : List Char} {es fs : List Edit}
    (hpiece : ∀ position out, ∃ next, writePiece (groupBy write) c ⟨position, c :: tail⟩ out =
      .ok (Edit.applyAll out es, ⟨next, rest⟩))
    (hrest : Written stop .piece rest fs) : Written stop .piece (c :: tail) (es ++ fs) := by
  intro position out
  obtain ⟨next, hpiece⟩ := hpiece position out
  rw [write_cons, hpiece, Edit.applyAll_append]
  exact hrest next _

theorem written_edit {c : Char} {stop tail rest : List Char} {e : Edit} {fs : List Edit}
    (hpiece : ∀ position out, ∃ next, writePiece (groupBy write) c ⟨position, c :: tail⟩ out =
      .ok (Edit.apply out e, ⟨next, rest⟩))
    (hrest : Written stop .piece rest fs) : Written stop .piece (c :: tail) (e :: fs) :=
  @written_piece c stop tail rest [e] fs hpiece hrest

theorem Enclosed.behind {opening closing : Char} {blanks group content : List Char}
    (hblanks : ∀ b ∈ blanks, isBlank b = true) (h : Enclosed opening closing group content) :
    Enclosed opening closing (blanks ++ group) content := by
  obtain @⟨more, _, hmore, hcontent⟩ := h
  rw [← List.append_assoc]
  exact .intro (List.forall_mem_append.mpr ⟨hblanks, hmore⟩) hcontent

/-- Writing goes on behind the argument of a function. -/
theorem written_argument {stop cs rest : List Char} {e : Edit} {fs : List Edit}
    (hargument : ∀ position name out, ∃ next,
      writeFunction (groupBy write) name ⟨position, cs⟩ out =
        .ok (Edit.apply (out.operand name) e, ⟨next, rest⟩))
    (hrest : Written stop .piece rest fs) : Written stop .argument cs (e :: fs) := by
  intro position name out
  obtain ⟨next, hargument⟩ := hargument position name out
  rw [hargument]
  exact hrest next _

theorem isAlphanumeric_ne {c : Char} (h : isAlphanumeric c = true) :
    c ≠ '{' ∧ c ≠ '\\' ∧ isBlank c = false := by
  have hplain : isPlain c = true := by rw [isPlain, h]; rfl
  exact ⟨ne_of_class h (by decide), ne_of_class h (by decide),
    isBlank_of_isPlain hplain⟩

section Function

variable (group : GroupReader) (name : List Char) {cursor : Cursor} {position : Nat}
  {tail : List Char} (out : Output)

theorem writeFunction_end (h : cursor.skipBlanks = ⟨position, []⟩) :
    writeFunction group name cursor out = .ok ((out.operand name).awaiting, cursor) := by
  unfold writeFunction
  rw [h]
  rfl

theorem writeFunction_brace (h : cursor.skipBlanks = ⟨position, '{' :: tail⟩) :
    writeFunction group name cursor out =
      group '{' '}' ⟨position, '{' :: tail⟩ >>= fun found =>
        .ok ((out.operand name).append (inParens found.1), found.2) := by
  unfold writeFunction
  rw [h]
  rfl

theorem writeFunction_backslash (h : cursor.skipBlanks = ⟨position, '\\' :: tail⟩) :
    writeFunction group name cursor out =
      if "left".toList.isPrefixOf tail then .ok ((out.operand name).awaiting, cursor)
      else match bareArgument? (String.ofList (commandName tail).1) with
        | some argument => .ok ((out.operand name).append (inParens argument.toList),
            ⟨position + 1 + (commandName tail).1.length, (commandName tail).2⟩)
        | none => .ok ((out.operand name).awaiting, cursor) := by
  unfold writeFunction
  rw [h]
  rfl

theorem writeFunction_char {c : Char} (hbrace : c ≠ '{') (hbackslash : c ≠ '\\')
    (h : cursor.skipBlanks = ⟨position, c :: tail⟩) :
    writeFunction group name cursor out =
      if isAlphanumeric c then .ok ((out.operand name).append
          (inParens ((c :: tail).takeWhile isPlain)),
        ⟨position + ((c :: tail).takeWhile isPlain).length, (c :: tail).dropWhile isPlain⟩)
      else .ok ((out.operand name).awaiting, cursor) := by
  rw [← drop_length_takeWhile]
  unfold writeFunction
  rw [h]
  dsimp only
  split
  case h_1 heq => cases heq; contradiction
  case h_2 heq => cases heq; contradiction
  case h_3 heq => cases heq; rfl
  case h_4 heq => cases heq

theorem writeFunction_noArgument {rest : List Char} (h : NoArgument rest) :
    writeFunction group name ⟨position, rest⟩ out =
      .ok ((out.operand name).awaiting, ⟨position, rest⟩) := by
  have hskip : Cursor.skipBlanks ⟨position, rest⟩ =
      ⟨position + (rest.takeWhile isBlank).length, rest.dropWhile isBlank⟩ := rfl
  unfold NoArgument at h
  split at h
  case h_1 hdrop =>
      rw [hdrop] at hskip
      exact writeFunction_end group name out hskip
  case h_2 => exact h.elim
  case h_3 tail hdrop =>
      rw [hdrop] at hskip
      rw [writeFunction_backslash group name out hskip]
      rcases h with h | h
      · rw [if_pos h]
      · rw [h, ite_self]
  case h_4 c tail hbrace hbackslash hdrop =>
      rw [hdrop] at hskip
      rw [writeFunction_char group name out (fun heq => hbrace heq)
        (fun heq => hbackslash heq) hskip, h]
      rfl

end Function

theorem Runs.written {stop : List Char} {place : Place} {cs : List Char} {es : List Edit}
    (h : Runs stop place cs es) : Written stop place cs es := by
  have hbrace : isBlank '{' = false := by decide
  have hbracket : isBlank '[' = false := by decide
  induction h with
  | finish => exact fun position out => ⟨position, rfl⟩
  | piece h _ ih =>
      obtain ⟨c, tail, rfl, hpiece⟩ := h.writePiece
      rw [List.cons_append]
      exact written_piece (fun position out => ⟨_, hpiece _ position out⟩) ih
  | @group _ content rest _ _ h _ _ ih ihrest =>
      refine written_edit (fun position out => ?_) ihrest
      have hgroup := groupBy_enclosed (enclosed_of_balanced h) hbrace ih position rest
      rw [← cons_group_append]
      refine ⟨position + ('{' :: (content ++ ['}'])).length, ?_⟩
      change (groupBy write '{' '}' ⟨position, '{' :: (content ++ ['}']) ++ rest⟩ >>= _) = _
      rw [hgroup]
      rfl
  | @power _ group _ rest _ _ h _ _ ih ihrest =>
      refine written_edit (fun position out => ?_) ihrest
      refine ⟨position + 1 + group.length, ?_⟩
      obtain ⟨hdrop, -⟩ := h.cut hbrace rest
      change (if ((group ++ rest).dropWhile isBlank).head? = some '{' then _ else _) = _
      rw [hdrop, List.head?_cons, if_pos rfl]
      change (groupBy write '{' '}' ⟨position + 1, group ++ rest⟩ >>= _) = _
      rw [groupBy_enclosed h hbrace ih]
      rfl
  | @index _ content rest _ _ h _ _ ih ihrest =>
      refine written_edit (fun position out => ?_) ihrest
      have hgroup := groupBy_enclosed (enclosed_of_balanced h) hbrace ih (position + 1) rest
      rw [← cons_group_append]
      refine ⟨position + 1 + ('{' :: (content ++ ['}'])).length, ?_⟩
      change (groupBy write '{' '}' ⟨position + 1, '{' :: (content ++ ['}']) ++ rest⟩ >>= _) = _
      rw [hgroup]
      rfl
  | @fraction _ name group _ group' _ rest _ _ _ hname hcommand h _ h' _ _ ih ih' ihrest =>
      refine written_edit (fun position out => ?_) ihrest
      apply Exists.intro
      rw [writePiece_backslash]
      unfold writeCommand
      simp only [List.drop_one, List.tail_cons, hname, hcommand]
      rw [groupBy_enclosed h hbrace ih]
      change (groupBy write '{' '}' ⟨_, group' ++ rest⟩ >>= _) = _
      rw [groupBy_enclosed h' hbrace ih']
      rfl
  | @root _ name group index group' radicand rest _ _ _ hname hcommand h _ h' _ _ ih ih' ihrest =>
      refine written_edit (fun position out => ?_) ihrest
      obtain ⟨hdrop, -⟩ := h.cut hbracket (group' ++ rest)
      apply Exists.intro
      rw [writePiece_backslash]
      unfold writeCommand Cursor.skipBlanks
      simp only [List.drop_one, List.tail_cons, hname, hcommand, hdrop, List.head?_cons, if_true]
      rw [groupBy_enclosed h hbracket ih]
      change (groupBy write '{' '}' ⟨_, group' ++ rest⟩ >>= _) = _
      rw [groupBy_enclosed h' hbrace ih']
      rfl
  | @squareRoot _ name group _ rest _ _ hname hcommand h _ _ ih ihrest =>
      refine written_edit (fun position out => ?_) ihrest
      apply Exists.intro
      obtain ⟨hdrop, -⟩ := h.cut hbrace rest
      rw [writePiece_backslash]
      unfold writeCommand Cursor.skipBlanks
      simp only [List.drop_one, List.tail_cons, hname, hcommand, hdrop, List.head?_cons]
      rw [if_neg (by decide), groupBy_enclosed h hbrace ih]
      rfl
  | @text _ name group _ rest _ _ hname hcommand h _ _ ih ihrest =>
      refine written_edit (fun position out => ?_) ihrest
      apply Exists.intro
      rw [writePiece_backslash]
      unfold writeCommand
      simp only [List.drop_one, List.tail_cons, hname, hcommand]
      rw [groupBy_enclosed h hbrace ih]
      rfl
  | @function _ name rest f _ hname hcommand _ ih =>
      intro position out
      rw [write_cons, writePiece_backslash]
      unfold writeCommand
      simp only [List.drop_one, List.tail_cons, hname, hcommand]
      exact ih _ _ out
  | @namedFunction _ name group _ rest _ _ hname hcommand h _ _ ih ihrest =>
      intro position out
      rw [write_cons, writePiece_backslash]
      unfold writeCommand
      simp only [List.drop_one, List.tail_cons, hname, hcommand]
      rw [groupBy_enclosed h hbrace ih]
      exact ihrest _ _ out
  | @groupArgument _ group content rest es _ h _ _ ih ihrest =>
      refine written_argument (e := .append (inParens (Edit.text es)))
        (fun position name out => ?_) ihrest
      obtain @⟨blanks, _, hblanks, hbalanced⟩ := h
      have hhead : ∀ c ∈ ('{' :: (content ++ ['}']) ++ rest).head?, isBlank c = false := by
        simpa using hbrace
      have hskip := skipBlanks_append hblanks hhead position
      have hgroup := groupBy_enclosed (enclosed_of_balanced hbalanced) hbrace ih
        (position + blanks.length) rest
      refine ⟨position + blanks.length + ('{' :: (content ++ ['}'])).length, ?_⟩
      rw [List.append_assoc]
      rw [List.cons_append] at hskip hgroup ⊢
      rw [writeFunction_brace _ name out hskip, hgroup]
      rfl
  | @runArgument _ blanks c run rest _ hblanks hc hrun hrest _ ih =>
      refine written_argument (e := .append (inParens (c :: run)))
        (fun position name out => ?_) ih
      obtain ⟨hbrace', hbackslash, hblank⟩ := isAlphanumeric_ne hc
      have hhead : ∀ d ∈ (c :: run ++ rest).head?, isBlank d = false := by simpa using hblank
      have hskip := skipBlanks_append hblanks hhead position
      have hplain : ∀ d ∈ c :: run, isPlain d = true :=
        List.forall_mem_cons.mpr ⟨by rw [isPlain, hc]; rfl, hrun⟩
      obtain ⟨htake, hdrop⟩ := Token.takeWhile_append_of_head hplain hrest
      rw [List.cons_append] at htake hdrop hskip ⊢
      refine ⟨position + blanks.length + (c :: run).length, ?_⟩
      rw [writeFunction_char _ name out hbrace' hbackslash hskip, if_pos hc, htake, hdrop]
      rfl
  | @commandArgument _ blanks name rest argument _ hblanks hname hleft h _ ih =>
      refine written_argument (e := .append (inParens argument.toList))
        (fun position f out => ?_) ih
      have hhead : ∀ d ∈ ('\\' :: (name ++ rest)).head?, isBlank d = false := by
        simpa using (by decide : isBlank '\\' = false)
      have hskip := skipBlanks_append hblanks hhead position
      refine ⟨position + blanks.length + 1 + name.length, ?_⟩
      rw [writeFunction_backslash _ f out hskip, hleft, hname, h]
      rfl
  | noArgument h _ ih =>
      exact written_argument (fun position name out => ⟨_, writeFunction_noArgument _ name out h⟩) ih

end Reckoner.Latex
