import Reckoner.Proofs.Failure
import Reckoner.Proofs.Latex.Rounds

/-!
# Where markup is refused

A refusal names a place in the whole text, however deep the group is that it is found in. For while
a text is written anew, what is behind the cursor is the source from its position on, up to the
delimiter that closes the group; so what is complained about stands in the source at that place.
-/

namespace Reckoner

variable {source : List Char}

/-- What stands in the source at the place where the cause is found. -/
def Cause.IsPlaced (source : List Char) (p : Nat) : Cause → Prop
  | .unbalancedBraces => ∃ c ∈ ['{', '[', '}'], source[p]? = some c
  | .expectedDelimiter opening => p ≤ source.length ∧ ∀ c ∈ source[p]?, c.toString ≠ opening
  | .unknownDelimiter command =>
    command ∈ ["left", "right"] ∧ '\\' :: command.toList <+: source.drop p
  | _ => False

/-- An error that is found at its place, and names no text as yet. -/
def Error.IsPlaced (source : List Char) (err : Error) : Prop :=
  ∃ (cause : Cause) (p : Nat), err = .located cause p ∧ cause.IsPlaced source p

theorem Cause.IsPlaced.code {cause : Cause} {p : Nat} (h : cause.IsPlaced source p) :
    cause.code? = some "3025" ∧ cause.kind = .grammatical := by
  cases cause
  case unbalancedBraces | expectedDelimiter | unknownDelimiter => exact ⟨rfl, rfl⟩
  all_goals exact h.elim

theorem Cause.IsPlaced.le {cause : Cause} {p : Nat} (h : cause.IsPlaced source p) :
    p ≤ source.length := by
  cases cause
  case unbalancedBraces =>
      obtain ⟨c, -, hc⟩ := h
      exact (List.getElem?_eq_some_iff.mp hc).1.le
  case expectedDelimiter => exact h.1
  case unknownDelimiter =>
      have hlength := h.2.length_le
      rw [List.length_cons, List.length_drop] at hlength
      omega
  all_goals exact h.elim

namespace Latex

variable {β γ : Type} {group : GroupReader} {cursor : Cursor} {position : Nat}
  {run content tail : List Char} {c opening closing : Char}

/-! ## Cursors in the source -/

/-- The text behind the cursor is the source from its position on, up to a closing delimiter or to
the end. -/
def Cursor.Reads (source : List Char) (cursor : Cursor) : Prop :=
  cursor.position ≤ source.length ∧ ∃ after,
    source.drop cursor.position = cursor.rest ++ after ∧ ∀ c ∈ after.head?, c ∈ ['}', ']']

theorem Cursor.Reads.behind (h : Reads source ⟨position, run ++ tail⟩) :
    Reads source ⟨position + run.length, tail⟩ := by
  obtain ⟨hle, after, hdrop, hafter⟩ := h
  dsimp only at hle hdrop
  refine ⟨?_, after, ?_, hafter⟩
  · have hlength := congrArg List.length hdrop
    simp only [List.length_drop, List.length_append] at hlength
    dsimp only
    omega
  · rw [← List.drop_drop, hdrop, List.append_assoc, List.drop_left]

theorem Cursor.Reads.next (h : Reads source ⟨position, c :: tail⟩) :
    Reads source ⟨position + 1, tail⟩ := by
  have hparts : Reads source ⟨position, [c] ++ tail⟩ := h
  exact hparts.behind

theorem Cursor.Reads.front (h : Reads source ⟨position, content ++ closing :: tail⟩)
    (hclosing : closing ∈ ['}', ']']) : Reads source ⟨position, content⟩ := by
  obtain ⟨hle, after, hdrop, -⟩ := h
  refine ⟨hle, closing :: tail ++ after, ?_, ?_⟩
  · rw [hdrop, List.append_assoc]
  · intro c hc
    cases hc
    exact hclosing

theorem Cursor.Reads.skipBlanks (h : cursor.Reads source) : cursor.skipBlanks.Reads source := by
  have hparts : Reads source ⟨cursor.position,
      cursor.rest.takeWhile Text.isBlank ++ cursor.rest.dropWhile Text.isBlank⟩ := by
    rwa [List.takeWhile_append_dropWhile]
  exact hparts.behind

theorem Cursor.Reads.skip (h : cursor.Reads source) (hrest : cursor.rest = run ++ tail) :
    (cursor.skip run.length).Reads source := by
  obtain ⟨position, rest⟩ := cursor
  obtain rfl : rest = run ++ tail := hrest
  rw [Cursor.skip, List.drop_left]
  exact h.behind

theorem Cursor.Reads.suffix (h : cursor.Reads source) (hrest : cursor.rest = run ++ tail) :
    Reads source ⟨cursor.position + (cursor.rest.length - tail.length), tail⟩ := by
  obtain ⟨position, rest⟩ := cursor
  obtain rfl : rest = run ++ tail := hrest
  rw [List.length_append, Nat.add_sub_cancel]
  exact h.behind

theorem Cursor.Reads.command (h : Reads source ⟨position, c :: tail⟩) :
    Reads source ⟨position + 1 + (commandName tail).1.length, (commandName tail).2⟩ := by
  have hparts : Reads source
      ⟨position, c :: (commandName tail).1 ++ (commandName tail).2⟩ := by
    rwa [List.cons_append, commandName_append]
  have hbehind := hparts.behind
  rwa [List.length_cons, Nat.add_comm _ 1, ← Nat.add_assoc] at hbehind

theorem Cursor.Reads.head (h : Reads source ⟨position, c :: tail⟩) :
    source[position]? = some c := by
  obtain ⟨-, after, hdrop, -⟩ := h
  rw [← List.head?_drop, hdrop]
  rfl

/-- Where the text behind the cursor ends, the source ends or a group is closed. -/
theorem Cursor.Reads.ends (h : Reads source ⟨position, []⟩) :
    ∀ c ∈ source[position]?, c ∈ ['}', ']'] := by
  obtain ⟨-, after, hdrop, hafter⟩ := h
  rwa [← List.head?_drop, hdrop]

/-- The cursor that an outcome leaves is in the source, or else its error is at its place. -/
def Keeps (source : List Char) : Except Error (β × Cursor) → Prop :=
  Meets (fun found => found.2.Reads source) (Error.IsPlaced source)

theorem keeps_pure (h : cursor.Reads source) (b : β) :
    Keeps source (pure (b, cursor) : Except Error (β × Cursor)) := h

theorem keeps_located {cause : Cause} (h : cause.IsPlaced source position) :
    Keeps source (.error (.located cause position) : Except Error (β × Cursor)) :=
  ⟨cause, position, rfl, h⟩

theorem Keeps.bind {a : Except Error (β × Cursor)} {f : β × Cursor → Except Error (γ × Cursor)}
    (h : Keeps source a) (hf : ∀ b cursor, cursor.Reads source → Keeps source (f (b, cursor))) :
    Keeps source (a >>= f) :=
  Meets.bind h fun found hfound => hf found.1 found.2 hfound

/-! ## Groups -/

/-- The delimiters that groups are read between. -/
def IsPair (opening closing : Char) : Prop :=
  opening ∈ ['{', '['] ∧ closing ∈ ['}', ']']

/-- Groups in the source are read in it. -/
def Confines (source : List Char) (group : GroupReader) : Prop :=
  ∀ {opening closing cursor}, IsPair opening closing → cursor.Reads source →
    Keeps source (group opening closing cursor)

theorem meets_read (hpair : IsPair opening closing) (h : cursor.Reads source) :
    Meets (fun g => Cursor.Reads source ⟨g.start, g.content⟩ ∧
        Cursor.Reads source ⟨g.stop, g.rest⟩) (Error.IsPlaced source)
      (Group.read opening closing cursor.position cursor.rest) := by
  obtain ⟨hopening, hclosing⟩ := hpair
  have hhere := h.skipBlanks
  unfold Cursor.skipBlanks at hhere
  unfold Group.read
  dsimp only
  generalize cursor.position + (cursor.rest.takeWhile Text.isBlank).length = here at *
  split
  case h_1 hrest =>
      rw [hrest] at hhere
      refine ⟨_, here, rfl, hhere.1, fun c hc heq => ?_⟩
      obtain rfl : c = opening := String.singleton_inj.mp heq
      have hnone : ['}', ']'].all (fun c => !(['{', '['].contains c)) = true := by decide
      simpa [hopening] using List.all_eq_true.mp hnone c (hhere.ends c hc)
  case h_2 c rest hrest =>
  rw [hrest] at hhere
  split
  case isTrue hne =>
      refine ⟨_, here, rfl, hhere.1, fun d hd heq => hne ?_⟩
      rw [hhere.head] at hd
      cases hd
      exact String.singleton_inj.mp heq
  case isFalse hopens =>
  obtain rfl : c = opening := not_not.mp hopens
  split
  case h_1 => exact ⟨_, here, rfl, c, List.mem_append_left ['}'] hopening, hhere.head⟩
  case h_2 content tail hbalanced =>
      obtain ⟨rfl, -⟩ := balanced_of_balanced hbalanced
      have hinside : Cursor.Reads source ⟨here + 1, content ++ closing :: tail⟩ := hhere.next
      refine ⟨hinside.front hclosing, ?_⟩
      have hbehind : Cursor.Reads source ⟨here, c :: (content ++ [closing]) ++ tail⟩ := by
        rwa [cons_group_append]
      have hstop : here + content.length + 2 = here + (c :: (content ++ [closing])).length := by
        simp only [List.length_cons, List.length_append, List.length_nil]
        omega
      dsimp only
      rw [hstop]
      exact hbehind.behind

/-! ## Pieces -/

theorem isPair_braces : IsPair '{' '}' := ⟨by decide, by decide⟩

theorem isPair_brackets : IsPair '[' ']' := ⟨by decide, by decide⟩

theorem keeps_writeFunction (h : Confines source group) (name : List Char)
    (hcursor : cursor.Reads source) (out : Output) :
    Keeps source (writeFunction group name cursor out) := by
  have hnext := hcursor.skipBlanks
  unfold writeFunction
  dsimp only
  split
  case h_1 => exact (h isPair_braces hnext).bind fun _ _ hleft => keeps_pure hleft _
  case h_2 rest hrest =>
      split
      case isTrue => exact keeps_pure hcursor _
      case isFalse =>
          split
          case h_2 => exact keeps_pure hcursor _
          case h_1 =>
              have hcommand : Cursor.Reads source ⟨cursor.skipBlanks.position, '\\' :: rest⟩ := by
                rwa [← hrest]
              exact keeps_pure hcommand.command _
  case h_3 c rest _ _ hrest =>
      split
      case isTrue => exact keeps_pure (hnext.skip List.takeWhile_append_dropWhile.symm) _
      case isFalse => exact keeps_pure hcursor _
  case h_4 => exact keeps_pure hcursor _

theorem mem_meanings {name : String} {command : Command}
    (h : meanings.lookup name = some command) : (name, command) ∈ meanings := by
  obtain ⟨before, after, heq, -⟩ := List.lookup_eq_some_iff.mp h
  rw [heq]
  simp

/-- The names of the commands that a delimiter follows. -/
theorem mem_of_delimiter {name : String} {side : Bool}
    (h : Command.ofName name = .delimiter side) : name ∈ ["left", "right"] := by
  unfold Command.ofName at h
  split at h
  case h_1 command hlookup =>
      have hall : meanings.all (fun entry => match entry.2 with
        | .delimiter _ => ["left", "right"].contains entry.1
        | _ => true) = true := by decide
      have hname := List.all_eq_true.mp hall _ (mem_meanings hlookup)
      rw [h] at hname
      simpa using hname
  case h_2 => split at h <;> cases h

theorem keeps_writeCommand (h : Confines source group)
    (hcursor : Cursor.Reads source ⟨position, '\\' :: tail⟩) (out : Output) :
    Keeps source (writeCommand group ⟨position, '\\' :: tail⟩ out) := by
  have hbehind := hcursor.command
  have hname := commandName_append tail
  unfold writeCommand
  simp only [List.drop_one, List.tail_cons]
  generalize commandName tail = read at *
  obtain ⟨name, rest⟩ := read
  dsimp only at hbehind hname ⊢
  split
  case h_1 | h_5 | h_6 | h_7 | h_11 => exact keeps_pure hbehind _
  case h_2 =>
      exact (h isPair_braces hbehind).bind fun _ _ hleft =>
        (h isPair_braces hleft).bind fun _ _ hleft => keeps_pure hleft _
  case h_3 =>
      split
      case isTrue =>
          exact (h isPair_brackets hbehind).bind fun _ _ hleft =>
            (h isPair_braces hleft).bind fun _ _ hleft => keeps_pure hleft _
      case isFalse => exact (h isPair_braces hbehind).bind fun _ _ hleft => keeps_pure hleft _
  case h_4 side hcommand =>
      split
      case h_1 =>
          obtain ⟨-, after, hdrop, -⟩ := hcursor
          refine keeps_located ⟨mem_of_delimiter hcommand, rest ++ after, ?_⟩
          rw [hdrop, ← hname, String.toList_ofList]
          simp
      case h_2 piece more hdelimiter =>
          obtain ⟨d, hd⟩ := delimiter?_append hdelimiter
          have hmore := hbehind.skipBlanks.suffix hd
          split
          case isTrue => exact keeps_pure hmore _
          case isFalse => split <;> exact keeps_pure hmore _
  case h_8 =>
      exact (h isPair_braces hbehind).bind fun _ _ hleft => keeps_writeFunction h _ hleft out
  case h_9 => exact (h isPair_braces hbehind).bind fun _ _ hleft => keeps_pure hleft _
  case h_10 => exact keeps_writeFunction h _ hbehind out

theorem keeps_writePiece (h : Confines source group)
    (hcursor : Cursor.Reads source ⟨position, c :: tail⟩) (out : Output) :
    Keeps source (writePiece group c ⟨position, c :: tail⟩ out) := by
  have hnext : Cursor.Reads source ((Cursor.mk position (c :: tail)).skip 1) := hcursor.next
  unfold writePiece
  dsimp only
  split
  case isTrue hc => exact keeps_writeCommand h (hc ▸ hcursor) out
  case isFalse =>
  split
  case isTrue => exact (h isPair_braces hcursor).bind fun _ _ hleft => keeps_pure hleft _
  case isFalse =>
  split
  case isTrue hc => exact keeps_located ⟨c, by rw [hc]; decide, hcursor.head⟩
  case isFalse =>
  split
  case isTrue =>
      split
      case isTrue => exact (h isPair_braces hnext).bind fun _ _ hleft => keeps_pure hleft _
      case isFalse => exact keeps_pure hnext _
  case isFalse =>
  split
  case isTrue =>
      split
      case isTrue => exact (h isPair_braces hnext).bind fun _ _ hleft => keeps_pure hleft _
      case isFalse => exact keeps_pure hnext _
  case isFalse =>
  split
  case isTrue => exact keeps_pure hnext _
  case isFalse =>
  split
  case isTrue => exact keeps_pure (hcursor.skip List.takeWhile_append_dropWhile.symm) _
  case isFalse => split <;> first | exact keeps_pure hnext _ | split <;> exact keeps_pure hnext _

/-! ## Texts -/

theorem isMarkup_eq_false {text : String}
    (h : ∀ c ∈ text.toList, c ≠ '\\' ∧ c ≠ '\x7b') : isMarkup text = false := by
  rw [isMarkup, List.any_eq_false]
  exact fun c hc => by simp [h c hc]

/-- By induction on the rounds, of which the groups take one less. -/
theorem failsOnly_writeFrom (rounds : Nat) (hcursor : cursor.Reads source) (out : Output) :
    FailsOnly (Error.IsPlaced source) (writeFrom rounds cursor out) := by
  induction rounds generalizing cursor out with
  | zero => exact failsOnly_ok out
  | succ rounds ih =>
      obtain ⟨position, rest⟩ := cursor
      cases rest with
      | nil => exact failsOnly_ok out
      | cons c tail =>
          rw [writeFrom_cons]
          have hgroup : Confines source (groupBy (writeFrom rounds)) := fun hpair hgroup =>
            (meets_read hpair hgroup).bind fun _ hread =>
              (ih hread.1 _).meets_true.bind fun _ _ => hread.2
          have hpiece : Keeps source _ := keeps_writePiece hgroup hcursor out
          exact (Meets.bind hpiece fun _ hleft => (ih hleft _).meets_true).failsOnly

theorem failsOnly_toPlain_isPlaced (text : String) :
    FailsOnly (Error.IsPlaced text.toList) (toPlain text) := by
  have hstart : Cursor.Reads text.toList ⟨0, text.toList⟩ :=
    ⟨Nat.zero_le _, [], (List.append_nil _).symm, by simp⟩
  exact (failsOnly_writeFrom _ hstart _).bind fun _ _ => failsOnly_pure _

theorem failsOnly_plainOf_isPlaced (text : String) :
    FailsOnly (Error.IsPlaced text.toList) (plainOf text) := by
  unfold plainOf
  split
  case isTrue => exact failsOnly_toPlain_isPlaced text
  case isFalse => exact failsOnly_ok text

end Latex

end Reckoner
