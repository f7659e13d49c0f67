import Reckoner.Latex.Plain
import Reckoner.Proofs.Latex.Group
import Reckoner.Proofs.Outcome

/-!
# Writing without rounds

Every piece takes at least a character from the text, and a group is longer than its content. So
the rounds that the length of a text allows are never used up, and writing can be described
without them: `write` goes on piece by piece, and reads groups with itself.
-/

namespace Reckoner.Latex

open Reckoner.Text

/-! ## Outcomes that leave less text -/

section Same

variable {β γ : Type} {n m : Nat}

/-- Two outcomes are the same, and leave at most so many characters to read. -/
def Same (n : Nat) (a b : Except Error (β × Cursor)) : Prop :=
  a = b ∧ ∀ v cursor, a = .ok (v, cursor) → cursor.rest.length ≤ n

theorem Same.error (n : Nat) (e : Error) : Same n (.error e : Except Error (β × Cursor)) (.error e) :=
  ⟨rfl, fun _ _ h => by cases h⟩

theorem Same.pure {cursor : Cursor} (h : cursor.rest.length ≤ n) (v : β) :
    Same n (pure (v, cursor)) (pure (v, cursor)) :=
  ⟨rfl, fun _ _ heq => by cases heq; exact h⟩

theorem Same.bind {a b : Except Error (β × Cursor)}
    {f g : β × Cursor → Except Error (γ × Cursor)} (h : Same n a b)
    (hf : ∀ v cursor, cursor.rest.length ≤ n → Same m (f (v, cursor)) (g (v, cursor))) :
    Same m (a >>= f) (b >>= g) := by
  obtain ⟨rfl, hleft⟩ := h
  cases a with
  | error e => exact .error m e
  | ok found => exact hf found.1 found.2 (hleft _ _ rfl)

theorem Same.mono {a b : Except Error (β × Cursor)} (h : Same n a b) (hn : n ≤ m) : Same m a b :=
  ⟨h.1, fun v cursor heq => Nat.le_trans (h.2 v cursor heq) hn⟩

end Same

/-- Two readers read the same groups of texts up to a length, and take at least a character. -/
def Alike (n : Nat) (group other : GroupReader) : Prop :=
  ∀ opening closing cursor, cursor.rest.length ≤ n →
    Same (cursor.rest.length - 1) (group opening closing cursor) (other opening closing cursor)

theorem Alike.same {n m : Nat} {group other : GroupReader} (h : Alike n group other)
    (opening closing : Char) {cursor : Cursor} (hcursor : cursor.rest.length ≤ n)
    (hm : cursor.rest.length ≤ m) :
    Same m (group opening closing cursor) (other opening closing cursor) :=
  (h opening closing cursor hcursor).mono (by omega)

theorem length_skipBlanks (cursor : Cursor) :
    cursor.skipBlanks.rest.length ≤ cursor.rest.length :=
  (List.dropWhile_suffix isBlank).length_le

theorem commandName_append (cs : List Char) : (commandName cs).1 ++ (commandName cs).2 = cs := by
  unfold commandName
  split
  · rfl
  · split
    · exact List.takeWhile_append_dropWhile
    · rfl

theorem length_commandName (cs : List Char) : (commandName cs).2.length ≤ cs.length := by
  have h := congrArg List.length (commandName_append cs)
  rw [List.length_append] at h
  omega

section Readers

variable {n : Nat} {group other : GroupReader}

theorem same_writeFunction (h : Alike n group other) (name : List Char) (cursor : Cursor)
    (hcursor : cursor.rest.length ≤ n) (out : Output) :
    Same cursor.rest.length (writeFunction group name cursor out)
      (writeFunction other name cursor out) := by
  have hblanks := length_skipBlanks cursor
  unfold writeFunction
  dsimp only
  split
  case h_1 tail hrest =>
      exact (h.same '{' '}' (Nat.le_trans hblanks hcursor) hblanks).bind
        fun argument cursor hleft => .pure hleft _
  case h_2 tail hrest =>
      have htail : tail.length < cursor.rest.length := by
        rw [hrest, List.length_cons] at hblanks
        omega
      have hcommand := length_commandName tail
      split
      · exact .pure (Nat.le_refl _) _
      · split
        · refine .pure ?_ _
          exact Nat.le_trans hcommand (Nat.le_of_lt htail)
        · exact .pure (Nat.le_refl _) _
  case h_3 c tail _ _ hrest =>
      split
      · refine .pure ?_ _
        unfold Cursor.skip
        rw [List.length_drop]
        omega
      · exact .pure (Nat.le_refl _) _
  case h_4 => exact .pure (Nat.le_refl _) _

theorem delimiter?_append {left : Bool} {cs tail : List Char} {piece : String}
    (h : delimiter? left cs = some (piece, tail)) : ∃ d, cs = d ++ tail := by
  unfold delimiter? at h
  split at h
  case h_1 => cases left <;> cases h; exact ⟨['\\', '{'], rfl⟩
  case h_2 => cases left <;> cases h; exact ⟨['\\', '}'], rfl⟩
  case h_3 | h_4 => cases left <;> cases h; exact ⟨[_], rfl⟩
  case h_5 | h_6 => cases left <;> cases h; exact ⟨[_], rfl⟩
  case h_7 | h_8 => cases h; exact ⟨[_], rfl⟩
  case h_9 => cases h

theorem same_writeCommand (h : Alike n group other) (start : Cursor)
    (hstart : start.rest.length ≤ n) (out : Output) :
    Same (start.rest.length - 1) (writeCommand group start out)
      (writeCommand other start out) := by
  have hname := length_commandName (start.rest.drop 1)
  rw [List.length_drop] at hname
  unfold writeCommand
  dsimp only
  generalize commandName (start.rest.drop 1) = read at *
  obtain ⟨name, tail⟩ := read
  dsimp only at hname ⊢
  have hgroup (opening closing : Char) {cursor : Cursor}
      (hcursor : cursor.rest.length ≤ start.rest.length - 1) :
      Same (start.rest.length - 1) (group opening closing cursor)
        (other opening closing cursor) :=
    h.same opening closing (Nat.le_trans hcursor (by omega)) hcursor
  split
  case h_1 => exact .pure hname _
  case h_2 =>
      exact (hgroup '{' '}' hname).bind fun numerator cursor hleft =>
        (hgroup '{' '}' hleft).bind fun denominator cursor hleft => .pure hleft _
  case h_3 =>
      split
      · exact (hgroup '[' ']' hname).bind fun index cursor hleft =>
          (hgroup '{' '}' hleft).bind fun radicand cursor hleft => .pure hleft _
      · exact (hgroup '{' '}' hname).bind fun radicand cursor hleft => .pure hleft _
  case h_4 left _ =>
      split
      · exact .error _ _
      case h_2 piece rest hdelimiter =>
          obtain ⟨d, hd⟩ := delimiter?_append hdelimiter
          have hblanks := length_skipBlanks ⟨start.position + 1 + name.length, tail⟩
          rw [hd, List.length_append] at hblanks
          have hrest : rest.length ≤ start.rest.length - 1 := by
            dsimp only at hblanks
            omega
          split
          · exact .pure hrest _
          · split
            · exact .pure hrest _
            · exact .pure hrest _
  case h_5 | h_6 | h_7 => exact .pure hname _
  case h_8 =>
      refine (hgroup '{' '}' hname).bind fun name cursor hleft => ?_
      exact (same_writeFunction h _ cursor (Nat.le_trans hleft (by omega)) out).mono hleft
  case h_9 =>
      exact (hgroup '{' '}' hname).bind fun piece cursor hleft => .pure hleft _
  case h_10 =>
      exact (same_writeFunction h _ ⟨_, tail⟩ (Nat.le_trans hname (by omega)) out).mono
        hname
  case h_11 => exact .pure hname _

theorem same_writePiece (h : Alike n group other) {c : Char} {tail : List Char}
    (hn : tail.length + 1 ≤ n) (position : Nat) (out : Output) :
    Same tail.length (writePiece group c ⟨position, c :: tail⟩ out)
      (writePiece other c ⟨position, c :: tail⟩ out) := by
  have hnext : (Cursor.mk position (c :: tail)).skip 1 = ⟨position + 1, tail⟩ := rfl
  have hgroup {cursor : Cursor} (hcursor : cursor.rest.length ≤ tail.length) :
      Same tail.length (group '{' '}' cursor) (other '{' '}' cursor) :=
    h.same '{' '}' (Nat.le_trans hcursor (by omega)) hcursor
  have htail : (⟨position + 1, tail⟩ : Cursor).rest.length ≤ tail.length := Nat.le_refl _
  unfold writePiece
  dsimp only
  rw [hnext]
  split
  · exact same_writeCommand h ⟨position, c :: tail⟩ hn out
  split
  · exact ((h '{' '}' ⟨position, c :: tail⟩ hn).mono (Nat.le_refl _)).bind
      fun content cursor hleft => .pure hleft _
  split
  · exact .error _ _
  split
  · split
    · exact (hgroup htail).bind fun exponent cursor hleft => .pure hleft _
    · exact .pure htail _
  split
  · split
    · exact (hgroup htail).bind fun index cursor hleft => .pure hleft _
    · exact .pure htail _
  split
  · exact .pure htail _
  split
  case isTrue hplain =>
      refine .pure ?_ _
      have hrun : (c :: tail).takeWhile isPlain = c :: tail.takeWhile isPlain :=
        List.takeWhile_cons_of_pos hplain
      rw [hrun]
      unfold Cursor.skip
      simp
  split
  · exact .pure htail _
  split
  · exact .pure htail _
  · exact .pure htail _

end Readers

/-! ## Writing -/

/-- Reads a group and writes its content in the given way. -/
def groupBy (write : Cursor → Output → Except Error Output) : GroupReader :=
  fun opening closing cursor => do
    let g ← Group.read opening closing cursor.position cursor.rest
    let inner ← write ⟨g.start, g.content⟩ {}
    return (inner.text, ⟨g.stop, g.rest⟩)

theorem alike_groupBy {n : Nat} {write write' : Cursor → Output → Except Error Output}
    (h : ∀ cursor out, cursor.rest.length ≤ n → write cursor out = write' cursor out) :
    Alike (n + 1) (groupBy write) (groupBy write') := by
  intro opening closing cursor hcursor
  unfold groupBy
  cases hread : Group.read opening closing cursor.position cursor.rest with
  | error e => exact .error _ e
  | ok g =>
      obtain ⟨hcontent, hrest⟩ := length_lt_of_read hread
      change Same _ (write ⟨g.start, g.content⟩ {} >>= _) (write' ⟨g.start, g.content⟩ {} >>= _)
      rw [h ⟨g.start, g.content⟩ {} (by dsimp only; omega)]
      cases write' ⟨g.start, g.content⟩ {} with
      | error e => exact .error _ e
      | ok inner => exact .pure (by dsimp only; omega) _

theorem writeFrom_cons (rounds position : Nat) (c : Char) (tail : List Char) (out : Output) :
    writeFrom (rounds + 1) ⟨position, c :: tail⟩ out =
      writePiece (groupBy (writeFrom rounds)) c ⟨position, c :: tail⟩ out >>= fun found =>
        writeFrom rounds found.2 found.1 := by
  rw [writeFrom]
  rfl

/-- Rounds beyond the length of the text make no difference. -/
theorem writeFrom_eq {rounds rounds' : Nat} (cursor : Cursor) (out : Output)
    (h : cursor.rest.length ≤ rounds) (h' : cursor.rest.length ≤ rounds') :
    writeFrom rounds cursor out = writeFrom rounds' cursor out := by
  -- a round leaves a shorter text, and the contents of its groups are shorter too
  induction rounds generalizing rounds' cursor out with
  | zero =>
      obtain ⟨position, rest⟩ := cursor
      obtain rfl : rest = [] := List.length_eq_zero_iff.mp (Nat.le_zero.mp h)
      cases rounds' <;> rfl
  | succ rounds ih =>
      obtain ⟨position, rest⟩ := cursor
      cases rest with
      | nil => cases rounds' <;> rfl
      | cons c tail =>
          obtain ⟨rounds', rfl⟩ : ∃ n, rounds' = n + 1 := ⟨rounds' - 1, by simp at h'; omega⟩
          simp only [List.length_cons, Nat.succ_le_succ_iff] at h h'
          have halike := alike_groupBy (n := tail.length) fun cursor out hcursor =>
            ih cursor out (Nat.le_trans hcursor h) (Nat.le_trans hcursor h')
          obtain ⟨heq, hleft⟩ := same_writePiece halike (Nat.le_refl _) position out
          rw [writeFrom_cons, writeFrom_cons, ← heq]
          cases hpiece : writePiece (groupBy (writeFrom rounds)) c ⟨position, c :: tail⟩ out with
          | error e => rfl
          | ok found =>
              have hshort := hleft found.1 found.2 hpiece
              exact ih found.2 found.1 (Nat.le_trans hshort h) (Nat.le_trans hshort h')

/-- Writes a text from a position on, in as many rounds as it takes. -/
def write (cursor : Cursor) (out : Output) : Except Error Output :=
  writeFrom cursor.rest.length cursor out

theorem toPlain_eq_write (text : String) :
    toPlain text = write ⟨0, text.toList⟩ {} >>= fun out => .ok (String.ofList out.text) := by
  unfold toPlain write
  rw [String.length_toList]
  rfl

theorem write_nil (position : Nat) (out : Output) : write ⟨position, []⟩ out = .ok out := rfl

theorem write_cons (position : Nat) (c : Char) (tail : List Char) (out : Output) :
    write ⟨position, c :: tail⟩ out =
      writePiece (groupBy write) c ⟨position, c :: tail⟩ out >>= fun found =>
        write found.2 found.1 := by
  have halike : Alike (tail.length + 1) (groupBy (writeFrom tail.length)) (groupBy write) :=
    alike_groupBy fun cursor out hcursor => writeFrom_eq cursor out hcursor (Nat.le_refl _)
  obtain ⟨heq, hleft⟩ := same_writePiece halike (Nat.le_refl _) position out
  change writeFrom (tail.length + 1) ⟨position, c :: tail⟩ out = _
  rw [writeFrom_cons, ← heq]
  cases hpiece : writePiece (groupBy (writeFrom tail.length)) c ⟨position, c :: tail⟩ out with
  | error e => rfl
  | ok found =>
      exact writeFrom_eq found.2 found.1 (hleft found.1 found.2 hpiece) (Nat.le_refl _)

/-- The text behind a piece is shorter. -/
theorem length_writePiece {position : Nat} {c : Char} {tail : List Char} {out out' : Output}
    {cursor : Cursor}
    (h : writePiece (groupBy write) c ⟨position, c :: tail⟩ out = .ok (out', cursor)) :
    cursor.rest.length ≤ tail.length :=
  (same_writePiece (alike_groupBy (n := tail.length) fun _ _ _ => rfl) (Nat.le_refl _) position
    out).2 out' cursor h

end Reckoner.Latex
