import Reckoner.Proofs.Latex.Pieces

/-!
# Texts that are written

Where writing succeeds, the text consists of pieces, and the output is what their edits make. So
the edits say everything about a text that has a plain notation.
-/

namespace Reckoner.Latex

open Reckoner.Text

/-- The text starts with a group whose content runs and comes to the given text. -/
def StartsWithGroup (opening closing : Char) (cs written rest : List Char) : Prop :=
  ∃ group content es, cs = group ++ rest ∧ Enclosed opening closing group content ∧
    Runs [] .piece content es ∧ written = Edit.text es

/-- Groups of texts up to a length run. -/
def GroupsRun (n : Nat) : Prop :=
  ∀ {opening closing : Char} {cursor cursor' : Cursor} {written : List Char},
    cursor.rest.length ≤ n → groupBy write opening closing cursor = .ok (written, cursor') →
    StartsWithGroup opening closing cursor.rest written cursor'.rest

/-- Whatever the rest runs to, the text runs to some edits more, which make the output. -/
def Extends (place : Place) (cs rest : List Char) (out out' : Output) : Prop :=
  ∀ fs, Runs [] .piece rest fs → ∃ es, Runs [] place cs (es ++ fs) ∧ out' = Edit.applyAll out es

theorem GroupsRun.mono {n m : Nat} (h : GroupsRun n) (hm : m ≤ n) : GroupsRun m :=
  fun hcursor => h (Nat.le_trans hcursor hm)

theorem groupsRun_of_write {n : Nat} (h : ∀ cs position out', cs.length ≤ n →
    write ⟨position, cs⟩ {} = .ok out' → ∃ es, Runs [] .piece cs es ∧ out' = Edit.applyAll {} es) :
    GroupsRun (n + 1) := by
  intro opening closing cursor cursor' written hcursor hgroup
  unfold groupBy at hgroup
  obtain ⟨g, hread, hgroup⟩ := exists_of_bind_eq_ok hgroup
  obtain ⟨inner, hinner, hgroup⟩ := exists_of_bind_eq_ok hgroup
  cases hgroup
  obtain ⟨group, hrest, henclosed, -⟩ := enclosed_of_read hread
  have hcontent := (length_lt_of_read hread).1
  obtain ⟨es, hes, rfl⟩ := h g.content g.start inner (by omega) hinner
  exact ⟨group, g.content, es, hrest, henclosed, hes, rfl⟩

theorem extends_of_writeFunction {n : Nat} (hgroups : GroupsRun n) {name : List Char}
    {cursor cursor' : Cursor} {out out' : Output} (hcursor : cursor.rest.length ≤ n)
    (h : writeFunction (groupBy write) name cursor out = .ok (out', cursor')) :
    Extends .argument cursor.rest cursor'.rest (out.operand name) out' := by
  intro fs hfs
  have hblanks : ∀ b ∈ cursor.rest.takeWhile isBlank, isBlank b = true :=
    fun b hb => List.mem_takeWhile_imp hb
  have htext := List.takeWhile_append_dropWhile (p := isBlank) (l := cursor.rest)
  have hskip : cursor.skipBlanks = ⟨cursor.position + (cursor.rest.takeWhile isBlank).length,
    cursor.rest.dropWhile isBlank⟩ := rfl
  -- without an argument the function waits, and writing goes on at the same place
  have hwaits (hnone : NoArgument cursor.rest) :
      ∃ es, Runs [] .argument cursor.rest (es ++ fs) ∧ out' = Edit.applyAll (out.operand name) es := by
    obtain ⟨position, rest⟩ := cursor
    rw [writeFunction_noArgument _ name out hnone] at h
    cases h
    exact ⟨[.awaiting], .noArgument hnone hfs, rfl⟩
  generalize cursor.rest.takeWhile isBlank = blanks at *
  cases hdrop : cursor.rest.dropWhile isBlank with
  | nil =>
      apply hwaits
      unfold NoArgument
      rw [hdrop]
      trivial
  | cons c tail =>
      rw [hdrop] at hskip htext
      by_cases hbrace : c = '{'
      · subst hbrace
        rw [writeFunction_brace _ name out hskip] at h
        obtain ⟨⟨argument, cursor''⟩, hgroup, h⟩ := exists_of_bind_eq_ok h
        cases h
        have hlength := length_skipBlanks cursor
        rw [hskip] at hlength
        obtain ⟨group, content, es, hrest, henclosed, hes, rfl⟩ :=
          hgroups (Nat.le_trans hlength hcursor) hgroup
        refine ⟨[.append (inParens (Edit.text es))], ?_, rfl⟩
        dsimp only at hrest
        rw [← htext, hrest, ← List.append_assoc]
        exact .groupArgument (henclosed.behind hblanks) hes hfs
      by_cases hbackslash : c = '\\'
      · subst hbackslash
        rw [writeFunction_backslash _ name out hskip] at h
        split at h
        case isTrue hleft =>
            apply hwaits
            unfold NoArgument
            rw [hdrop]
            exact .inl hleft
        case isFalse hleft =>
            split at h
            case h_1 argument hargument =>
                cases h
                refine ⟨[.append (inParens argument.toList)], ?_, rfl⟩
                have hname := commandName_append tail
                rw [← htext]
                conv => arg 3; rw [← hname]
                refine .commandArgument hblanks ?_ ?_ hargument hfs
                · rw [hname]
                · rw [hname, Bool.eq_false_iff]
                  exact hleft
            case h_2 hargument =>
                apply hwaits
                unfold NoArgument
                rw [hdrop]
                exact .inr hargument
      · rw [writeFunction_char _ name out hbrace hbackslash hskip] at h
        split at h
        case isTrue hc =>
            cases h
            have hplain : isPlain c = true := by rw [isPlain, hc]; rfl
            have hrun : ∀ d ∈ tail.takeWhile isPlain, isPlain d = true :=
              fun d hd => List.mem_takeWhile_imp hd
            have hrest := head_dropWhile isPlain tail
            have htail := List.takeWhile_append_dropWhile (p := isPlain) (l := tail)
            rw [List.takeWhile_cons_of_pos hplain]
            rw [List.dropWhile_cons_of_pos hplain] at hfs
            refine ⟨[.append (inParens (c :: tail.takeWhile isPlain))], ?_, rfl⟩
            have hargument := Runs.runArgument hblanks hc hrun hrest hfs
            rwa [List.cons_append, htail, htext] at hargument
        case isFalse hc =>
            apply hwaits
            unfold NoArgument
            rw [hdrop]
            split
            case h_1 heq => cases heq
            case h_2 heq => cases heq; contradiction
            case h_3 heq => cases heq; contradiction
            case h_4 heq => cases heq; simpa using hc

theorem extends_of_writeCommand {n : Nat} (hgroups : GroupsRun n) {position : Nat}
    {tail : List Char} {cursor : Cursor} {out out' : Output} (hn : tail.length ≤ n)
    (h : writeCommand (groupBy write) ⟨position, '\\' :: tail⟩ out = .ok (out', cursor)) :
    Extends .piece ('\\' :: tail) cursor.rest out out' := by
  intro fs hfs
  have hname := commandName_append tail
  have hlength := length_commandName tail
  unfold writeCommand at h
  simp only [List.drop_one, List.tail_cons] at h
  rw [← hname]
  have hagain : commandName ((commandName tail).1 ++ (commandName tail).2) = commandName tail := by
    rw [hname]
  generalize commandName tail = read at *
  obtain ⟨name, rest⟩ := read
  dsimp only at hname hlength hagain h ⊢
  have hgroup : GroupsRun rest.length := hgroups.mono (Nat.le_trans hlength hn)
  have hsimple {es : List Edit} (hes : (Command.ofName (String.ofList name)).edits? = some es)
      (hrest : Runs [] .piece rest fs) : Runs [] .piece ('\\' :: (name ++ rest)) (es ++ fs) :=
    .piece (.command hagain hes) hrest
  split at h
  case h_1 hcommand =>
      cases h
      exact ⟨[], hsimple (by rw [hcommand]; rfl) hfs, rfl⟩
  case h_2 hcommand =>
      obtain ⟨⟨above, cursor'⟩, habove, h⟩ := exists_of_bind_eq_ok h
      obtain ⟨⟨below, cursor''⟩, hbelow, h⟩ := exists_of_bind_eq_ok h
      cases h
      obtain ⟨group, _, es, rfl, henclosed, hes, rfl⟩ := hgroup (Nat.le_refl _) habove
      obtain ⟨group', _, es', hrest', henclosed', hes', rfl⟩ := hgroup (by simp) hbelow
      rw [hrest'] at hagain ⊢
      exact ⟨[_], .fraction hagain hcommand henclosed hes henclosed' hes' hfs, rfl⟩
  case h_3 hcommand =>
      split at h
      · obtain ⟨⟨index, cursor'⟩, hindex, h⟩ := exists_of_bind_eq_ok h
        obtain ⟨⟨radicand, cursor''⟩, hradicand, h⟩ := exists_of_bind_eq_ok h
        cases h
        obtain ⟨group, _, es, rfl, henclosed, hes, rfl⟩ := hgroup (Nat.le_refl _) hindex
        obtain ⟨group', _, es', hrest', henclosed', hes', rfl⟩ := hgroup (by simp) hradicand
        rw [hrest'] at hagain ⊢
        exact ⟨[_], .root hagain hcommand henclosed hes henclosed' hes' hfs, rfl⟩
      · obtain ⟨⟨radicand, cursor'⟩, hradicand, h⟩ := exists_of_bind_eq_ok h
        cases h
        obtain ⟨group, _, es, rfl, henclosed, hes, rfl⟩ := hgroup (Nat.le_refl _) hradicand
        exact ⟨[_], .squareRoot hagain hcommand henclosed hes hfs, rfl⟩
  case h_4 left hcommand =>
      have hblanks : ∀ b ∈ rest.takeWhile isBlank, isBlank b = true :=
        fun b hb => List.mem_takeWhile_imp hb
      have htext := List.takeWhile_append_dropWhile (p := isBlank) (l := rest)
      dsimp only [Cursor.skipBlanks] at h
      split at h
      · cases h
      case h_2 piece behind hdelimiter =>
          obtain ⟨d, hd⟩ := delimiter?_append hdelimiter
          rw [hd] at hdelimiter htext
          rw [applyAll_delimiterEdits] at h
          cases h
          rw [← htext] at hagain ⊢
          have hdelimited := Runs.piece (.delimiter hagain hcommand hblanks hdelimiter) hfs
          exact ⟨delimiterEdits left piece, by simpa using hdelimited, rfl⟩
  case h_5 hcommand =>
      cases h
      exact ⟨_, hsimple (by rw [hcommand]; rfl) hfs, rfl⟩
  case h_6 hcommand =>
      cases h
      exact ⟨_, hsimple (by rw [hcommand]; rfl) hfs, rfl⟩
  case h_7 hcommand =>
      cases h
      exact ⟨_, hsimple (by rw [hcommand]; rfl) hfs, rfl⟩
  case h_8 hcommand =>
      obtain ⟨⟨f, cursor'⟩, hf, h⟩ := exists_of_bind_eq_ok h
      obtain ⟨group, _, es, rfl, henclosed, hes, rfl⟩ := hgroup (Nat.le_refl _) hf
      have hcursor' : cursor'.rest.length ≤ n := by
        rw [List.length_append] at hlength
        omega
      obtain ⟨es', hes', rfl⟩ := extends_of_writeFunction hgroups hcursor' h fs hfs
      exact ⟨_ :: es', .namedFunction hagain hcommand henclosed hes hes', rfl⟩
  case h_9 hcommand =>
      obtain ⟨⟨piece, cursor'⟩, hpiece, h⟩ := exists_of_bind_eq_ok h
      cases h
      obtain ⟨group, _, es, rfl, henclosed, hes, rfl⟩ := hgroup (Nat.le_refl _) hpiece
      exact ⟨[_], .text hagain hcommand henclosed hes hfs, rfl⟩
  case h_10 f hcommand =>
      have hrest : (Cursor.mk (position + 1 + name.length) rest).rest.length ≤ n :=
        Nat.le_trans hlength hn
      obtain ⟨es, hes, rfl⟩ := extends_of_writeFunction hgroups hrest h fs hfs
      exact ⟨_ :: es, .function hagain hcommand hes, rfl⟩
  case h_11 hcommand =>
      cases h
      exact ⟨_, hsimple (by rw [hcommand]; rfl) hfs, rfl⟩

/-- A group that starts without blanks. -/
theorem Enclosed.of_head {opening closing : Char} {group content tail rest : List Char}
    (h : Enclosed opening closing group content) (hopening : isBlank opening = false)
    (htext : opening :: tail = group ++ rest) :
    tail = content ++ closing :: rest ∧ Balanced opening closing content := by
  obtain ⟨hdrop, -⟩ := h.cut hopening rest
  rw [← htext, List.dropWhile_cons_of_neg (by simp [hopening])] at hdrop
  exact ⟨(List.cons.inj hdrop).2, h.balanced⟩

theorem extends_of_writePiece {c : Char} {tail : List Char} (hgroups : GroupsRun (tail.length + 1))
    {position : Nat} {cursor : Cursor} {out out' : Output}
    (h : writePiece (groupBy write) c ⟨position, c :: tail⟩ out = .ok (out', cursor)) :
    Extends .piece (c :: tail) cursor.rest out out' := by
  intro fs hfs
  have hbrace : isBlank '{' = false := by decide
  by_cases hspecial : c ∈ ['\\', '{', '}', '^', '_']
  · simp only [List.mem_cons, List.not_mem_nil, or_false] at hspecial
    rcases hspecial with rfl | rfl | rfl | rfl | rfl
    · exact extends_of_writeCommand (n := tail.length + 1) hgroups (by omega) h fs hfs
    · obtain ⟨⟨_, cursor'⟩, hgroup, h⟩ := exists_of_bind_eq_ok
        (x := groupBy write '{' '}' ⟨position, '{' :: tail⟩) h
      cases h
      obtain ⟨group, content, es, hrest, henclosed, hes, rfl⟩ := hgroups (Nat.le_refl _) hgroup
      obtain ⟨rfl, hbalanced⟩ := henclosed.of_head hbrace hrest
      exact ⟨[_], .group hbalanced hes hfs, rfl⟩
    · cases h
    · change (if (tail.dropWhile isBlank).head? = some '{' then
        groupBy write '{' '}' ⟨position + 1, tail⟩ >>= _ else _) = _ at h
      split at h
      case isTrue =>
          obtain ⟨⟨_, cursor'⟩, hgroup, h⟩ := exists_of_bind_eq_ok h
          cases h
          obtain ⟨group, content, es, rfl, henclosed, hes, rfl⟩ := hgroups (by simp) hgroup
          exact ⟨[_], .power henclosed hes hfs, rfl⟩
      case isFalse hnone =>
          cases h
          exact ⟨_, .piece (.raise hnone) hfs, rfl⟩
    · change (if tail.head? = some '{' then
        groupBy write '{' '}' ⟨position + 1, tail⟩ >>= _ else _) = _ at h
      split at h
      case isTrue hhead =>
          obtain ⟨⟨_, cursor'⟩, hgroup, h⟩ := exists_of_bind_eq_ok h
          cases h
          obtain ⟨group, content, es, hrest, henclosed, hes, rfl⟩ := hgroups (by simp) hgroup
          obtain ⟨tail, rfl⟩ := List.head?_eq_some_iff.mp hhead
          obtain ⟨rfl, hbalanced⟩ := henclosed.of_head hbrace hrest
          exact ⟨[_], .index hbalanced hes hfs, rfl⟩
      case isFalse hnone =>
          cases h
          exact ⟨_, .piece (.underscore hnone) hfs, rfl⟩
  · rw [writePiece_other hspecial] at h
    have hone {es : List Edit} (hemits : Emits [c] tail es) (htail : Runs [] .piece tail fs) :
        Runs [] .piece (c :: tail) (es ++ fs) := .piece hemits htail
    split at h
    case isTrue hblank =>
        cases h
        exact ⟨_, hone (.blank hblank) hfs, rfl⟩
    case isFalse hblank =>
        split at h
        case isTrue hplain =>
            cases h
            have hne : (c :: tail).takeWhile isPlain ≠ [] := by
              rw [List.takeWhile_cons_of_pos hplain]
              exact List.cons_ne_nil _ _
            have hruns := Runs.piece (.run hne (fun d hd => List.mem_takeWhile_imp hd)
              (head_dropWhile isPlain (c :: tail))) hfs
            rw [List.takeWhile_append_dropWhile] at hruns
            exact ⟨_, hruns, rfl⟩
        case isFalse hplain =>
            split at h
            case isTrue hopening =>
                cases h
                exact ⟨_, hone (.opening hopening) hfs, rfl⟩
            case isFalse hopening =>
                split at h
                case isTrue hclosing =>
                    cases h
                    exact ⟨_, hone (.closing hclosing) hfs, rfl⟩
                case isFalse hclosing =>
                    cases h
                    have hsign : IsSign c := by
                      refine ⟨?_, by simpa using hblank, by simpa using hplain⟩
                      simp_all
                    exact ⟨_, hone (.sign hsign) hfs, rfl⟩

/-- Where writing succeeds, the text runs to edits that make the output. -/
theorem runs_of_write {cs : List Char} {position : Nat} {out out' : Output}
    (h : write ⟨position, cs⟩ out = .ok out') :
    ∃ es, Runs [] .piece cs es ∧ out' = Edit.applyAll out es := by
  induction hn : cs.length using Nat.strongRecOn generalizing cs position out out' with
  | _ n ih =>
      subst hn
      cases cs with
      | nil =>
          cases h
          exact ⟨[], .finish, rfl⟩
      | cons c tail =>
          have hgroups : GroupsRun (tail.length + 1) := groupsRun_of_write
            fun cs position out' hcs h => ih cs.length (Nat.lt_succ_of_le hcs) h rfl
          rw [write_cons] at h
          obtain ⟨⟨out'', cursor⟩, hpiece, h⟩ := exists_of_bind_eq_ok h
          obtain ⟨fs, hfs, rfl⟩ :=
            ih cursor.rest.length (Nat.lt_succ_of_le (length_writePiece hpiece)) h rfl
          obtain ⟨es, hes, rfl⟩ := extends_of_writePiece hgroups hpiece fs hfs
          exact ⟨es ++ fs, hes, (Edit.applyAll_append ..).symm⟩

end Reckoner.Latex
