import Reckoner.Proofs.Outcome
import Reckoner.Proofs.Token.Lexeme

/-!
# Scanning

A text is cut into blanks and into runs that stand for lexemes. What matters for the lexemes is
the text alone, neither the position where it starts nor the rounds. So the lexemes of a text
can be put together from those of its pieces, provided that a piece ends where no name and no
number goes on.
-/

namespace Reckoner.Token

open Reckoner.Text

/-- The text is read as the lexemes, wherever it starts. -/
def Scans (cs : List Char) (ls : List Lexeme) : Prop :=
  ∀ position, ∃ tokens, scan position cs = .ok tokens ∧ tokens.map Token.lexeme = ls

/-! ## Rounds -/

theorem scanWith_eq (spell : Spelling) {rounds rounds' : Nat} (cs : List Char) (position : Int)
    (h : cs.length ≤ rounds) (h' : cs.length ≤ rounds') :
    scanWith spell rounds position cs = scanWith spell rounds' position cs := by
  -- a round leaves a shorter text, for which both numbers of rounds suffice again
  induction rounds generalizing rounds' cs position with
  | zero =>
      rw [List.length_eq_zero_iff.mp (Nat.le_zero.mp h)]
      cases rounds' <;> rfl
  | succ rounds ih =>
      cases cs with
      | nil => cases rounds' <;> rfl
      | cons c rest =>
          obtain ⟨rounds', rfl⟩ : ∃ n, rounds' = n + 1 := ⟨rounds' - 1, by simp at h'; omega⟩
          rw [List.length_cons, Nat.succ_le_succ_iff] at h h'
          have hdrop (p : Int) (n : Nat) : scanWith spell rounds p (rest.drop n) =
              scanWith spell rounds' p (rest.drop n) := by
            have hle : (rest.drop n).length ≤ rest.length := by simp
            exact ih _ p (Nat.le_trans hle h) (Nat.le_trans hle h')
          rw [scanWith, scanWith, ih rest _ h h']
          simp only [hdrop]

theorem scan_nil (position : Int) : scan position [] = .ok [{ lexeme := .finish, position }] := rfl

theorem scan_blank {c : Char} (h : isBlank c = true) (rest : List Char) (position : Int) :
    scan position (c :: rest) = scan (position + 1) rest := by
  unfold scan
  rw [List.length_cons, scanWith, if_pos h]

theorem scan_front {c : Char} {rest : List Char} {l : Lexeme} {n : Nat}
    (hblank : isBlank c = false) (h : reading c rest = .ok (l, n)) (position : Int) :
    scan position (c :: rest) =
      scan (position + n) (rest.drop (n - 1)) >>= fun tokens =>
        .ok ({ lexeme := l, position } :: tokens) := by
  unfold scan
  have hlength : (rest.drop (n - 1)).length ≤ rest.length := by simp
  rw [List.length_cons, scanWith, hblank]
  simp only [Bool.false_eq_true, if_false, h]
  rw [scanWith_eq _ _ _ hlength (Nat.le_refl _)]
  rfl

theorem scan_fault {c : Char} {rest : List Char} {cause : Cause}
    (hblank : isBlank c = false) (h : reading c rest = .error cause) (position : Int) :
    scan position (c :: rest) = .error (.located cause position) := by
  unfold scan
  rw [List.length_cons, scanWith, hblank]
  simp only [Bool.false_eq_true, if_false, h]

/-- A text that starts with no blank is scanned by its first lexeme and behind it. -/
theorem exists_of_scan_front {c : Char} {rest : List Char} {position : Int} {tokens : List Token}
    (hblank : isBlank c = false) (h : scan position (c :: rest) = .ok tokens) :
    ∃ l n others, reading c rest = .ok (l, n) ∧
      scan (position + (n : Nat)) (rest.drop (n - 1)) = .ok others ∧
        tokens = { lexeme := l, position } :: others := by
  cases hfront : reading c rest with
  | error cause => rw [scan_fault hblank hfront] at h; cases h
  | ok found =>
      obtain ⟨l, n⟩ := found
      rw [scan_front hblank hfront] at h
      obtain ⟨others, hothers, heq⟩ := exists_of_bind_eq_ok h
      cases heq
      exact ⟨l, n, others, rfl, hothers, rfl⟩

/-! ## Lexemes of a text -/

theorem scans_nil : Scans [] [.finish] := fun position => ⟨_, scan_nil position, rfl⟩

theorem Scans.blank {c : Char} {rest : List Char} {ls : List Lexeme} (hblank : isBlank c = true)
    (h : Scans rest ls) : Scans (c :: rest) ls := by
  intro position
  rw [scan_blank hblank]
  exact h (position + 1)

theorem Scans.front {c : Char} {rest : List Char} {l : Lexeme} {n : Nat} {ls : List Lexeme}
    (hblank : isBlank c = false) (hfront : reading c rest = .ok (l, n))
    (h : Scans (rest.drop (n - 1)) ls) : Scans (c :: rest) (l :: ls) := by
  intro position
  obtain ⟨tokens, htokens, rfl⟩ := h (position + n)
  rw [scan_front hblank hfront, htokens]
  exact ⟨_, rfl, rfl⟩

/-- Where a text starts makes no difference to its lexemes. -/
theorem scans_of_scan {cs : List Char} {position : Int} {tokens : List Token}
    (h : scan position cs = .ok tokens) : Scans cs (tokens.map Token.lexeme) := by
  induction hn : cs.length using Nat.strongRecOn generalizing cs position tokens with
  | _ n ih =>
      subst hn
      cases cs with
      | nil =>
          cases h
          exact scans_nil
      | cons c rest =>
          by_cases hblank : isBlank c = true
          · rw [scan_blank hblank] at h
            exact (ih rest.length (Nat.lt_succ_self _) h rfl).blank hblank
          · rw [Bool.not_eq_true] at hblank
            obtain ⟨l, n, others, hfront, hothers, rfl⟩ := exists_of_scan_front hblank h
            have hlt : (rest.drop (n - 1)).length < (c :: rest).length := by
              simp only [List.length_drop, List.length_cons]
              omega
            exact (ih _ hlt hothers rfl).front hblank hfront

theorem Scans.cons_inv {c : Char} {rest : List Char} {ls : List Lexeme} (h : Scans (c :: rest) ls)
    (hblank : isBlank c = false) : ∃ l n ls', reading c rest = .ok (l, n) ∧ ls = l :: ls' ∧
      Scans (rest.drop (n - 1)) ls' := by
  obtain ⟨tokens, htokens, rfl⟩ := h 0
  obtain ⟨l, n, others, hfront, hothers, rfl⟩ := exists_of_scan_front hblank htokens
  exact ⟨l, n, _, hfront, rfl, scans_of_scan hothers⟩

theorem Scans.blank_inv {c : Char} {rest : List Char} {ls : List Lexeme} (h : Scans (c :: rest) ls)
    (hblank : isBlank c = true) : Scans rest ls := by
  intro position
  have := h (position - 1)
  rwa [scan_blank hblank, Int.sub_add_cancel] at this

/-! ## Cutting a text -/

/-- The text consists of blanks and of runs that stand for the lexemes. -/
inductive Cut : List Char → List Lexeme → Prop
  | finish : Cut [] [.finish]
  | blank {c : Char} {rest : List Char} {ls : List Lexeme} (hblank : isBlank c = true)
      (hrest : Cut rest ls) : Cut (c :: rest) ls
  | lexeme {run rest : List Char} {l : Lexeme} {ls : List Lexeme} (hrun : Spells run l)
      (hrest : Cut rest ls) : Cut (run ++ rest) (l :: ls)

theorem Scans.cut {cs : List Char} {ls : List Lexeme} (h : Scans cs ls) : Cut cs ls := by
  induction hn : cs.length using Nat.strongRecOn generalizing cs ls with
  | _ n ih =>
      subst hn
      cases cs with
      | nil =>
          obtain ⟨tokens, htokens, rfl⟩ := h 0
          cases htokens
          exact .finish
      | cons c rest =>
          by_cases hblank : isBlank c = true
          · exact .blank hblank (ih rest.length (Nat.lt_succ_self _) (h.blank_inv hblank) rfl)
          · rw [Bool.not_eq_true] at hblank
            obtain ⟨l, n, ls', hfront, rfl, hrest⟩ := h.cons_inv hblank
            obtain ⟨run, tail, htext, rfl, hrun⟩ := spells_of_reading hfront
            obtain ⟨d, run, rfl⟩ := List.exists_cons_of_ne_nil hrun.ne_nil
            rw [List.cons_append] at htext
            cases htext
            rw [List.length_cons, Nat.add_sub_cancel, List.drop_left] at hrest
            refine .lexeme hrun (ih tail.length ?_ hrest rfl)
            rw [List.length_cons, List.length_append]
            omega

/-- The lexemes of a text are proper ones and the finish behind them. -/
theorem Cut.isProper {cs : List Char} {ls : List Lexeme} (h : Cut cs ls) :
    ∃ read, ls = read ++ [.finish] ∧ ∀ l ∈ read, IsProper l := by
  induction h with
  | finish => exact ⟨[], rfl, by simp⟩
  | blank _ _ ih => exact ih
  | lexeme hrun _ ih =>
      obtain ⟨read, rfl, hread⟩ := ih
      exact ⟨_ :: read, rfl, List.forall_mem_cons.mpr ⟨hrun.isProper, hread⟩⟩

/-- Only plain notation has lexemes. -/
theorem Cut.not_isMarkup {cs : List Char} {ls : List Lexeme} (h : Cut cs ls) :
    ∀ c ∈ cs, ¬ IsMarkup c := by
  induction h with
  | finish => simp
  | blank hblank _ ih =>
      refine List.forall_mem_cons.mpr ⟨?_, ih⟩
      rintro (rfl | rfl)
      all_goals
        revert hblank
        decide
  | lexeme hrun _ ih =>
      intro c hc
      rcases List.mem_append.mp hc with hc | hc
      · exact hrun.not_isMarkup hc
      · exact ih c hc

theorem Cut.blanks {cs : List Char} (h : Cut cs [.finish]) : ∀ c ∈ cs, isBlank c = true := by
  generalize hls : [Lexeme.finish] = ls at h
  induction h with
  | finish => simp
  | blank hblank _ ih => exact List.forall_mem_cons.mpr ⟨hblank, ih hls⟩
  | lexeme hrun _ _ =>
      cases hls
      exact hrun.isProper.elim

/-- A text with one lexeme is the run that stands for it, perhaps with blanks around. -/
theorem Cut.single {cs : List Char} {l : Lexeme} (h : Cut cs [l, .finish]) :
    ∃ before run after, cs = before ++ (run ++ after) ∧ Spells run l ∧
      (∀ c ∈ before, isBlank c = true) ∧ ∀ c ∈ after, isBlank c = true := by
  generalize hls : [l, .finish] = ls at h
  induction h with
  | finish => cases hls
  | blank hblank _ ih =>
      obtain ⟨before, run, after, rfl, hrun, hbefore, hafter⟩ := ih hls
      exact ⟨_ :: before, run, after, rfl, hrun, List.forall_mem_cons.mpr ⟨hblank, hbefore⟩, hafter⟩
  | @lexeme run rest _ _ hrun hrest _ =>
      cases hls
      exact ⟨[], run, rest, rfl, hrun, by simp, hrest.blanks⟩

/-! ## Pieces of a text -/

/-- The piece is read as the lexemes, wherever a name and a number end behind it. -/
def Lexes (cs : List Char) (ls : List Lexeme) : Prop :=
  ∀ rest ls', Boundary rest → Scans rest ls' → Scans (cs ++ rest) (ls ++ ls')

theorem Lexes.scans {cs : List Char} {ls : List Lexeme} (h : Lexes cs ls) :
    Scans cs (ls ++ [.finish]) := by
  have hend := h [] [.finish] (by simp [Boundary]) scans_nil
  rwa [List.append_nil] at hend

theorem lexes_nil : Lexes [] [] := fun _ _ _ h => h

theorem Lexes.blank {c : Char} {cs : List Char} {ls : List Lexeme} (hblank : isBlank c = true)
    (h : Lexes cs ls) : Lexes (c :: cs) ls :=
  fun rest ls' hrest hscans => (h rest ls' hrest hscans).blank hblank

/-- A lexeme of a single character. -/
theorem Lexes.sign {c : Char} {cs : List Char} {l : Lexeme} {ls : List Lexeme}
    (hblank : isBlank c = false) (hfront : ∀ rest, reading c rest = .ok (l, 1))
    (h : Lexes cs ls) : Lexes (c :: cs) (l :: ls) :=
  fun rest ls' hrest hscans => (h rest ls' hrest hscans).front (n := 1) hblank (hfront _)

theorem Lexes.append {as bs : List Char} {ls ks : List Lexeme} (ha : Lexes as ls)
    (hb : Lexes bs ks) (hends : ∀ rest, Boundary rest → Boundary (bs ++ rest)) :
    Lexes (as ++ bs) (ls ++ ks) := by
  intro rest ls' hrest hscans
  rw [List.append_assoc, List.append_assoc]
  exact ha _ _ (hends rest hrest) (hb rest ls' hrest hscans)

theorem boundary_cons {c : Char} (hname : isNameChar c = false) (hpoint : c ≠ '.')
    (rest : List Char) : Boundary (c :: rest) := by
  intro d hd
  cases hd
  exact ⟨hname, hpoint⟩

theorem boundary_blank {c : Char} (hblank : isBlank c = true) (rest : List Char) :
    Boundary (c :: rest) := by
  apply boundary_cons (isNameChar_of_isBlank hblank)
  rintro rfl
  revert hblank
  decide

theorem Spells.lexes {cs : List Char} {l : Lexeme} (h : Spells cs l) : Lexes cs [l] := by
  intro rest ls' hrest hscans
  obtain ⟨c, cs, rfl⟩ := List.exists_cons_of_ne_nil h.ne_nil
  rw [List.cons_append]
  refine Scans.front (h.isBlank_eq_false List.mem_cons_self) (h.reading hrest) ?_
  rwa [Nat.add_sub_cancel, List.drop_left]

theorem Lexes.blanks {bs cs : List Char} {ls : List Lexeme} (hbs : ∀ c ∈ bs, isBlank c = true)
    (h : Lexes cs ls) : Lexes (bs ++ cs) ls := by
  induction bs with
  | nil => exact h
  | cons b bs ih =>
      rw [List.forall_mem_cons] at hbs
      exact (ih hbs.2).blank hbs.1

/-- A text with one lexeme may stand as a piece of another text. -/
theorem Cut.lexes {cs : List Char} {l : Lexeme} (h : Cut cs [l, .finish]) : Lexes cs [l] := by
  obtain ⟨before, run, after, rfl, hrun, hbefore, hafter⟩ := h.single
  apply Lexes.blanks hbefore
  have hblanks : Lexes after [] := by simpa using lexes_nil.blanks hafter
  refine hrun.lexes.append hblanks fun rest hrest => ?_
  cases after with
  | nil => exact hrest
  | cons c after => exact boundary_blank (hafter c List.mem_cons_self) _

/-! ## Pieces put together -/

/-- A piece and a closing parenthesis behind it. -/
theorem Lexes.closed {cs : List Char} {ls : List Lexeme} (h : Lexes cs ls) :
    Lexes (cs ++ [')']) (ls ++ [.closeParen]) :=
  h.append (lexes_nil.sign (by decide) fun _ => rfl)
    fun rest _ => boundary_cons (by decide) (by decide) rest

/-- A sum or a product of two pieces, which stands between blanks. -/
theorem Lexes.spaced {as bs : List Char} {ls ks : List Lexeme} {c : Char} {op : String}
    (ha : Lexes as ls) (hb : Lexes bs ks) (hblank : isBlank c = false)
    (hfront : ∀ rest, reading c rest = .ok (.operator op, 1)) :
    Lexes (as ++ ' ' :: c :: ' ' :: bs) (ls ++ .operator op :: ks) := by
  have hspace : isBlank ' ' = true := by decide
  exact ha.append (((hb.blank hspace).sign hblank hfront).blank hspace)
    fun rest _ => boundary_blank hspace _

theorem Lexes.listed {as bs : List Char} {ls ks : List Lexeme} (ha : Lexes as ls)
    (hb : Lexes bs ks) : Lexes (as ++ ',' :: ' ' :: bs) (ls ++ .comma :: ks) := by
  have hspace : isBlank ' ' = true := by decide
  exact ha.append ((hb.blank hspace).sign (by decide) fun _ => rfl)
    fun _ _ => boundary_cons (by decide) (by decide) _

theorem Lexes.raised {as bs : List Char} {ls ks : List Lexeme} (ha : Lexes as ls)
    (hb : Lexes bs ks) : Lexes (as ++ '^' :: bs) (ls ++ .operator "^" :: ks) :=
  ha.append (hb.sign (by decide) fun _ => rfl)
    fun _ _ => boundary_cons (by decide) (by decide) _

end Reckoner.Token
