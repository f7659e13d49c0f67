import Reckoner.Proofs.Token.Scan

/-!
# Parts of a text

Where a text ends, or a character follows that goes on neither a name nor a number, what is read in
front does not depend on what follows. So a text is read part by part if it is cut in front of such
characters. Blanks are among them, and so are parentheses.
-/

namespace Reckoner.Token

open Reckoner.Text

/-- Nothing goes on, neither a name nor a number nor its exponent. -/
def Stops (rest : List Char) : Prop :=
  ∀ c ∈ rest.head?, isNameChar c = false ∧ c ∉ ['.', '+', '-']

variable {cs rest : List Char}

theorem stops_nil : Stops [] := fun _ h => by cases h

theorem stops_openParen (rest : List Char) : Stops ('(' :: rest) := by
  intro c hc
  cases hc
  decide

theorem stops_closeParen (rest : List Char) : Stops (')' :: rest) := by
  intro c hc
  cases hc
  decide

theorem stops_blank {c : Char} (h : isBlank c = true) (rest : List Char) : Stops (c :: rest) := by
  intro d hd
  cases hd
  refine ⟨isNameChar_of_isBlank h, fun hmem => ?_⟩
  have hnone : ['.', '+', '-'].all (fun d => !isBlank d) = true := by decide
  simpa [h] using List.all_eq_true.mp hnone c hmem

theorem stops_blanks {blanks : List Char} (hblanks : ∀ b ∈ blanks, isBlank b = true)
    (hrest : Stops rest) : Stops (blanks ++ rest) := by
  cases blanks with
  | nil => exact hrest
  | cons b blanks => exact stops_blank (hblanks b List.mem_cons_self) _

/-! ## Runs of characters -/

/-- A class of characters of which numbers and names consist. -/
theorem Stops.outside (h : Stops rest) {p : Char → Bool}
    (hp : ∀ c, p c = true → isNameChar c = true) : ∀ c ∈ rest.head?, p c = false := by
  intro c hc
  rw [← Bool.not_eq_true]
  intro hclass
  have hname := hp c hclass
  rw [(h c hc).1] at hname
  cases hname

theorem takeWhile_append_stop {p : Char → Bool} (h : ∀ c ∈ rest.head?, p c = false)
    (cs : List Char) :
    (cs ++ rest).takeWhile p = cs.takeWhile p ∧
      (cs ++ rest).dropWhile p = cs.dropWhile p ++ rest := by
  induction cs with
  | nil => exact takeWhile_append_of_head (by simp) h
  | cons c cs ih =>
      rw [List.cons_append]
      by_cases hc : p c = true
      · rw [List.takeWhile_cons_of_pos hc, List.takeWhile_cons_of_pos hc,
          List.dropWhile_cons_of_pos hc, List.dropWhile_cons_of_pos hc, ih.1, ih.2]
        exact ⟨rfl, rfl⟩
      · rw [List.takeWhile_cons_of_neg hc, List.takeWhile_cons_of_neg hc,
          List.dropWhile_cons_of_neg hc, List.dropWhile_cons_of_neg hc]
        exact ⟨rfl, rfl⟩

theorem mantissa_append_stop (h : Stops rest) (seen : Bool) (cs : List Char) :
    mantissa seen (cs ++ rest) =
      (mantissa seen cs).map fun found => (found.1, found.2 ++ rest) := by
  induction cs generalizing seen with
  | nil =>
      have hrest : ∀ c ∈ rest.head?, isDigit c = false ∧ c ≠ '.' := by
        refine fun c hc => ⟨h.outside (fun _ => isNameChar_of_isDigit) c hc, ?_⟩
        rintro rfl
        exact (h '.' hc).2 (by decide)
      have hnone : mantissa seen ([] ++ rest) = .ok ([], rest) :=
        mantissa_append (by simp) (by cases seen <;> simp) hrest
      rw [hnone, mantissa]
      rfl
  | cons c cs ih =>
      rw [List.cons_append, mantissa, mantissa, ih true, ih seen]
      split
      · split
        · rfl
        · cases mantissa true cs <;> rfl
      · split
        · cases mantissa seen cs <;> rfl
        · rfl

theorem signRun_append_stop (h : Stops rest) (cs : List Char) :
    signRun (cs ++ rest) = ((signRun cs).1, (signRun cs).2 ++ rest) := by
  cases cs with
  | nil =>
      cases rest with
      | nil => rfl
      | cons c rest =>
          have hc := (h c rfl).2
          simp only [List.mem_cons, List.not_mem_nil, or_false, not_or] at hc
          unfold signRun
          split <;> simp_all
  | cons c cs =>
      rw [List.cons_append]
      unfold signRun
      split <;> simp_all

theorem exponent_append_stop (h : Stops rest) (cs : List Char) :
    exponent (cs ++ rest) = ((exponent cs).1, (exponent cs).2 ++ rest) := by
  have hletters : ∀ c ∈ rest.head?, isDigit c = false ∧ c ≠ 'e' ∧ c ≠ 'E' := by
    refine fun c hc => ⟨h.outside (fun _ => isNameChar_of_isDigit) c hc, ?_, ?_⟩
    all_goals
      rintro rfl
      revert hc
      exact fun hc => absurd (h _ hc).1 (by decide)
  cases cs with
  | nil => exact exponent_append .none hletters
  | cons c cs =>
      obtain ⟨htake, hdrop⟩ :=
        takeWhile_append_stop (fun c hc => (hletters c hc).1) (signRun cs).2
      rw [List.cons_append, exponent, exponent, signRun_append_stop h]
      dsimp only
      rw [htake, hdrop]
      split
      · split <;> rfl
      · rfl

theorem imaginaryUnit_append_stop (h : Stops rest) (cs : List Char) :
    (imaginaryUnit (cs ++ rest)).1 = (imaginaryUnit cs).1 := by
  have hboundary : Boundary rest := by
    refine fun c hc => ⟨(h c hc).1, ?_⟩
    rintro rfl
    exact (h '.' hc).2 (by decide)
  obtain ⟨hnone, hunit⟩ := imaginaryUnit_of_boundary hboundary
  match cs with
  | [] => rw [List.nil_append, hnone]; rfl
  | [c] =>
      by_cases hc : c = 'i'
      · subst hc
        rw [List.singleton_append, hunit]
        rfl
      · rw [List.singleton_append]
        unfold imaginaryUnit
        split <;> simp_all
  | c :: d :: cs =>
      have hsecond (cs : List Char) :
          (imaginaryUnit (c :: d :: cs)).1 = (c == 'i' && !isNameChar d) := by
        by_cases hc : c = 'i'
        · subst hc
          rw [imaginaryUnit]
          cases isNameChar d <;> rfl
        · unfold imaginaryUnit
          split <;> simp_all
      rw [List.cons_append, List.cons_append, hsecond, hsecond]

theorem number_append_stop (h : Stops rest) (c : Char) (cs : List Char) :
    number (fun run => run) (c :: cs ++ rest) = number (fun run => run) (c :: cs) := by
  unfold number
  rw [mantissa_append_stop h]
  cases mantissa false (c :: cs) with
  | error run => rfl
  | ok found =>
      obtain ⟨run, tail⟩ := found
      simp only [Except.map, exponent_append_stop h, imaginaryUnit_append_stop h]
      rfl

/-- What stands in front of the first part stands in front of the whole text. -/
theorem reading_append_stop (h : Stops rest) (c : Char) (cs : List Char) :
    reading c (cs ++ rest) = reading c cs := by
  have hname := (takeWhile_append_stop (fun d hd => (h d hd).1) (c :: cs)).1
  have hnumber := number_append_stop h c cs
  rw [List.cons_append] at hname hnumber
  unfold reading front
  rw [hnumber, hname]

/-! ## Lexemes of parts -/

/-- The part is read as the lexemes, wherever nothing goes on behind it. -/
def ReadsPart (cs : List Char) (ls : List Lexeme) : Prop :=
  ∀ rest ls', Stops rest → Scans rest ls' → Scans (cs ++ rest) (ls ++ ls')

/-- A text is read part by part. -/
theorem Scans.parts {ls : List Lexeme} (h : Scans (cs ++ rest) ls) (hrest : Stops rest) :
    ∃ front back, ls = front ++ back ∧ ReadsPart cs front ∧ Scans rest back := by
  induction hn : cs.length using Nat.strongRecOn generalizing cs ls with
  | _ n ih =>
      subst hn
      cases cs with
      | nil => exact ⟨[], ls, rfl, fun _ _ _ h => h, h⟩
      | cons c cs =>
          by_cases hblank : isBlank c = true
          · obtain ⟨front, back, rfl, hfront, hback⟩ :=
              ih cs.length (Nat.lt_succ_self _) (h.blank_inv hblank) rfl
            exact ⟨front, back, rfl,
              fun more ks hmore hscans => (hfront more ks hmore hscans).blank hblank, hback⟩
          · rw [Bool.not_eq_true] at hblank
            obtain ⟨l, n, ls', hreading, rfl, hscans⟩ := Scans.cons_inv h hblank
            change reading c (cs ++ rest) = _ at hreading
            change Scans ((cs ++ rest).drop (n - 1)) ls' at hscans
            rw [reading_append_stop hrest] at hreading
            obtain ⟨run, tail, htext, rfl, hrun⟩ := spells_of_reading hreading
            obtain ⟨d, run, rfl⟩ := List.exists_cons_of_ne_nil hrun.ne_nil
            rw [List.cons_append] at htext
            cases htext
            rw [List.length_cons, Nat.add_sub_cancel, List.append_assoc, List.drop_left] at hscans
            have hshort : tail.length < (c :: (run ++ tail)).length := by
              rw [List.length_cons, List.length_append]
              omega
            obtain ⟨front, back, rfl, hfront, hback⟩ := ih tail.length hshort hscans rfl
            refine ⟨l :: front, back, rfl, fun more ks hmore hmorescans => ?_, hback⟩
            have hwhole : reading c (run ++ tail ++ more) = .ok (l, (c :: run).length) := by
              rw [reading_append_stop hmore, hreading]
            have hdrop : (run ++ tail ++ more).drop ((c :: run).length - 1) = tail ++ more := by
              rw [List.length_cons, Nat.add_sub_cancel, List.append_assoc, List.drop_left]
            have hbehind : Scans ((run ++ tail ++ more).drop ((c :: run).length - 1))
                (front ++ ks) := hdrop ▸ hfront more ks hmore hmorescans
            exact hbehind.front hblank hwhole

theorem ReadsPart.scans {ls : List Lexeme} (h : ReadsPart cs ls) :
    Scans cs (ls ++ [.finish]) := by
  have hscans := h [] [.finish] stops_nil scans_nil
  rwa [List.append_nil] at hscans

/-- A text has one reading. -/
theorem Scans.unique {ls ks : List Lexeme} (h : Scans cs ls) (h' : Scans cs ks) : ls = ks := by
  obtain ⟨tokens, htokens, rfl⟩ := h 0
  obtain ⟨tokens', htokens', rfl⟩ := h' 0
  rw [htokens] at htokens'
  cases htokens'
  rfl

end Reckoner.Token
