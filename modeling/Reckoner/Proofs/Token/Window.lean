import Reckoner.Proofs.Token.Scan

/-!
# Looking at a part of a text

All that is read between two positions of a text is looked at through a window that is closed behind
the second one. What the window shows from a position on is the slice up to its end; every part of
a lexeme ends in the window where it ends in front of the slice. So reading through the window is
scanning the slice, whatever stands behind it in the text.
-/

namespace Reckoner.Token

open Reckoner.Text

/-- The characters of a text between two positions. -/
def slice (text : String) (start stop : Nat) : List Char := (text.toList.take stop).drop start

theorem length_slice {text : String} {start stop : Nat} (hstop : stop ≤ text.length) :
    (slice text start stop).length = stop - start := by
  rw [slice, List.length_drop, List.length_take, String.length_toList, Nat.min_eq_left hstop]

namespace Window

/-- The window shows the characters from the position on, and closes behind them. -/
structure Shows (w : Window) (b : Nat) (cs : List Char) : Prop where
  chars : (w.chars.take w.stop).drop b = cs
  stop : w.stop = b + cs.length

variable {w : Window} {b : Nat} {c : Char} {cs run rest : List Char}

theorem shows_slice {text : String} {start stop : Nat} (hstart : start ≤ stop)
    (hstop : stop ≤ text.length) : Shows ⟨text.toList, stop⟩ start (slice text start stop) where
  chars := rfl
  stop := by
    rw [length_slice hstop]
    exact (Nat.add_sub_of_le hstart).symm

/-! ## Looking -/

theorem Shows.rounds (h : w.Shows b cs) : w.stop - b = cs.length := by
  rw [h.stop, Nat.add_sub_cancel_left]

theorem Shows.look? (h : w.Shows b cs) : w.look? b = cs.head? := by
  have htake : w.look? b = (w.chars.take w.stop)[b]? := List.getElem?_take.symm
  rw [htake, ← h.chars, List.head?_drop]

theorem Shows.sees_cons {p : Char → Bool} (h : w.Shows b (c :: cs)) : w.sees p b = p c := by
  rw [sees, h.look?]
  rfl

theorem Shows.sees_nil {p : Char → Bool} (h : w.Shows b []) : w.sees p b = false := by
  rw [sees, h.look?]
  rfl

theorem Shows.behind (h : w.Shows b (run ++ rest)) : w.Shows (b + run.length) rest where
  chars := by rw [← List.drop_drop, h.chars, List.drop_left]
  stop := by rw [h.stop, List.length_append, Nat.add_assoc]

theorem Shows.next (h : w.Shows b (c :: cs)) : w.Shows (b + 1) cs := by
  have hsplit : w.Shows b ([c] ++ cs) := h
  exact hsplit.behind

theorem Shows.between (h : w.Shows b (run ++ rest)) : w.between b (b + run.length) = run := by
  have hle : b + run.length ≤ w.stop := by
    rw [h.stop, List.length_append]
    omega
  have htake : (w.chars.take w.stop).take (b + run.length) = w.chars.take (b + run.length) := by
    rw [List.take_take, Nat.min_eq_left hle]
  rw [Window.between, ← htake, List.drop_take, h.chars, Nat.add_sub_cancel_left, List.take_left]

/-! ## Where parts end -/

theorem Shows.runEnd {p : Char → Bool} (h : w.Shows b cs) :
    w.runEnd p b = b + (cs.takeWhile p).length := by
  rw [Window.runEnd, h.rounds]
  induction cs generalizing b with
  | nil => rfl
  | cons c cs ih =>
      rw [List.length_cons, runEndFrom, h.sees_cons]
      cases hc : p c with
      | false => rw [List.takeWhile_cons_of_neg (by simp [hc])]; rfl
      | true =>
          rw [if_pos rfl, ih h.next, List.takeWhile_cons_of_pos hc, List.length_cons]
          omega

/-- The digits and the point end behind the run that stands in front, or behind a second point. -/
theorem Shows.mantissaEnd {seen : Bool} (h : w.Shows b cs) :
    w.mantissaEndFrom cs.length seen b =
      ((mantissa seen cs).map fun found => b + found.1.length).mapError (b + ·.length) := by
  induction cs generalizing b seen with
  | nil => cases seen <;> rfl
  | cons c cs ih =>
      have hpast (seen : Bool) : w.mantissaEndFrom cs.length seen (b + 1) =
          ((mantissa seen cs).map fun found => b + (c :: found.1).length).mapError
            fun run => b + (c :: run).length := by
        rw [ih h.next]
        simp only [List.length_cons, Nat.add_assoc, Nat.add_comm 1]
      rw [List.length_cons, mantissaEndFrom, h.sees_cons, h.sees_cons, mantissa, hpast, hpast]
      by_cases hpoint : c = '.'
      · rw [if_pos hpoint, if_pos (by simpa using hpoint)]
        cases seen with
        | true => rfl
        | false => cases mantissa true cs <;> rfl
      · rw [if_neg hpoint, if_neg (by simpa using hpoint)]
        cases isDigit c with
        | false => rfl
        | true => cases mantissa seen cs <;> rfl

theorem Shows.signEnd (h : w.Shows b cs) :
    (if w.sees (fun c => c == '+' || c == '-') b then b + 1 else b) =
      b + (signRun cs).1.length := by
  cases cs with
  | nil => rw [h.sees_nil]; rfl
  | cons c cs =>
      rw [h.sees_cons]
      by_cases hplus : c = '+'
      · subst hplus
        rfl
      by_cases hminus : c = '-'
      · subst hminus
        rfl
      have hnone : signRun (c :: cs) = ([], c :: cs) := by
        unfold signRun
        split <;> simp_all
      rw [hnone, if_neg (by simp [hplus, hminus])]
      rfl

theorem Shows.exponentEnd (h : w.Shows b cs) :
    w.exponentEnd b = b + (exponent cs).1.length := by
  cases cs with
  | nil => rw [Window.exponentEnd, h.sees_nil]; rfl
  | cons c cs =>
      rw [Window.exponentEnd, h.sees_cons, exponent]
      by_cases hmark : c = 'e' ∨ c = 'E'
      · obtain ⟨hsplit, -⟩ := signRun_spec cs
        rw [if_pos hmark, if_pos (by simpa using hmark), h.next.signEnd]
        rcases hrun : signRun cs with ⟨sign, digits⟩
        rw [hrun] at hsplit
        dsimp only at hsplit ⊢
        subst hsplit
        have hdigits : w.Shows (b + 1 + sign.length) digits := h.next.behind
        cases digits with
        | nil => rw [hdigits.sees_nil]; rfl
        | cons d digits =>
            rw [hdigits.sees_cons]
            cases hd : isDigit d with
            | false => rw [List.takeWhile_cons_of_neg (by simp [hd])]; rfl
            | true =>
                rw [if_pos rfl, hdigits.runEnd, List.takeWhile_cons_of_pos hd,
                  if_neg (List.cons_ne_nil _ _)]
                simp only [List.length_cons, List.length_append]
                omega
      · rw [if_neg hmark, if_neg (by simpa using hmark)]
        rfl

theorem Shows.seesUnit (h : w.Shows b cs) : w.seesUnit b = (imaginaryUnit cs).1 := by
  cases cs with
  | nil => rw [Window.seesUnit, h.sees_nil]; rfl
  | cons c cs =>
      rw [Window.seesUnit, h.sees_cons]
      by_cases hi : c = 'i'
      · subst hi
        cases cs with
        | nil => rw [h.next.sees_nil]; rfl
        | cons d cs => rw [h.next.sees_cons, imaginaryUnit]; cases isNameChar d <;> rfl
      · have hnone : imaginaryUnit (c :: cs) = (false, c :: cs) := by
          unfold imaginaryUnit
          split <;> simp_all
        rw [hnone, beq_false_of_ne hi]
        rfl

/-! ## Lexemes -/

/-- A number ends in the window behind the characters that it has in front of the slice. -/
theorem Shows.number (h : w.Shows b (c :: cs)) :
    w.number b c =
      (Token.number (fun run => run) (c :: cs)).map fun found => (found.1, b + found.2) := by
  rw [Window.number, h.rounds, h.mantissaEnd, Token.number]
  cases hmantissa : mantissa false (c :: cs) with
  | error run =>
      obtain ⟨rest, hsplit⟩ := mantissa_error hmantissa
      rw [hsplit] at h
      simp only [Except.map, Except.mapError, h.between]
  | ok found =>
      obtain ⟨run, tail⟩ := found
      obtain ⟨hsplit, -⟩ := mantissa_spec hmantissa
      rw [hsplit] at h
      have htail := h.behind
      obtain ⟨hpower, -⟩ := exponent_spec tail
      simp only [Except.map, Except.mapError, htail.exponentEnd]
      rcases hexponent : exponent tail with ⟨power, rest⟩
      rw [hexponent] at hpower
      subst hpower
      dsimp only
      have hliteral : w.between b (b + run.length + power.length) = run ++ power := by
        rw [← List.append_assoc] at h
        rw [Nat.add_assoc, ← List.length_append]
        exact h.between
      rw [hliteral, htail.behind.seesUnit]
      cases Double.read? (run ++ power) with
      | none => rfl
      | some value =>
          cases (imaginaryUnit rest).1 <;> simp only [Nat.add_assoc] <;> rfl

theorem Shows.lexeme (h : w.Shows b (c :: cs)) :
    w.lexeme b c = (reading c cs).map fun found => (found.1, b + found.2) := by
  unfold Window.lexeme reading front
  cases hnumber : isDigit c || c == '.' with
  | true => exact h.number
  | false =>
      rw [if_neg Bool.false_ne_true, if_neg Bool.false_ne_true]
      cases sign? c with
      | some sign => rfl
      | none =>
          dsimp only
          have hsplit : c :: cs = (c :: cs).takeWhile isNameChar ++ (c :: cs).dropWhile isNameChar :=
            List.takeWhile_append_dropWhile.symm
          have hname : w.between b (b + ((c :: cs).takeWhile isNameChar).length) =
              (c :: cs).takeWhile isNameChar := Shows.between (hsplit ▸ h)
          rw [h.runEnd, hname]
          cases isNameStart c <;> rfl

/-- Reading through the window is scanning what it shows. -/
theorem Shows.tokensFrom {rounds : Nat} (h : w.Shows b cs) (hrounds : cs.length ≤ rounds) :
    w.tokensFrom rounds b = scan b cs := by
  induction rounds generalizing b cs with
  | zero =>
      obtain rfl := List.length_eq_zero_iff.mp (Nat.le_zero.mp hrounds)
      rw [Window.tokensFrom, h.stop]
      rfl
  | succ rounds ih =>
      rw [Window.tokensFrom, h.look?]
      cases cs with
      | nil =>
          rw [h.stop]
          rfl
      | cons c cs =>
          rw [List.length_cons, Nat.succ_le_succ_iff] at hrounds
          dsimp only [List.head?_cons]
          cases hblank : isBlank c with
          | true =>
              rw [if_pos rfl, ih h.next hrounds, scan_blank hblank]
              rfl
          | false =>
              rw [if_neg Bool.false_ne_true, h.lexeme]
              cases hreading : reading c cs with
              | error cause => rw [scan_fault hblank hreading]; rfl
              | ok found =>
                  obtain ⟨l, n⟩ := found
                  obtain ⟨run, tail, hsplit, rfl, hrun⟩ := spells_of_reading hreading
                  obtain ⟨d, run, rfl⟩ := List.exists_cons_of_ne_nil hrun.ne_nil
                  rw [hsplit] at h
                  rw [List.cons_append] at hsplit
                  cases hsplit
                  rw [List.length_append] at hrounds
                  rw [scan_front hblank hreading, List.length_cons, Nat.add_sub_cancel,
                    List.drop_left, ← List.length_cons, ← Int.natCast_add,
                    ← ih h.behind (by omega)]
                  rfl

end Window

/-- Between two positions of a text, in their order, what is read is the slice. -/
theorem tokenizeSlice_eq {text : String} {start stop : Nat} (hstart : start ≤ stop)
    (hstop : stop ≤ text.length) :
    tokenizeSlice text start stop = inText text (scan start (slice text start stop)) := by
  have hshows := Window.shows_slice hstart hstop
  rw [tokenizeSlice, hshows.rounds, hshows.tokensFrom (Nat.le_refl _)]

theorem tokenize_eq (text : String) : tokenize text = inText text (scan 0 text.toList) := by
  rw [tokenize, tokenizeSlice_eq (Nat.zero_le _) (Nat.le_refl _), slice, ← String.length_toList,
    List.take_length]
  rfl

theorem scans_iff_tokenize {text : String} {ls : List Lexeme} :
    Scans text.toList ls ↔ ∃ tokens, tokenize text = .ok tokens ∧ tokens.map Token.lexeme = ls := by
  rw [tokenize_eq]
  constructor
  · intro h
    obtain ⟨tokens, htokens, hmap⟩ := h 0
    refine ⟨tokens, ?_, hmap⟩
    rw [htokens]
    rfl
  · rintro ⟨tokens, htokens, rfl⟩
    exact scans_of_scan (mapError_eq_ok htokens)

end Reckoner.Token
