import Reckoner.Proofs.Failure
import Reckoner.Proofs.Token.Window

/-!
# Cutting a text into lexemes

Scanning cuts a text into blanks and the longest lexemes, and nothing of the text is lost. Each
lexeme becomes a token at the position where it starts, and the finish stands at the end.

Where scanning fails, all in front of that place has been cut in this way. What the lexemes in
front are depends on the characters behind them, but only where one of them could go on; so they
are the same if the text ends at that place.
-/

namespace Reckoner.Token

open Reckoner.Text

/-- The text, behind which another text goes on, is cut from a position on into blanks and the
longest lexemes, which become the tokens. -/
inductive Segments (behind : List Char) : Int → List Char → List Token → Prop
  | finish {position : Int} : Segments behind position [] [{ lexeme := .finish, position }]
  | blank {position : Int} {c : Char} {rest : List Char} {tokens : List Token}
      (hblank : isBlank c = true) (hrest : Segments behind (position + 1) rest tokens) :
      Segments behind position (c :: rest) tokens
  | lexeme {position : Int} {run rest : List Char} {l : Lexeme} {tokens : List Token}
      (hrun : IsLongest run l (rest ++ behind))
      (hrest : Segments behind (position + run.length) rest tokens) :
      Segments behind position (run ++ rest) ({ lexeme := l, position } :: tokens)

variable {behind cs : List Char} {position : Int} {tokens : List Token}

/-! ## Positions -/

theorem Segments.position_mem (h : Segments behind position cs tokens) :
    ∀ t ∈ tokens, position ≤ t.position ∧ t.position ≤ position + cs.length := by
  induction h with
  | finish => simp
  | blank _ _ ih =>
      intro t ht
      have := ih t ht
      rw [List.length_cons]
      omega
  | lexeme _ _ ih =>
      rw [List.length_append]
      refine List.forall_mem_cons.mpr ⟨⟨Int.le_refl _, by dsimp only; omega⟩, fun t ht => ?_⟩
      have := ih t ht
      omega

/-- Every lexeme takes at least one character, so the next token stands further behind. -/
theorem Segments.pairwise (h : Segments behind position cs tokens) :
    tokens.Pairwise (·.position < ·.position) := by
  induction h with
  | finish => exact List.pairwise_singleton _ _
  | blank _ _ ih => exact ih
  | lexeme hrun hrest ih =>
      refine List.pairwise_cons.mpr ⟨fun t ht => ?_, ih⟩
      have hle := (hrest.position_mem t ht).1
      have hpos := List.length_pos_of_ne_nil hrun.spells.ne_nil
      dsimp only
      omega

/-- The finish stands at the end, and nowhere else. -/
theorem Segments.exists_append (h : Segments behind position cs tokens) :
    ∃ read, tokens = read ++ [{ lexeme := .finish, position := position + cs.length }] ∧
      ∀ t ∈ read, t.lexeme ≠ .finish := by
  induction h with
  | finish => exact ⟨[], by simp, by simp⟩
  | @blank position c rest tokens _ _ ih =>
      obtain ⟨read, rfl, hread⟩ := ih
      refine ⟨read, ?_, hread⟩
      rw [List.length_cons]
      congr 3
      omega
  | @lexeme position run rest l tokens hrun _ ih =>
      obtain ⟨read, rfl, hread⟩ := ih
      refine ⟨{ lexeme := l, position } :: read, ?_, List.forall_mem_cons.mpr ⟨?_, hread⟩⟩
      · rw [List.cons_append, List.length_append]
        congr 4
        omega
      · rintro rfl
        exact hrun.spells.isProper

/-! ## Scanning is cutting -/

theorem scan_of_segments (h : Segments [] position cs tokens) : scan position cs = .ok tokens := by
  induction h with
  | finish => rfl
  | blank hblank _ ih => rw [scan_blank hblank, ih]
  | @lexeme position run rest l tokens hrun _ ih =>
      obtain ⟨c, run, rfl⟩ := List.exists_cons_of_ne_nil hrun.spells.ne_nil
      rw [List.append_nil] at hrun
      rw [List.cons_append,
        scan_front (hrun.spells.isBlank_eq_false List.mem_cons_self) hrun.reading,
        Nat.add_sub_cancel, List.drop_left]
      rw [List.length_cons] at ih
      rw [ih]
      rfl

theorem segments_of_scan (h : scan position cs = .ok tokens) : Segments [] position cs tokens := by
  induction hn : cs.length using Nat.strongRecOn generalizing cs position tokens with
  | _ n ih =>
      subst hn
      cases cs with
      | nil => cases h; exact .finish
      | cons c rest =>
          by_cases hblank : isBlank c = true
          · rw [scan_blank hblank] at h
            exact .blank hblank (ih rest.length (Nat.lt_succ_self _) h rfl)
          · rw [Bool.not_eq_true] at hblank
            obtain ⟨l, n, others, hfront, hothers, rfl⟩ := exists_of_scan_front hblank h
            obtain ⟨run, tail, rfl, rfl, hrun⟩ := exists_run_of_reading hfront
            rw [Nat.add_sub_cancel, List.drop_left] at hothers
            have hlt : tail.length < (c :: (run ++ tail)).length := by
              rw [List.length_cons, List.length_append]
              omega
            have htail : Segments [] (position + (c :: run).length) tail others :=
              ih tail.length hlt (by rwa [List.length_cons]) rfl
            exact .lexeme (by rwa [List.append_nil]) htail

/-- Scanning gives the tokens into which the text can be cut, and no others. -/
theorem scan_eq_ok_iff : scan position cs = .ok tokens ↔ Segments [] position cs tokens :=
  ⟨segments_of_scan, scan_of_segments⟩

/-! ## A text without what stands behind it -/

theorem OpensPower.append {cs : List Char} (h : OpensPower cs) (behind : List Char) :
    OpensPower (cs ++ behind) := by
  obtain ⟨mark, sign, digit, rest, rfl, hmark, hsign, hdigit⟩ := h
  exact ⟨mark, sign, digit, rest ++ behind, by simp, hmark, hsign, hdigit⟩

theorem head?_of_append {p : Char → Prop} {cs behind : List Char}
    (h : ∀ c ∈ (cs ++ behind).head?, p c) : ∀ c ∈ cs.head?, p c := by
  cases cs with
  | nil => simp
  | cons d cs => exact h

/-- Where a unit stands alone in front of the text behind, no name goes on there. -/
theorem Segments.opensUnit_append (h : Segments behind position cs tokens) (hopens : OpensUnit cs) :
    OpensUnit (cs ++ behind) := by
  obtain ⟨rest, rfl, hends⟩ := hopens
  cases rest with
  | cons c rest => exact ⟨c :: rest ++ behind, rfl, hends⟩
  | nil =>
      refine ⟨behind, rfl, ?_⟩
      -- the unit has been cut off as a lexeme, which can only be a name that ends there
      generalize htext : ['i'] = text at h
      cases h with
      | finish => cases htext
      | blank hblank =>
          cases htext
          exact absurd hblank (by decide)
      | lexeme hrun hrest =>
          obtain ⟨c, run, rfl⟩ := List.exists_cons_of_ne_nil hrun.spells.ne_nil
          rw [List.cons_append] at htext
          injection htext with hc hnil
          obtain ⟨rfl, rfl⟩ := List.append_eq_nil_iff.mp hnil.symm
          rw [List.nil_append, ← hc] at hrun
          generalize hone : ['i'] = one at hrun
          cases hrun with
          | operator h => cases hone; cases h
          | openParen | closeParen | comma | pi => cases hone
          | name _ _ _ _ hends =>
              cases hone
              exact hends
          | number hnumber | imaginary hnumber =>
              obtain ⟨d, run, rfl, hd⟩ := hnumber.isMantissa.eq_cons
              obtain rfl : 'i' = d := by simpa using congrArg List.head? hone
              exact absurd hd (by decide)

/-- A longest lexeme is a longest lexeme too if the text ends where another one begins. -/
theorem IsLongest.alone {run rest : List Char} {l : Lexeme} (h : IsLongest run l (rest ++ behind))
    (hrest : Segments behind position rest tokens) : IsLongest run l rest := by
  generalize htext : rest ++ behind = text at h
  cases h with
  | operator h => exact .operator h
  | openParen => exact .openParen
  | closeParen => exact .closeParen
  | comma => exact .comma
  | pi => exact .pi
  | name hdigit hpi hstart hrun hends =>
      subst htext
      exact .name hdigit hpi hstart hrun (head?_of_append hends)
  | @number run power _ x h hread hunit =>
      subst htext
      refine .number ⟨h.isMantissa, ?_, h.isPower, fun hnil hopens => ?_, fun hne => ?_⟩ hread
        fun hopens => hunit (hrest.opensUnit_append hopens)
      · have hends := h.mantissaEnds
        rw [← List.append_assoc] at hends
        exact head?_of_append hends
      · exact h.noPower hnil (hopens.append behind)
      · exact head?_of_append (h.powerEnds hne)
  | @imaginary run power _ x h hread hends =>
      subst htext
      refine .imaginary ⟨h.isMantissa, ?_, h.isPower, fun hnil => ?_, h.powerEnds⟩ hread
        (head?_of_append hends)
      · have hmantissa := h.mantissaEnds
        rw [← List.cons_append, ← List.append_assoc] at hmantissa
        exact head?_of_append hmantissa
      · rintro ⟨mark, sign, digit, tail, heq, hmark, -⟩
        cases heq
        revert hmark
        decide

theorem Segments.alone (h : Segments behind position cs tokens) : Segments [] position cs tokens := by
  induction h with
  | finish => exact .finish
  | blank hblank _ ih => exact .blank hblank ih
  | lexeme hrun hrest ih => exact .lexeme (by rw [List.append_nil]; exact hrun.alone hrest) ih

/-! ## Where scanning fails -/

theorem kind_of_reading {c : Char} {rest : List Char} {cause : Cause}
    (h : reading c rest = .error cause) : cause.kind = .lexical := by
  unfold reading front at h
  split at h
  case isTrue =>
      unfold number at h
      cases hmantissa : mantissa false (c :: rest) with
      | error run => rw [hmantissa] at h; cases h; rfl
      | ok found =>
          obtain ⟨run, tail⟩ := found
          rw [hmantissa] at h
          dsimp only at h
          cases hread : Double.read? (run ++ (exponent tail).1) with
          | none => rw [hread] at h; cases h; rfl
          | some x =>
              rw [hread] at h
              dsimp only at h
              split at h
              all_goals cases h
  case isFalse =>
      split at h
      case h_1 => cases h
      case h_2 =>
          split at h
          case isTrue => cases h
          case isFalse =>
              cases h
              rfl

theorem within_located {cause : Cause} {place : Int} {text : String} (h : cause.kind = .lexical) :
    (Error.located cause place).within text = .located cause place (some text) := by
  unfold Error.within Error.isTyped Error.located
  rw [Cause.code_of_isSyntactic (.inl h)]
  rfl

/-- All in front of the place where scanning fails has been cut, and no lexeme is read there. -/
theorem exists_segments_of_scan {err : Error} (h : scan position cs = .error err) :
    ∃ front c behind tokens cause, cs = front ++ c :: behind ∧
      Segments (c :: behind) position front tokens ∧ reading c behind = .error cause ∧
      err = .located cause (position + front.length) := by
  induction hn : cs.length using Nat.strongRecOn generalizing cs position with
  | _ n ih =>
      subst hn
      cases cs with
      | nil => cases h
      | cons c rest =>
          by_cases hblank : isBlank c = true
          · rw [scan_blank hblank] at h
            obtain ⟨front, d, behind, tokens, cause, rfl, hfront, hd, rfl⟩ :=
              ih rest.length (Nat.lt_succ_self _) h rfl
            refine ⟨c :: front, d, behind, tokens, cause, rfl, .blank hblank hfront, hd, ?_⟩
            rw [List.length_cons]
            congr 1
            omega
          · rw [Bool.not_eq_true] at hblank
            cases hfront : reading c rest with
            | error cause =>
                rw [scan_fault hblank hfront] at h
                cases h
                exact ⟨[], c, rest, _, cause, rfl, .finish, hfront, by simp⟩
            | ok found =>
                obtain ⟨l, n⟩ := found
                rw [scan_front hblank hfront] at h
                obtain ⟨run, tail, rfl, rfl, hrun⟩ := exists_run_of_reading hfront
                rw [Nat.add_sub_cancel, List.drop_left] at h
                cases htail : scan (position + (run.length + 1 : Nat)) tail with
                | ok others => rw [htail] at h; cases h
                | error first =>
                    rw [htail] at h
                    cases h
                    have hlt : tail.length < (c :: (run ++ tail)).length := by
                      rw [List.length_cons, List.length_append]
                      omega
                    obtain ⟨front, d, behind, tokens, cause, rfl, hsegments, hd, rfl⟩ :=
                      ih tail.length hlt htail rfl
                    refine ⟨c :: run ++ front, d, behind, _, cause, by simp,
                      .lexeme hrun hsegments, hd, ?_⟩
                    rw [List.length_append, List.length_cons]
                    congr 1
                    omega

/-! ## Parts of a text -/

/-- A slice ends early where a part of it ends. -/
theorem slice_eq_of_append {text : String} {start stop : Nat} {front rest : List Char}
    (h : slice text start stop = front ++ rest) :
    slice text start (start + front.length) = front := by
  have hle : start + front.length ≤ stop ∨ front = [] := by
    have hlength := congrArg List.length h
    simp only [slice, List.length_drop, List.length_take, List.length_append] at hlength
    cases front with
    | nil => exact .inr rfl
    | cons c front => simp only [List.length_cons] at hlength ⊢; omega
  rcases hle with hle | rfl
  · have htake : (slice text start stop).take front.length = front := by
      rw [h, List.take_left]
    rw [slice, List.drop_take, List.take_take] at htake
    rw [slice, List.drop_take, Nat.add_sub_cancel_left]
    rwa [Nat.min_eq_left (by omega)] at htake
  · rw [slice, List.length_nil, Nat.add_zero, List.drop_eq_nil_of_le]
    exact List.length_take_le _ _

/-- Between two positions of the text itself, in their order, what is read is the slice. -/
theorem tokenizeBetween_eq_scan {text : String} {start stop : Nat} (hstart : start ≤ stop)
    (hstop : stop ≤ text.length) :
    tokenizeBetween text start (some stop) = inText text (scan start (slice text start stop)) := by
  have hlow : ¬ (start : Int) < -(text.toList.length : Int) := by omega
  have hhigh : ¬ (text.toList.length : Int) < (stop : Int) := by
    rw [String.length_toList]
    omega
  unfold tokenizeBetween
  dsimp only [Option.getD_some]
  by_cases hempty : (stop : Int) ≤ start
  · have heq : stop = start := by omega
    have hnil : slice text start stop = [] :=
      List.length_eq_zero_iff.mp (by rw [length_slice hstop]; omega)
    rw [if_pos hempty, hnil, heq]
    rfl
  · rw [if_neg hempty, if_neg hlow, if_neg hhigh, if_pos (Int.natCast_nonneg start)]
    exact tokenizeSlice_eq hstart hstop

/-- Tokens are read from a part of a text just if the part can be cut into blanks and the longest
lexemes; they are those lexemes at the positions where they start, which increase, and the finish
at the end. Every error is one of the scanner at a place inside the part, and the tokens of all
that stands in front of that place are read. -/
theorem tokenizeBetween_segments {text : String} {start stop : Nat} (hstart : start ≤ stop)
    (hstop : stop ≤ text.length) :
    (∀ tokens, tokenizeBetween text start (some stop) = .ok tokens ↔
      Segments [] start (slice text start stop) tokens) ∧
    (∀ tokens, tokenizeBetween text start (some stop) = .ok tokens →
      tokens.Pairwise (·.position < ·.position) ∧
        ∃ read, tokens = read ++ [{ lexeme := .finish, position := stop }] ∧
          ∀ t ∈ read, t.lexeme ≠ .finish) ∧
    ∀ err, tokenizeBetween text start (some stop) = .error err →
      ∃ cause, ∃ place : Nat, err = .located cause place (some text) ∧ cause.kind = .lexical ∧
        start ≤ place ∧ place < stop ∧
        ∃ tokens, tokenizeBetween text start (some place) = .ok tokens := by
  rw [tokenizeBetween_eq_scan hstart hstop]
  have hcut : ∀ tokens, inText text (scan start (slice text start stop)) = .ok tokens ↔
      Segments [] start (slice text start stop) tokens := fun tokens =>
    ⟨fun h => scan_eq_ok_iff.mp (mapError_eq_ok h), fun h => by rw [scan_eq_ok_iff.mpr h]; rfl⟩
  refine ⟨hcut, fun tokens h => ?_, fun err h => ?_⟩
  · have hsegments := (hcut tokens).mp h
    have hend : (start : Int) + (slice text start stop).length = stop := by
      rw [length_slice hstop]
      omega
    have hread := hsegments.exists_append
    rw [hend] at hread
    exact ⟨hsegments.pairwise, hread⟩
  · cases hscan : scan start (slice text start stop) with
    | ok tokens => rw [hscan] at h; cases h
    | error first =>
        rw [hscan] at h
        cases h
        obtain ⟨front, c, behind, tokens, cause, hsplit, hsegments, hc, rfl⟩ :=
          exists_segments_of_scan hscan
        have hkind := kind_of_reading hc
        have hplace : start + front.length < stop := by
          have hlength := congrArg List.length hsplit
          rw [length_slice hstop, List.length_append, List.length_cons] at hlength
          omega
        refine ⟨cause, start + front.length, ?_, hkind, Nat.le_add_right _ _, hplace, tokens, ?_⟩
        · rw [Int.natCast_add]
          exact within_located hkind
        · rw [tokenizeBetween_eq_scan (Nat.le_add_right _ _)
            (Nat.le_trans (Nat.le_of_lt hplace) hstop), slice_eq_of_append hsplit,
            scan_of_segments hsegments.alone]
          rfl

/-- A text in which an exponent or a unit could start where a name does, and which is refused at a
number behind an exponent. -/
private def overlapping : String := "x2e+3i 2in.5e1.2."

/-- The tokens of `2e+3i 2in.5e` in it, where the last letter is no exponent. -/
private def overlappingTokens : List Token :=
  [⟨.imaginary 2000.0, 1, none⟩, ⟨.number 2.0, 7, none⟩, ⟨.var "in", 8, none⟩,
    ⟨.number 0.5, 10, none⟩, ⟨.constant "e", 12, none⟩, ⟨.finish, 13, none⟩]

theorem tokenizeBetween_segments_overlapping :
    1 ≤ 13 ∧ 13 ≤ 17 ∧ 17 ≤ overlapping.length ∧
      Segments [] 1 (slice overlapping 1 13) overlappingTokens ∧
      overlappingTokens.Pairwise (·.position < ·.position) ∧
      ∃ cause, ∃ place : Nat,
        tokenizeBetween overlapping 1 (some 17) = .error (.located cause place (some overlapping)) ∧
        cause.kind = .lexical ∧ 1 ≤ place ∧ place < 17 ∧
        ∃ tokens, tokenizeBetween overlapping 1 (some place) = .ok tokens := by
  have hlength : overlapping.length = 17 := by decide
  have htokens : (tokenizeBetween overlapping 1 (some 13)).toOption = some overlappingTokens := by
    decide +kernel
  have hfails : (tokenizeBetween overlapping 1 (some 17)).toOption = none := by decide +kernel
  obtain ⟨hcut, hpositions, -⟩ :=
    @tokenizeBetween_segments overlapping 1 13 (by decide) (by rw [hlength]; decide)
  obtain ⟨-, -, herror⟩ :=
    @tokenizeBetween_segments overlapping 1 17 (by decide) (Nat.le_of_eq hlength.symm)
  have hread := eq_ok_of_toOption htokens
  refine ⟨by decide, by decide, Nat.le_of_eq hlength.symm, (hcut _).mp hread,
    (hpositions _ hread).1, ?_⟩
  cases hresult : tokenizeBetween overlapping 1 (some 17) with
  | ok tokens => rw [hresult] at hfails; cases hfails
  | error err =>
      obtain ⟨cause, place, rfl, hplace⟩ := herror err hresult
      exact ⟨cause, place, rfl, hplace⟩

end Reckoner.Token
