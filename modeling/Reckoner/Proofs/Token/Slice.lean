import Reckoner.Proofs.Token.Segmentation

/-!
# Slices as texts of their own

What is read between two positions of a text is what is read from the slice if it is a text of its
own, with all positions moved to where the slice starts. What follows the slice has no say in it,
even where a number, an exponent, a unit or a name could go on there.
-/

namespace Reckoner

/-- The cause as it is found when the text starts so much further on. -/
def Cause.moved (amount : Int) : Cause → Cause
  | .unclosedParenthesis opening => .unclosedParenthesis (opening + amount)
  | cause => cause

@[simp] theorem Cause.kind_moved (amount : Int) (cause : Cause) :
    (cause.moved amount).kind = cause.kind := by
  cases cause <;> rfl

@[simp] theorem Cause.code_moved (amount : Int) (cause : Cause) :
    (cause.moved amount).code? = cause.code? := by
  cases cause <;> rfl

theorem Cause.moved_of_lexical {cause : Cause} (h : cause.kind = .lexical) (amount : Int) :
    cause.moved amount = cause := by
  cases cause <;> first | rfl | cases h

/-- The error as it is found when the text starts so much further on. -/
def Error.moved (amount : Int) (err : Error) : Error :=
  { err with cause := err.cause.moved amount, position := err.position.map (· + amount) }

@[simp] theorem Error.moved_located (amount : Int) (cause : Cause) (position : Int) :
    (located cause position).moved amount = located (cause.moved amount) (position + amount) := rfl

namespace Token

/-- The token in a text that starts so much further on. -/
def moved (amount : Int) (token : Token) : Token :=
  { token with position := token.position + amount }

@[simp] theorem lexeme_moved (amount : Int) (token : Token) :
    (token.moved amount).lexeme = token.lexeme := rfl

@[simp] theorem position_moved (amount : Int) (token : Token) :
    (token.moved amount).position = token.position + amount := rfl

@[simp] theorem shown_moved (amount : Int) (token : Token) :
    (token.moved amount).shown = token.shown := rfl

theorem scan_add (amount position : Int) (cs : List Char) :
    scan (position + amount) cs =
      ((scan position cs).map (List.map (moved amount))).mapError (Error.moved amount) := by
  induction hn : cs.length using Nat.strongRecOn generalizing cs position with
  | _ n ih =>
      subst hn
      cases cs with
      | nil => rfl
      | cons c rest =>
          cases hblank : Text.isBlank c with
          | true =>
              rw [scan_blank hblank, scan_blank hblank, Int.add_right_comm]
              exact ih rest.length (Nat.lt_succ_self _) (position + 1) rest rfl
          | false =>
              cases hfront : reading c rest with
              | error cause =>
                  rw [scan_fault hblank hfront, scan_fault hblank hfront]
                  have hlexical := kind_of_reading hfront
                  simp only [Except.map, Except.mapError, Error.moved_located,
                    Cause.moved_of_lexical hlexical]
              | ok found =>
                  obtain ⟨l, n⟩ := found
                  have hlt : (rest.drop (n - 1)).length < (c :: rest).length := by
                    simp only [List.length_drop, List.length_cons]
                    omega
                  rw [scan_front hblank hfront, scan_front hblank hfront, Int.add_right_comm,
                    ih _ hlt (position + n) _ rfl]
                  cases scan (position + n) (rest.drop (n - 1)) <;> rfl

/-- A whole text is read from its start to its end. -/
theorem tokenizeBetween_none (text : String) :
    tokenizeBetween text 0 none = inText text (scan 0 text.toList) := by
  have hwhole : tokenizeBetween text 0 none = tokenizeBetween text 0 (some text.length) := by
    rw [← String.length_toList]
    rfl
  have hslice : slice text 0 text.length = text.toList := by
    rw [slice, ← String.length_toList, List.take_length]
    rfl
  rw [hwhole, ← hslice]
  exact tokenizeBetween_eq_scan (Nat.zero_le _) (Nat.le_refl _)

/-- Between two positions of a text the tokens are those of the slice as a text of its own, moved to
where the slice starts, the finish included. Reading is refused where it is for the slice alone: for
the same cause, which has the code, the message and the character, and at the place that is moved
likewise. -/
theorem tokenizeBetween_slice {text : String} {start stop : Nat} (hstart : start ≤ stop)
    (hstop : stop ≤ text.length) :
    let part := String.ofList (slice text start stop)
    (∀ tokens, tokenizeBetween text start (some stop) = .ok tokens ↔
      ∃ own, tokenizeBetween part 0 none = .ok own ∧ tokens = own.map (moved start)) ∧
    ∀ err, tokenizeBetween text start (some stop) = .error err ↔
      ∃ cause place, tokenizeBetween part 0 none = .error (.located cause place (some part)) ∧
        cause.kind = .lexical ∧ err = .located cause (place + start) (some text) := by
  intro part
  have hadd := scan_add start 0 (slice text start stop)
  rw [Int.zero_add] at hadd
  rw [tokenizeBetween_eq_scan hstart hstop, hadd, tokenizeBetween_none, String.toList_ofList]
  cases hscan : scan 0 (slice text start stop) with
  | ok own =>
      refine ⟨fun tokens => ⟨?_, ?_⟩, fun err => ⟨fun h => (by cases h), ?_⟩⟩
      · rintro ⟨⟩
        exact ⟨own, rfl, rfl⟩
      · rintro ⟨_, ⟨⟩, rfl⟩
        rfl
      · rintro ⟨_, _, ⟨⟩, -⟩
  | error first =>
      obtain ⟨front, c, behind, -, cause, -, -, hc, rfl⟩ := exists_segments_of_scan hscan
      have hlexical := kind_of_reading hc
      have hwithin (place : Int) (text : String) :
          inText text (.error (.located cause place)) = .error (.located cause place (some text)) :=
        congrArg Except.error (within_located hlexical)
      simp only [Except.map, Except.mapError, Error.moved_located, Cause.moved_of_lexical hlexical,
        hwithin]
      refine ⟨fun tokens => ⟨fun h => (by cases h), ?_⟩, fun err => ⟨?_, ?_⟩⟩
      · rintro ⟨_, ⟨⟩, -⟩
      · rintro ⟨⟩
        exact ⟨cause, _, rfl, hlexical, rfl⟩
      · rintro ⟨_, _, ⟨⟩, -, rfl⟩
        rfl

/-- A text in which an exponent goes on behind a slice, and which is refused at a second point. -/
private def powers : String := "x+2e5i*1.2.3"

theorem tokenizeBetween_slice_powers :
    2 ≤ 4 ∧ 7 ≤ 11 ∧ 11 ≤ powers.length ∧
      tokenizeBetween powers 2 (some 4) =
        .ok [⟨.number 2.0, 2, none⟩, ⟨.constant "e", 3, none⟩, ⟨.finish, 4, none⟩] ∧
      tokenizeBetween powers 7 (some 11) =
        .error (.located (.secondPoint "1.2.") 7 (some powers)) := by
  have hpower : (tokenizeBetween (String.ofList (slice powers 2 4)) 0 none).toOption =
      some [⟨.number 2.0, 0, none⟩, ⟨.constant "e", 1, none⟩, ⟨.finish, 2, none⟩] := by
    decide +kernel
  have hpoints : tokenizeBetween (String.ofList (slice powers 7 11)) 0 none =
      .error (.located (.secondPoint "1.2.") 0 (some (String.ofList (slice powers 7 11)))) := by
    rfl
  have hlength : 11 ≤ powers.length := by decide
  obtain ⟨htokens, -⟩ :=
    @tokenizeBetween_slice powers 2 4 (by decide) (Nat.le_trans (by decide) hlength)
  obtain ⟨-, herror⟩ := @tokenizeBetween_slice powers 7 11 (by decide) hlength
  refine ⟨by decide, by decide, hlength, (htokens _).mpr ⟨_, eq_ok_of_toOption hpower, rfl⟩, ?_⟩
  exact (herror _).mpr ⟨_, 0, hpoints, rfl, rfl⟩

end Token

end Reckoner
