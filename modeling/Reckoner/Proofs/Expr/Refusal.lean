import Reckoner.Expr.Reading
import Reckoner.Proofs.Expr.RoundTrip
import Reckoner.Proofs.Latex.Place

/-!
# What reading refuses

Every text that is not read is refused with an error that has a code: by the translation of LaTeX,
by the scanner, or by the parser, which is given none but proper lexemes. The trees on both sides
of an equation that is read are as reading makes them.
-/

namespace Reckoner

variable {accident : Cause → Prop}

/-! ## LaTeX -/

theorem Error.IsPlaced.isCodedOr {source : List Char} {err : Error} (h : err.IsPlaced source) :
    err.IsCodedOr accident := by
  obtain ⟨cause, p, rfl, hplaced⟩ := h
  exact .inl (congrArg Option.isSome hplaced.code.1)

theorem Latex.failsOnly_toPlain (text : String) :
    FailsOnly (Error.IsCodedOr accident) (toPlain text) :=
  (failsOnly_toPlain_isPlaced text).mono fun _ herr => herr.isCodedOr

theorem Latex.failsOnly_plainOf (text : String) :
    FailsOnly (Error.IsCodedOr accident) (plainOf text) :=
  (failsOnly_plainOf_isPlaced text).mono fun _ herr => herr.isCodedOr

/-! ## Lexemes -/

namespace Token

theorem failsOnly_number (spell : List Char → List Char) (cs : List Char) :
    FailsOnly (Cause.IsCodedOr accident) (number spell cs) := by
  unfold number
  split
  case h_1 => exact failsOnly_error (.inl rfl)
  case h_2 =>
      dsimp only
      split
      case h_1 => exact failsOnly_error (.inl rfl)
      case h_2 => split <;> exact failsOnly_ok _

theorem failsOnly_front (spell : List Char → List Char) (c : Char) (rest : List Char) :
    FailsOnly (Cause.IsCodedOr accident) (front spell c rest) := by
  unfold front
  split
  case isTrue => exact failsOnly_number spell _
  case isFalse =>
      split
      case h_1 => exact failsOnly_ok _
      case h_2 =>
          repeat' split
          all_goals first | exact failsOnly_ok _ | exact failsOnly_error (.inl rfl)

theorem failsOnly_scanWith (spell : Spelling) (rounds : Nat) (position : Int) (cs : List Char) :
    FailsOnly (Error.IsCodedOr accident) (scanWith spell rounds position cs) := by
  induction rounds generalizing position cs with
  | zero => exact failsOnly_ok _
  | succ rounds ih =>
      cases cs with
      | nil => exact failsOnly_ok _
      | cons c rest =>
          rw [scanWith]
          split
          case isTrue => exact ih _ _
          case isFalse =>
              split
              case h_1 cause h => exact failsOnly_error (failsOnly_front _ _ _ cause h)
              case h_2 => exact (ih _ _).bind fun _ _ => failsOnly_pure _

theorem failsOnly_inText {text : String} {tokens : Except Error (List Token)}
    (h : FailsOnly (Error.IsCodedOr accident) tokens) :
    FailsOnly (Error.IsCodedOr accident) (inText text tokens) :=
  (h.mono fun _ herr => herr.within text).mapError

theorem failsOnly_scan (text : String) (position : Int) (cs : List Char) :
    FailsOnly (Error.IsCodedOr accident) (inText text (scan position cs)) :=
  failsOnly_inText (failsOnly_scanWith _ _ _ _)

end Token

/-! ## Trees -/

namespace Expr

theorem isCoded_misplaced (stack : List Frame) (token : Token) :
    (misplaced stack token).IsCodedOr accident := by
  unfold misplaced
  split <;> exact .inl rfl

/-- A token of a text: a proper lexeme, or the end. -/
def IsProperOrEnd (token : Token) : Prop := Token.IsProper token.lexeme ∨ token.lexeme = .finish

theorem failsOnly_readFrom {stop : Int} {stack : List Frame} {operand : Option Expr}
    {tokens : List Token} (h : ∀ token ∈ tokens, IsProperOrEnd token) :
    FailsOnly (Error.IsCodedOr accident) (readFrom stop stack operand tokens) := by
  fun_induction readFrom stop stack operand tokens
  all_goals try exact failsOnly_ok _
  all_goals try exact failsOnly_error (.inl rfl)
  all_goals try exact failsOnly_error (isCoded_misplaced _ _)
  all_goals try
    exact ‹(∀ token ∈ _, IsProperOrEnd token) → _› fun other hother => h other (by simp [hother])
  -- what is left are lexemes that no text has
  case case19 token _ _ _ hlexeme | case23 token _ _ _ hlexeme =>
      rcases h token List.mem_cons_self with hproper | hfinish
      · rw [hlexeme] at hproper
        exact hproper.elim
      · rw [hlexeme] at hfinish
        cases hfinish
  case case21 token _ _ op hlexeme hnone =>
      rcases h token List.mem_cons_self with hproper | hfinish
      · rw [hlexeme] at hproper
        have hop : op ∈ ["+", "-", "*", "/", "^"] := hproper
        simp only [List.mem_cons, List.not_mem_nil, or_false] at hop
        rcases hop with rfl | rfl | rfl | rfl | rfl <;> cases hnone
      · rw [hlexeme] at hfinish
        cases hfinish

/-- The tokens of a text are proper lexemes and an end. -/
theorem isProperOrEnd_of_scan {position : Int} {cs : List Char} {tokens : List Token}
    (h : Token.scan position cs = .ok tokens) : ∀ token ∈ tokens, IsProperOrEnd token := by
  obtain ⟨ls, hls, hproper⟩ := (Token.scans_of_scan h).cut.isProper
  intro token htoken
  have hmem := List.mem_map_of_mem (f := Token.lexeme) htoken
  rw [hls, List.mem_append, List.mem_singleton] at hmem
  exact hmem.imp_left (hproper _)

theorem failsOnly_ofTokensOf (text : String) {position : Int} {cs : List Char} {tokens : List Token}
    (h : Token.inText text (Token.scan position cs) = .ok tokens) :
    FailsOnly (Error.IsCodedOr accident) (ofTokensOf text tokens) :=
  ((failsOnly_readFrom (isProperOrEnd_of_scan (mapError_eq_ok h))).mono
    fun _ herr => herr.within text).mapError

theorem failsOnly_ofPlain (text : String) :
    FailsOnly (Error.IsCodedOr accident) (ofPlain text) := by
  rw [ofPlain, Token.tokenize_eq]
  exact (Token.failsOnly_scan text 0 text.toList).bind fun _ htokens =>
    failsOnly_ofTokensOf text htokens

/-- A text that is not read as an expression is refused with a code. -/
theorem failsOnly_ofText (text : String) : FailsOnly (Error.IsCodedOr accident) (ofText text) :=
  (Latex.failsOnly_plainOf text).bind fun plain _ => failsOnly_ofPlain plain

end Expr

/-! ## Equations -/

namespace Equation

theorem equalsSignFrom_lt {depth : Int} {index split : Nat} {cs : List Char}
    (h : equalsSignFrom depth index cs = some split) : split < index + cs.length := by
  induction cs generalizing depth index with
  | nil => cases h
  | cons c rest ih =>
      rw [equalsSignFrom] at h
      rw [List.length_cons]
      split at h
      case isTrue => have := ih h; omega
      case isFalse =>
      split at h
      case isTrue => have := ih h; omega
      case isFalse =>
      split at h
      case isTrue => cases h; omega
      case isFalse => have := ih h; omega

theorem equalsSign?_lt {text : String} {split : Nat} (h : equalsSign? text = some split) :
    split < text.length := by
  have hlt := equalsSignFrom_lt h
  rwa [Nat.zero_add, String.length_toList] at hlt

/-- An equation with an equals sign is read from what stands on both sides of it. -/
theorem ofPlain_eq {text : String} {split : Nat} (h : equalsSign? text = some split) :
    ofPlain text =
      if (text.toList.take split).all Text.isBlank ||
          (text.toList.drop (split + 1)).all Text.isBlank then
        .error (.located .emptySide split (some text))
      else do
        let lhs ← Expr.ofTokensOf text
          (← Token.inText text (Token.scan 0 (text.toList.take split)))
        let rhs ← Expr.ofTokensOf text
          (← Token.inText text (Token.scan (split + 1 : Nat) (text.toList.drop (split + 1))))
        return ⟨lhs, rhs, text⟩ := by
  have hlt := equalsSign?_lt h
  have hleft := Token.tokenizeSlice_eq (Nat.zero_le split) (Nat.le_of_lt hlt)
  have hright := Token.tokenizeSlice_eq (Nat.succ_le_of_lt hlt) (Nat.le_refl text.length)
  rw [Token.slice, ← String.length_toList, List.take_length] at hright
  rw [ofPlain, h]
  dsimp only
  rw [hleft, hright]
  rfl

theorem failsOnly_ofPlain (text : String) :
    FailsOnly (Error.IsCodedOr accident) (ofPlain text) := by
  cases hsplit : equalsSign? text with
  | none =>
      rw [ofPlain, hsplit]
      exact failsOnly_error (.inl rfl)
  | some split =>
      rw [ofPlain_eq hsplit]
      split
      case isTrue => exact failsOnly_error (.inl rfl)
      case isFalse =>
          refine (Token.failsOnly_scan _ _ _).bind fun left hleft => ?_
          refine (Expr.failsOnly_ofTokensOf text hleft).bind fun _ _ => ?_
          refine (Token.failsOnly_scan _ _ _).bind fun right hright => ?_
          exact (Expr.failsOnly_ofTokensOf text hright).bind fun _ _ => failsOnly_pure _

/-- A text that is not read as an equation is refused with a code. -/
theorem failsOnly_ofText (text : String) : FailsOnly (Error.IsCodedOr accident) (ofText text) :=
  (Latex.failsOnly_plainOf text).bind fun plain _ => failsOnly_ofPlain plain

/-- Both sides are as reading makes them. -/
theorem isRead_of_ofText {text : String} {equation : Equation} (h : ofText text = .ok equation) :
    equation.lhs.Everywhere Expr.IsRead ∧ equation.rhs.Everywhere Expr.IsRead := by
  obtain ⟨plain, -, h⟩ := exists_of_bind_eq_ok h
  cases hsplit : equalsSign? plain with
  | none =>
      rw [ofPlain, hsplit] at h
      cases h
  | some split =>
      rw [ofPlain_eq hsplit] at h
      split at h
      case isTrue => cases h
      case isFalse =>
          obtain ⟨left, hleft, h⟩ := exists_of_bind_eq_ok h
          obtain ⟨lhs, hlhs, h⟩ := exists_of_bind_eq_ok h
          obtain ⟨right, hright, h⟩ := exists_of_bind_eq_ok h
          obtain ⟨rhs, hrhs, h⟩ := exists_of_bind_eq_ok h
          cases h
          exact ⟨Expr.isRead_of_ofTokensOf (mapError_eq_ok hleft) hlhs,
            Expr.isRead_of_ofTokensOf (mapError_eq_ok hright) hrhs⟩

end Equation

end Reckoner
