import Reckoner.Proofs.Expr.Refusal
import Reckoner.Proofs.Expr.ViablePrefix
import Reckoner.Proofs.Token.Segmentation

/-!
# Where reading fails

Every text that is not read is refused at a place in it, or right behind its end. The refusals of
LaTeX have their places in the text; the scanner places its tokens in the text, and the parser
refuses none but tokens. Refusals of LaTeX do not name a text as yet, all others name the plain
notation that they are found in.
-/

namespace Reckoner

variable {length : Nat} {text : String}

theorem Error.position_within (err : Error) (text : String) :
    (err.within text).position = err.position := by
  unfold within
  split <;> rfl

/-- An error of syntax that has a place within a length, and no text as yet. -/
structure Error.IsWithin (length : Nat) (err : Error) : Prop where
  kind : err.cause.kind.IsSyntactic
  equation : err.equation = none
  position : ∃ p, err.position = some p ∧ 0 ≤ p ∧ p ≤ length

/-- An error of syntax that names the text, and has a place in it or right behind it. -/
structure Error.IsIn (text : String) (err : Error) : Prop where
  kind : err.cause.kind.IsSyntactic
  equation : err.equation = some text
  position : ∃ p, err.position = some p ∧ 0 ≤ p ∧ p ≤ text.length

theorem Error.isWithin_located {cause : Cause} {p : Int} (hkind : cause.kind.IsSyntactic)
    (hlow : 0 ≤ p) (hhigh : p ≤ length) : (Error.located cause p).IsWithin length :=
  ⟨hkind, rfl, p, rfl, hlow, hhigh⟩

theorem Error.IsWithin.equation_within {err : Error} (h : err.IsWithin length) (text : String) :
    (err.within text).equation = some text := by
  have htyped : err.isTyped = true := Cause.code_of_isSyntactic h.kind
  have hnames : (err.isTyped && err.equation.isNone) = true := by rw [htyped, h.equation]; rfl
  rw [within, if_pos hnames]

theorem Error.IsWithin.within {err : Error} (h : err.IsWithin text.length) :
    (err.within text).IsIn text :=
  ⟨by rw [cause_within]; exact h.kind, h.equation_within text,
    by rw [position_within]; exact h.position⟩

/-- An error that names its text keeps it. -/
theorem Error.IsIn.within_eq {err : Error} (h : err.IsIn text) (other : String) :
    err.within other = err := by
  have hnames : ¬(err.isTyped && err.equation.isNone) = true := by simp [h.equation]
  rw [within, if_neg hnames]

/-! ## LaTeX -/

theorem Error.IsPlaced.isWithin {source : List Char} {err : Error} (h : err.IsPlaced source) :
    err.IsWithin source.length := by
  obtain ⟨cause, p, rfl, hplaced⟩ := h
  exact isWithin_located (.inr hplaced.code.2) (Int.natCast_nonneg p) (Int.ofNat_le.mpr hplaced.le)

theorem Latex.failsOnly_plainOf_within (text : String) :
    FailsOnly (Error.IsWithin text.length) (plainOf text) := by
  rw [← String.length_toList]
  exact (failsOnly_plainOf_isPlaced text).mono fun _ herr => herr.isWithin

/-! ## Tokens -/

namespace Token

/-- A token within the length. -/
def IsWithin (length : Nat) (token : Token) : Prop := 0 ≤ token.position ∧ token.position ≤ length

theorem meets_scan {position : Int} {cs : List Char} (hlow : 0 ≤ position)
    (hhigh : position + cs.length ≤ length) :
    Meets (∀ token ∈ ·, IsWithin length token) (Error.IsWithin length) (scan position cs) := by
  cases hscan : scan position cs with
  | ok tokens =>
      intro t ht
      obtain ⟨hbefore, hbehind⟩ := (segments_of_scan hscan).position_mem t ht
      exact ⟨by omega, by omega⟩
  | error err =>
      obtain ⟨front, c, behind, tokens, cause, rfl, -, hc, rfl⟩ := exists_segments_of_scan hscan
      rw [List.length_append] at hhigh
      exact Error.isWithin_located (.inl (kind_of_reading hc)) (by omega) (by omega)

end Token

/-! ## Trees -/

namespace Expr

theorem isEnded_of_scan {position : Int} {cs : List Char} {tokens : List Token}
    (h : Token.scan position cs = .ok tokens) : IsEnded tokens := by
  obtain ⟨ls, hls, hproper⟩ := (Token.scans_of_scan h).cut.isProper
  obtain ⟨init, ends, rfl, hinit, hends⟩ := List.map_eq_append_iff.mp hls
  obtain ⟨last, rfl, hlast⟩ := List.map_eq_singleton_iff.mp hends
  refine ⟨init, last, rfl, fun token htoken => ?_, hlast⟩
  have hlexeme := hproper token.lexeme (hinit ▸ List.mem_map_of_mem htoken)
  cases hkind : token.lexeme <;> rw [hkind] at hlexeme
  all_goals first | exact hlexeme.elim | trivial

/-- Tokens are refused at one of them. -/
theorem failsOnly_ofTokens {position : Int} {cs : List Char} {tokens : List Token}
    (h : Token.scan position cs = .ok tokens) (hplaces : ∀ token ∈ tokens, token.IsWithin length) :
    FailsOnly (Error.IsWithin length) (ofTokens tokens) := by
  intro err herr
  rcases settles 0 known_nil (isEnded_of_scan h) with
    ⟨e, he⟩ | ⟨read, token, rest, rfl, ⟨cause, hkind, hcause⟩, -⟩
  case inl =>
      rw [ofTokens_of_readFrom he] at herr
      cases herr
  case inr =>
      rw [ofTokens, hcause] at herr
      cases herr
      obtain ⟨hlow, hhigh⟩ := hplaces token (by simp)
      exact Error.isWithin_located (.inr hkind) hlow hhigh

section Slices

variable {position : Int} {cs : List Char} (hlow : 0 ≤ position)
  (hhigh : position + cs.length ≤ text.length)

include hlow hhigh

/-- A run of characters of a text is refused in the text. -/
theorem isIn_scan : FailsOnly (Error.IsIn text) (Token.inText text (Token.scan position cs)) :=
  ((Token.meets_scan hlow hhigh).failsOnly.mono fun _ herr => herr.within).mapError

theorem isIn_ofTokensOf {tokens : List Token}
    (h : Token.inText text (Token.scan position cs) = .ok tokens) :
    FailsOnly (Error.IsIn text) (ofTokensOf text tokens) := by
  have htokens := mapError_eq_ok h
  have hplaces := Token.meets_scan hlow hhigh
  rw [htokens] at hplaces
  exact ((failsOnly_ofTokens htokens hplaces).mono fun _ herr => herr.within).mapError

end Slices

theorem isIn_ofPlain (text : String) : FailsOnly (Error.IsIn text) (ofPlain text) := by
  have hhigh : (0 : Int) + text.toList.length ≤ text.length := by simp [String.length_toList]
  rw [ofPlain, Token.tokenize_eq]
  exact (isIn_scan (Int.le_refl 0) hhigh).bind fun _ htokens =>
    isIn_ofTokensOf (Int.le_refl 0) hhigh htokens

end Expr

/-! ## Texts -/

/-- What a text is refused with: an error in its plain notation, or, where its LaTeX is refused
already, an error in the text itself that does not name it. -/
def Error.IsRefusalOf (source : String) (err : Error) : Prop :=
  Latex.plainOf source = .error err ∧ err.IsWithin source.length ∨
    ∃ plain, Latex.plainOf source = .ok plain ∧ err.IsIn plain

theorem Error.IsRefusalOf.kind {source : String} {err : Error} (h : err.IsRefusalOf source) :
    err.cause.kind.IsSyntactic := by
  obtain ⟨-, hwithin⟩ | ⟨_, -, hin⟩ := h
  · exact hwithin.kind
  · exact hin.kind

theorem failsOnly_plainOf_bind {β : Type} {f : String → Except Error β}
    (hf : ∀ plain, FailsOnly (Error.IsIn plain) (f plain)) (source : String) :
    FailsOnly (Error.IsRefusalOf source) (Latex.plainOf source >>= f) := by
  intro err herr
  cases hplain : Latex.plainOf source with
  | error first =>
      rw [hplain] at herr
      cases herr
      exact .inl ⟨hplain, Latex.failsOnly_plainOf_within source err hplain⟩
  | ok plain =>
      rw [hplain] at herr
      exact .inr ⟨plain, hplain, hf plain err herr⟩

theorem Expr.isRefusalOf_of_ofText {source : String} {err : Error}
    (h : ofText source = .error err) : err.IsRefusalOf source :=
  failsOnly_plainOf_bind isIn_ofPlain source err h

namespace Equation

theorem isIn_ofPlain (text : String) : FailsOnly (Error.IsIn text) (ofPlain text) := by
  cases hsplit : equalsSign? text with
  | none =>
      rw [ofPlain, hsplit]
      exact failsOnly_error ⟨.inr rfl, rfl, 0, rfl, Int.le_refl 0, Int.natCast_nonneg _⟩
  | some split =>
      have hlt := equalsSign?_lt hsplit
      rw [ofPlain_eq hsplit]
      split
      case isTrue =>
          exact failsOnly_error ⟨.inr rfl, rfl, split, rfl, Int.natCast_nonneg _,
            Int.ofNat_le.mpr (Nat.le_of_lt hlt)⟩
      case isFalse =>
          have hleft : (0 : Int) + (text.toList.take split).length ≤ text.length := by
            rw [List.length_take, String.length_toList]
            omega
          have hright : ((split + 1 : Nat) : Int) + (text.toList.drop (split + 1)).length ≤
              text.length := by
            rw [List.length_drop, String.length_toList]
            omega
          refine (Expr.isIn_scan (Int.le_refl 0) hleft).bind fun left hlhs => ?_
          refine (Expr.isIn_ofTokensOf (Int.le_refl 0) hleft hlhs).bind fun _ _ => ?_
          refine (Expr.isIn_scan (Int.natCast_nonneg _) hright).bind fun right hrhs => ?_
          exact (Expr.isIn_ofTokensOf (Int.natCast_nonneg _) hright hrhs).bind fun _ _ =>
            failsOnly_pure _

theorem isRefusalOf_of_ofText {source : String} {err : Error}
    (h : ofText source = .error err) : err.IsRefusalOf source :=
  failsOnly_plainOf_bind isIn_ofPlain source err h

end Equation

end Reckoner
