import Reckoner.Proofs.Double.Numeral
import Reckoner.Proofs.Token.Window

/-!
# Texts of one lexeme

A numeral is one lexeme, with the imaginary unit behind it too. A name may be read as any lexeme
or as none; where it is one, it stands for that lexeme as a piece of every text.
-/

namespace Reckoner.Token

open Reckoner.Text Reckoner.Double

/-! ## Numerals -/

theorem isDigit_of_isDigit {c : Char} (h : c.isDigit = true) : isDigit c = true := by
  rw [isDigit, digitValue?_of_isDigit h]
  rfl

theorem isMantissa_mantissa (n : Numeral) : IsMantissa n.mantissa := by
  have hcount {ds : List Char} (hds : IsDigits ds) : ds.count '.' = 0 := by
    rw [List.count_eq_zero]
    intro hpoint
    exact absurd (hds _ hpoint) (by decide)
  have hwhole := n.isDigits_whole
  have hfraction := n.isDigits_fraction
  have hne := n.whole_ne
  unfold Numeral.mantissa
  cases hparts : n.fraction with
  | nil =>
      refine ⟨hne, fun c hc => .inl (isDigit_of_isDigit (hwhole c hc)), ?_⟩
      rw [joinPoint, hcount hwhole]
      exact Nat.zero_le 1
  | cons d ds =>
      rw [hparts] at hfraction
      refine ⟨by simp [joinPoint], fun c hc => ?_, ?_⟩
      · rcases List.mem_append.mp hc with hc | hc
        · exact .inl (isDigit_of_isDigit (hwhole c hc))
        · rcases List.mem_cons.mp hc with rfl | hc
          · exact .inr rfl
          · exact .inl (isDigit_of_isDigit (hfraction c hc))
      · change (n.whole ++ '.' :: d :: ds).count '.' ≤ 1
        rw [List.count_append, List.count_cons_self, hcount hwhole, hcount hfraction]

theorem isPower_powerText (n : Numeral) : IsPower n.powerText := by
  unfold Numeral.powerText
  cases n.power with
  | none => exact .none
  | some e =>
      have hdigits : ∀ d ∈ exponentDigits e, isDigit d = true :=
        fun d hd => isDigit_of_isDigit (isDigits_exponentDigits e d hd)
      have hsign : [if e < 0 then '-' else '+'] = [] ∨ [if e < 0 then '-' else '+'] = ['+'] ∨
          [if e < 0 then '-' else '+'] = ['-'] := by
        split <;> simp
      exact .some (.inl rfl) hsign (exponentDigits_ne e) hdigits

theorem spells_numeral (n : Numeral) : Spells n.text (.number (ofDecimal false n.decimal)) :=
  .number (isMantissa_mantissa n) (isPower_powerText n) (read?_text n)

theorem spells_numeral_unit (n : Numeral) :
    Spells (n.text ++ ['i']) (.imaginary (ofDecimal false n.decimal)) :=
  .imaginary (isMantissa_mantissa n) (isPower_powerText n) (read?_text n)

/-- A numeral beyond all doubles. -/
theorem isNumber_infinite : IsMantissa ['1'] ∧ IsPower ['e', '9', '9', '9'] ∧
    read? (['1'] ++ ['e', '9', '9', '9']) = some infinity := by
  have hone : ∀ c ∈ ['1'], isDigit c = true ∨ c = '.' := by
    intro c hc
    rw [List.mem_singleton.mp hc]
    decide
  have hdigits : ∀ d ∈ List.replicate 3 '9', isDigit d = true := by
    intro d hd
    rw [List.eq_of_mem_replicate hd]
    decide
  exact ⟨⟨by simp, hone, by decide⟩, .some (.inl rfl) (.inl rfl) (by simp) hdigits, by rfl⟩

theorem spells_infinite : Spells "1e999".toList (.number infinity) := by
  obtain ⟨hrun, hpower, hread⟩ := isNumber_infinite
  exact .number hrun hpower hread

theorem spells_infinite_unit : Spells "1e999i".toList (.imaginary infinity) := by
  obtain ⟨hrun, hpower, hread⟩ := isNumber_infinite
  exact .imaginary hrun hpower hread

/-! ## Names -/

/-- The lexeme that a text is read as, if it is one. -/
def lexemeOf? (text : String) : Option Lexeme :=
  match tokenize text with
  | .ok [token, _] => some token.lexeme
  | _ => none

theorem Cut.of_lexemeOf? {text : String} {l : Lexeme} (h : lexemeOf? text = some l) :
    Cut text.toList [l, .finish] := by
  unfold lexemeOf? at h
  split at h
  case h_2 => cases h
  case h_1 token last htokens =>
      cases h
      have hcut := (scans_iff_tokenize.mpr ⟨_, htokens, rfl⟩).cut
      obtain ⟨read, hread, -⟩ := hcut.isProper
      have hlast : last.lexeme = .finish := by
        have hend := congrArg List.getLast? hread
        simpa using hend
      rwa [List.map_cons, List.map_cons, List.map_nil, hlast] at hcut

theorem Spells.lexemeOf? {text : String} {l : Lexeme} (h : Spells text.toList l) :
    lexemeOf? text = some l := by
  obtain ⟨tokens, htokens, hlexemes⟩ := scans_iff_tokenize.mp h.lexes.scans
  have hne : tokens ≠ [] := by
    rintro rfl
    cases hlexemes
  obtain ⟨token, rest, rfl⟩ := List.exists_cons_of_ne_nil hne
  rw [List.map_cons] at hlexemes
  injection hlexemes with htoken hrest
  obtain ⟨last, rfl⟩ : ∃ last, rest = [last] := by
    have hlength := congrArg List.length hrest
    exact List.length_eq_one_iff.mp (by simpa using hlength)
  unfold Token.lexemeOf?
  rw [htokens, ← htoken]

theorem spells_word {c : Char} {rest : List Char} (hdigit : isDigit c = false) (hpi : c ≠ 'π')
    (hstart : isNameStart c = true) (hrest : rest.all isNameChar = true) :
    Spells (c :: rest) (named (String.ofList (c :: rest))) :=
  .name hdigit hpi hstart (List.all_eq_true.mp hrest)

theorem spells_constant {name : String} (h : Constant.isName name = true) :
    Spells name.toList (.constant name) := by
  obtain ⟨c, hc⟩ := Option.isSome_iff_exists.mp h
  have hname : c.name = name := by simpa using List.find?_some hc
  rw [← hname]
  cases c
  all_goals
    exact spells_word (by decide) (by decide) (by decide) (by decide)

/-- A letter or an underscore, but not the sign of a constant, and letters, numerals and underscores
behind it. -/
def IsIdentifier (name : String) : Prop :=
  ∃ c rest, name.toList = c :: rest ∧ isNameStart c = true ∧ c ≠ 'π' ∧
    ∀ d ∈ rest, isNameChar d = true

/-- An identifier is read as what it is the name of. -/
theorem IsIdentifier.lexemeOf? {name : String} (h : IsIdentifier name) :
    lexemeOf? name = some (named name) := by
  obtain ⟨c, rest, htext, hstart, hpi, hrest⟩ := h
  have hname : String.ofList (c :: rest) = name := by rw [← htext, String.ofList_toList]
  have hspells : Spells (c :: rest) (named (String.ofList (c :: rest))) :=
    .name (isDigit_of_isNameStart hstart) hpi hstart hrest
  rw [hname, ← htext] at hspells
  exact hspells.lexemeOf?

/-- A run that stands for a variable or a function is an identifier, and its name. -/
theorem Spells.isIdentifier {run : List Char} {l : Lexeme} {name : String} (h : Spells run l)
    (hl : l = .var name ∨ l = .function name) : IsIdentifier name ∧ named name = l := by
  cases h with
  | @name c rest _ hpi hstart hrest =>
      have hname : String.ofList (c :: rest) = name := by
        unfold named at hl
        split at hl
        case isTrue => simpa using hl
        case isFalse =>
            split at hl
            case isTrue => rcases hl with hl | hl <;> cases hl
            case isFalse => simpa using hl
      rw [hname]
      refine ⟨⟨c, rest, ?_, hstart, hpi, hrest⟩, rfl⟩
      rw [← hname, String.toList_ofList]
  | _ => rcases hl with hl | hl <;> cases hl

theorem isIdentifier_of_lexemeOf? {name : String} {l : Lexeme} (h : lexemeOf? name = some l)
    (hl : l = .var name ∨ l = .function name) : IsIdentifier name ∧ named name = l := by
  obtain ⟨-, run, -, -, hrun, -⟩ := (Cut.of_lexemeOf? h).single
  exact hrun.isIdentifier hl

/-- The name of what is not a number, with the imaginary unit behind it, is another name. -/
theorem spells_nan_unit : Spells "nani".toList (.var "nani") :=
  spells_word (by decide) (by decide) (by decide) (by decide)

end Reckoner.Token
