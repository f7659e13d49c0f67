import Reckoner.Token.Lexer
import Mathlib.Data.List.TakeWhile
import Mathlib.Tactic.Common

/-!
# Numbers in texts

The characters that numbers are cut from: a mantissa, an exponent behind it and the imaginary
unit. Each part is cut off where it ends, and what has been cut off is such a part.
-/

namespace Reckoner.Token

open Reckoner.Text

/-! ## Classes of characters -/

theorem has_cons {range : Nat × Nat} {ranges : Ranges} {n : Nat} :
    Ranges.has n (range :: ranges) = true ↔
      range.1 ≤ n ∧ (n ≤ range.2 ∨ Ranges.has n ranges = true) := by
  rw [Ranges.has, Bool.and_eq_true, Bool.or_eq_true, decide_eq_true_eq, decide_eq_true_eq]

/-- The code points of a set. -/
def codes (ranges : Ranges) : List Nat :=
  ranges.flatMap fun range => List.range' range.1 (range.2 + 1 - range.1)

theorem mem_codes {ranges : Ranges} {n : Nat} (h : ranges.has n = true) : n ∈ codes ranges := by
  induction ranges with
  | nil => cases h
  | cons range ranges ih =>
      obtain ⟨hfirst, hlast⟩ := has_cons.mp h
      rw [codes, List.flatMap_cons, List.mem_append, List.mem_range'_1]
      rcases hlast with hlast | hrest
      · exact .inl ⟨hfirst, by omega⟩
      · exact .inr (ih hrest)

/-- A blank ends a name and a number. -/
theorem isNameChar_of_isBlank {c : Char} (h : isBlank c = true) : isNameChar c = false := by
  have hall : ∀ n ∈ codes blanks, isNameChar (Char.ofNat n) = false := by decide +kernel
  have hc := hall c.toNat (mem_codes h)
  rwa [Char.ofNat_toNat] at hc

theorem isNameChar_of_isDigit {c : Char} (h : isDigit c = true) : isNameChar c = true := by
  simp [isNameChar, isAlphanumeric, h]

theorem isNameChar_of_isNameStart {c : Char} (h : isNameStart c = true) :
    isNameChar c = true := by
  rw [isNameStart, Bool.or_eq_true] at h
  rcases h with h | h <;> simp [isNameChar, isAlphanumeric, h]

/-- Two sets without a common code point, which one pass over both of them finds out. -/
def areApart : Ranges → Ranges → Bool
  | [], _ => true
  | range :: ranges, others =>
    let others := others.dropWhile fun other => other.2 < range.1
    (others.head?.all fun other => range.2 < other.1) && areApart ranges others

theorem has_dropWhile {others : Ranges} {low n : Nat} (hlow : low ≤ n) (h : others.has n = true) :
    Ranges.has n (others.dropWhile fun other => other.2 < low) = true := by
  induction others with
  | nil => cases h
  | cons other others ih =>
      rw [List.dropWhile_cons]
      split
      case isTrue hdrop =>
          rw [decide_eq_true_eq] at hdrop
          rcases (has_cons.mp h).2 with hlast | hrest
          · omega
          · exact ih hrest
      case isFalse => exact h

theorem has_eq_false_of_areApart {ranges others : Ranges} {n : Nat}
    (hapart : areApart ranges others = true) (h : ranges.has n = true) : others.has n = false := by
  by_contra hothers
  rw [Bool.not_eq_false] at hothers
  induction ranges generalizing others with
  | nil => cases h
  | cons range ranges ih =>
      obtain ⟨hfirst, hlast | hlater⟩ := has_cons.mp h
      all_goals
        rw [areApart, Bool.and_eq_true] at hapart
        have hrest := has_dropWhile hfirst hothers
      · generalize others.dropWhile (fun other => decide (other.2 < range.1)) = rest at *
        cases rest with
        | nil => cases hrest
        | cons other rest =>
            have hbefore : range.2 < other.1 := by simpa using hapart.1
            have hother := (has_cons.mp hrest).1
            omega
      · exact ih hapart.2 hlater hrest

theorem has_of_mem {ranges : Ranges} {range : Nat × Nat} {n : Nat}
    (hsorted : ranges.Pairwise (·.1 ≤ ·.1)) (hmem : range ∈ ranges) (hfirst : range.1 ≤ n)
    (hlast : n ≤ range.2) : ranges.has n = true := by
  induction ranges with
  | nil => cases hmem
  | cons other ranges ih =>
      rw [List.pairwise_cons] at hsorted
      rcases List.mem_cons.mp hmem with rfl | hmem
      · exact has_cons.mpr ⟨hfirst, .inl hlast⟩
      · have hother := hsorted.1 range hmem
        exact has_cons.mpr ⟨by omega, .inr (ih hsorted.2 hmem)⟩

/-- The decimal digits of all scripts. -/
def decimalDigits : Ranges := zeros.map fun first => (first, first + 9)

theorem has_decimalDigits {c : Char} (h : (digitValue? c).isSome = true) :
    decimalDigits.contains c = true := by
  rw [digitValue?, Option.isSome_map, List.find?_isSome] at h
  obtain ⟨first, hmem, hrange⟩ := h
  rw [Bool.and_eq_true, decide_eq_true_eq, decide_eq_true_eq] at hrange
  have hsorted : decimalDigits.Pairwise (·.1 ≤ ·.1) := by decide +kernel
  have hdigits : (first, first + 9) ∈ decimalDigits := List.mem_map_of_mem hmem
  exact has_of_mem hsorted hdigits hrange.1 (by omega)

/-- No digit is a letter. -/
theorem isLetter_of_isDigit {c : Char} (h : isDigit c = true) : isLetter c = false := by
  rw [isDigit, Bool.or_eq_true] at h
  rcases h with h | h
  · have hapart : areApart decimalDigits letters = true := by decide +kernel
    exact has_eq_false_of_areApart hapart (has_decimalDigits h)
  · have hapart : areApart ornamentDigits letters = true := by decide +kernel
    exact has_eq_false_of_areApart hapart h

theorem isDigit_of_isNameStart {c : Char} (h : isNameStart c = true) : isDigit c = false := by
  rw [isNameStart, Bool.or_eq_true, beq_iff_eq] at h
  rcases h with hletter | rfl
  · by_contra hdigit
    rw [isLetter_of_isDigit (by simpa using hdigit)] at hletter
    cases hletter
  · decide

theorem isBlank_of_isNameChar {c : Char} (h : isNameChar c = true) : isBlank c = false := by
  by_contra hblank
  rw [isNameChar_of_isBlank (by simpa using hblank)] at h
  cases h

/-! ## Parts of a number -/

/-- Digits, and perhaps one point among them. -/
structure IsMantissa (run : List Char) : Prop where
  ne : run ≠ []
  chars : ∀ c ∈ run, isDigit c = true ∨ c = '.'
  points : run.count '.' ≤ 1

/-- Nothing, or an exponent with its digits. -/
inductive IsPower : List Char → Prop
  | none : IsPower []
  | some {c : Char} {sign digits : List Char} (hc : c = 'e' ∨ c = 'E')
      (hsign : sign = [] ∨ sign = ['+'] ∨ sign = ['-']) (hne : digits ≠ [])
      (hdigits : ∀ d ∈ digits, isDigit d = true) : IsPower (c :: (sign ++ digits))

theorem IsMantissa.eq_cons {run : List Char} (h : IsMantissa run) :
    ∃ c rest, run = c :: rest ∧ (isDigit c = true ∨ c = '.') := by
  obtain ⟨c, rest, rfl⟩ := List.exists_cons_of_ne_nil h.ne
  exact ⟨c, rest, rfl, h.chars c List.mem_cons_self⟩

/-- No name and no number goes on. -/
def Boundary (rest : List Char) : Prop :=
  ∀ c ∈ rest.head?, isNameChar c = false ∧ c ≠ '.'

theorem isDigit_of_boundary {rest : List Char} (h : Boundary rest) :
    ∀ c ∈ rest.head?, isDigit c = false ∧ c ≠ '.' := by
  intro c hc
  refine ⟨?_, (h c hc).2⟩
  by_contra hdigit
  have hname := isNameChar_of_isDigit (by simpa using hdigit : isDigit c = true)
  rw [(h c hc).1] at hname
  cases hname

/-! ## What goes on behind -/

/-- An exponent stands in front: its mark, perhaps a sign, and a digit. -/
def OpensPower (cs : List Char) : Prop :=
  ∃ mark sign digit rest, cs = mark :: (sign ++ digit :: rest) ∧ (mark = 'e' ∨ mark = 'E') ∧
    (sign = [] ∨ sign = ['+'] ∨ sign = ['-']) ∧ isDigit digit = true

/-- The imaginary unit stands in front, and no name goes on behind it. -/
def OpensUnit (cs : List Char) : Prop :=
  ∃ rest, cs = 'i' :: rest ∧ ∀ c ∈ rest.head?, isNameChar c = false

/-- A mantissa and an exponent, if there is one, that do not go on in the rest. -/
structure IsLongestNumber (run power rest : List Char) : Prop where
  isMantissa : IsMantissa run
  mantissaEnds : ∀ c ∈ (power ++ rest).head?, isDigit c = false ∧ c ≠ '.'
  isPower : IsPower power
  noPower : power = [] → ¬ OpensPower rest
  powerEnds : power ≠ [] → ∀ c ∈ rest.head?, isDigit c = false

/-! ## Cutting -/

theorem mantissa_append {seen : Bool} {run rest : List Char}
    (hchars : ∀ c ∈ run, isDigit c = true ∨ c = '.') (hpoints : run.count '.' + seen.toNat ≤ 1)
    (hrest : ∀ c ∈ rest.head?, isDigit c = false ∧ c ≠ '.') :
    mantissa seen (run ++ rest) = .ok (run, rest) := by
  induction run generalizing seen with
  | nil =>
      cases rest with
      | nil => rw [List.append_nil, mantissa]
      | cons c rest =>
          obtain ⟨hdigit, hpoint⟩ := hrest c rfl
          rw [List.nil_append, mantissa, if_neg hpoint, if_neg (by simp [hdigit])]
  | cons c run ih =>
      rw [List.forall_mem_cons] at hchars
      rw [List.cons_append, mantissa]
      by_cases hpoint : c = '.'
      · subst hpoint
        rw [List.count_cons_self] at hpoints
        have hseen : seen = false := by cases seen <;> simp at hpoints ⊢
        subst hseen
        have hrun : mantissa true (run ++ rest) = .ok (run, rest) :=
          ih hchars.2 (by simpa using hpoints)
        simp [hrun]
      · rw [List.count_cons_of_ne hpoint] at hpoints
        have hdigit : isDigit c = true := hchars.1.resolve_right hpoint
        simp [hpoint, hdigit, ih hchars.2 hpoints]

theorem mantissa_spec {seen : Bool} {cs run rest : List Char}
    (h : mantissa seen cs = .ok (run, rest)) :
    cs = run ++ rest ∧ (∀ c ∈ run, isDigit c = true ∨ c = '.') ∧
      run.count '.' + seen.toNat ≤ 1 := by
  fun_induction mantissa seen cs generalizing run with
  | case1 seen | case7 seen =>
      cases h
      exact ⟨rfl, by simp, by cases seen <;> decide⟩
  | case3 seen rest' hseen run' tail hrun ih =>
      cases h
      obtain ⟨rfl, hchars, hpoints⟩ := ih hrun
      rw [Bool.not_eq_true] at hseen
      refine ⟨rfl, List.forall_mem_cons.mpr ⟨.inr rfl, hchars⟩, ?_⟩
      rw [List.count_cons_self, hseen]
      exact hpoints
  | case5 seen c rest' hpoint hdigit run' tail hrun ih =>
      cases h
      obtain ⟨rfl, hchars, hpoints⟩ := ih hrun
      refine ⟨rfl, List.forall_mem_cons.mpr ⟨.inl hdigit, hchars⟩, ?_⟩
      rwa [List.count_cons_of_ne hpoint]
  | case2 | case4 | case6 => cases h

theorem mantissa_error {seen : Bool} {cs run : List Char} (h : mantissa seen cs = .error run) :
    ∃ rest, cs = run ++ rest := by
  fun_induction mantissa seen cs generalizing run with
  | case2 rest =>
      cases h
      exact ⟨rest, rfl⟩
  | case4 _ _ _ _ hrun ih | case6 _ _ _ _ _ _ hrun ih =>
      cases h
      obtain ⟨rest, rfl⟩ := ih hrun
      exact ⟨rest, rfl⟩
  | case1 | case3 | case5 | case7 => cases h

theorem mantissa_ends {seen : Bool} {cs run rest : List Char}
    (h : mantissa seen cs = .ok (run, rest)) : ∀ c ∈ rest.head?, isDigit c = false ∧ c ≠ '.' := by
  fun_induction mantissa seen cs generalizing run with
  | case1 =>
      cases h
      simp
  | case3 _ _ _ _ _ hrun ih | case5 _ _ _ _ _ _ _ hrun ih =>
      cases h
      exact ih hrun
  | case7 _ c _ hpoint hdigit =>
      cases h
      intro d hd
      cases hd
      exact ⟨by simpa using hdigit, hpoint⟩
  | case2 | case4 | case6 => cases h

theorem mantissa_ne_nil {c : Char} {cs run rest : List Char}
    (hc : isDigit c = true ∨ c = '.') (h : mantissa false (c :: cs) = .ok (run, rest)) :
    run ≠ [] := by
  rintro rfl
  rw [mantissa] at h
  by_cases hpoint : c = '.'
  · rw [if_pos hpoint] at h
    cases hrun : mantissa true cs <;> rw [hrun] at h <;> cases h
  · rw [if_neg hpoint, if_pos (hc.resolve_right hpoint)] at h
    cases hrun : mantissa false cs <;> rw [hrun] at h <;> cases h

theorem takeWhile_append_of_head {p : Char → Bool} {as bs : List Char}
    (has : ∀ c ∈ as, p c = true) (hbs : ∀ c ∈ bs.head?, p c = false) :
    (as ++ bs).takeWhile p = as ∧ (as ++ bs).dropWhile p = bs := by
  have hend : bs.takeWhile p = [] ∧ bs.dropWhile p = bs := by
    cases bs with
    | nil => exact ⟨rfl, rfl⟩
    | cons c bs => simp [hbs c rfl]
  rw [List.takeWhile_append_of_pos has, List.dropWhile_append_of_pos has, hend.1, hend.2,
    List.append_nil]
  exact ⟨rfl, rfl⟩

theorem signRun_append {sign digits : List Char}
    (hsign : sign = [] ∨ sign = ['+'] ∨ sign = ['-'])
    (hdigits : ∃ d ∈ digits.head?, isDigit d = true) : signRun (sign ++ digits) = (sign, digits) := by
  rcases hsign with rfl | rfl | rfl
  · obtain ⟨d, hd, hdigit⟩ := hdigits
    cases digits with
    | nil => cases hd
    | cons e digits =>
        cases hd
        rw [List.nil_append]
        unfold signRun
        split
        case h_3 => rfl
        all_goals
          exfalso
          revert hdigit
          simp_all +decide
  · rfl
  · rfl

theorem signRun_spec (cs : List Char) : cs = (signRun cs).1 ++ (signRun cs).2 ∧
    ((signRun cs).1 = [] ∨ (signRun cs).1 = ['+'] ∨ (signRun cs).1 = ['-']) := by
  unfold signRun
  split <;> simp

theorem exponent_spec (cs : List Char) :
    cs = (exponent cs).1 ++ (exponent cs).2 ∧ IsPower (exponent cs).1 := by
  have hnone : ∀ cs : List Char, cs = [] ++ cs ∧ IsPower [] := fun _ => ⟨rfl, .none⟩
  cases cs with
  | nil => exact hnone []
  | cons c rest =>
      rw [exponent]
      split
      case isFalse => exact hnone _
      case isTrue hc =>
          have hsign := signRun_spec rest
          dsimp only
          split
          case isTrue => exact hnone _
          case isFalse hne =>
              refine ⟨?_, .some hc hsign.2 hne fun d hd => List.mem_takeWhile_imp hd⟩
              have hsplit : (signRun rest).2.takeWhile isDigit ++
                  (signRun rest).2.dropWhile isDigit = (signRun rest).2 :=
                List.takeWhile_append_dropWhile
              rw [List.cons_append, List.append_assoc, hsplit, ← hsign.1]

theorem exponent_eq {power rest : List Char} (hpower : IsPower power)
    (hnone : power = [] → ¬ OpensPower rest)
    (hends : power ≠ [] → ∀ c ∈ rest.head?, isDigit c = false) :
    exponent (power ++ rest) = (power, rest) := by
  cases hpower with
  | none =>
      obtain ⟨htext, hfound⟩ := exponent_spec rest
      cases hfound' : (exponent rest).1 with
      | nil =>
          rw [hfound', List.nil_append] at htext
          rw [List.nil_append, Prod.ext_iff]
          exact ⟨hfound', htext.symm⟩
      | cons mark found =>
          exfalso
          rw [hfound'] at htext hfound
          generalize (exponent rest).2 = tail at htext
          subst htext
          cases hfound with
          | @some c sign digits hmark hsign hne hdigits =>
              obtain ⟨d, digits, rfl⟩ := List.exists_cons_of_ne_nil hne
              refine hnone rfl ⟨_, sign, d, digits ++ tail, ?_, hmark, hsign,
                hdigits d List.mem_cons_self⟩
              simp
  | @some c sign digits hmark hsign hne hdigits =>
      have hends := hends (by simp)
      obtain ⟨htake, hdrop⟩ := takeWhile_append_of_head hdigits hends
      have hrun : signRun (sign ++ (digits ++ rest)) = (sign, digits ++ rest) := by
        obtain ⟨d, digits, rfl⟩ := List.exists_cons_of_ne_nil hne
        exact signRun_append hsign ⟨d, rfl, hdigits d List.mem_cons_self⟩
      rw [List.cons_append, List.append_assoc, exponent, if_pos hmark, hrun]
      simp only [htake, hdrop, hne, if_false]

theorem exponent_append {power rest : List Char} (hpower : IsPower power)
    (hrest : ∀ c ∈ rest.head?, isDigit c = false ∧ c ≠ 'e' ∧ c ≠ 'E') :
    exponent (power ++ rest) = (power, rest) := by
  refine exponent_eq hpower (fun _ hopens => ?_) fun _ c hc => (hrest c hc).1
  obtain ⟨mark, sign, digit, tail, rfl, hmark, -⟩ := hopens
  obtain ⟨-, he, hE⟩ := hrest mark rfl
  exact hmark.elim he hE

theorem exponent_of_opensPower {cs : List Char} (h : OpensPower cs) : (exponent cs).1 ≠ [] := by
  obtain ⟨mark, sign, digit, rest, rfl, hmark, hsign, hdigit⟩ := h
  have hrun : signRun (sign ++ digit :: rest) = (sign, digit :: rest) :=
    signRun_append hsign ⟨digit, rfl, hdigit⟩
  rw [exponent, if_pos hmark, hrun]
  simp [hdigit]

/-- An exponent ends where no digit goes on. -/
theorem exponent_ends {cs : List Char} (h : (exponent cs).1 ≠ []) :
    ∀ c ∈ (exponent cs).2.head?, isDigit c = false := by
  cases cs with
  | nil => exact absurd rfl h
  | cons c rest =>
      rw [exponent] at h ⊢
      split
      case isFalse hmark => rw [if_neg hmark] at h; exact absurd rfl h
      case isTrue hmark =>
          rw [if_pos hmark] at h
          dsimp only at h ⊢
          split
          case isTrue hnone => rw [if_pos hnone] at h; exact absurd rfl h
          case isFalse =>
              intro d hd
              have hdrop := List.head?_dropWhile_not isDigit (signRun rest).2
              rw [Option.mem_def.mp hd] at hdrop
              simpa using hdrop

theorem imaginaryUnit_iff {cs : List Char} : (imaginaryUnit cs).1 = true ↔ OpensUnit cs := by
  constructor
  · intro h
    unfold imaginaryUnit at h
    split at h
    case h_1 c rest =>
        split at h
        case isTrue => cases h
        case isFalse hname =>
            refine ⟨c :: rest, rfl, fun d hd => ?_⟩
            cases hd
            simpa using hname
    case h_2 => exact ⟨[], rfl, by simp⟩
    case h_3 => cases h
  · rintro ⟨rest, rfl, hends⟩
    cases rest with
    | nil => rfl
    | cons c rest =>
        rw [imaginaryUnit, hends c rfl]
        rfl

theorem imaginaryUnit_of_boundary {rest : List Char} (h : Boundary rest) :
    imaginaryUnit rest = (false, rest) ∧ imaginaryUnit ('i' :: rest) = (true, rest) := by
  cases rest with
  | nil => exact ⟨rfl, rfl⟩
  | cons c rest =>
      obtain ⟨hname, -⟩ := h c rfl
      have hne : c ≠ 'i' := by
        rintro rfl
        revert hname
        decide
      constructor
      · unfold imaginaryUnit
        split <;> simp_all
      · rw [imaginaryUnit, hname]
        rfl

/-- Where no name and no number goes on, a number is the longest one. -/
theorem IsLongestNumber.of_boundary {run power rest : List Char} (hrun : IsMantissa run)
    (hpower : IsPower power)
    (hrest : ∀ c ∈ rest.head?, isDigit c = false ∧ c ≠ '.' ∧ c ≠ 'e' ∧ c ≠ 'E') :
    IsLongestNumber run power rest where
  isMantissa := hrun
  mantissaEnds := by
    cases hpower with
    | none => exact fun c hc => ⟨(hrest c hc).1, (hrest c hc).2.1⟩
    | some hmark =>
        intro c hc
        cases hc
        rcases hmark with rfl | rfl <;> decide
  isPower := hpower
  noPower := by
    rintro - ⟨mark, sign, digit, tail, rfl, hmark, -⟩
    obtain ⟨-, -, he, hE⟩ := hrest mark rfl
    exact hmark.elim he hE
  powerEnds := fun _ c hc => (hrest c hc).1

theorem number_eq {run power rest : List Char} {x : Float} (h : IsLongestNumber run power rest)
    (hread : Double.read? (run ++ power) = some x) :
    number (fun run => run) (run ++ power ++ rest) =
      if (imaginaryUnit rest).1 then .ok (.imaginary x, run.length + power.length + 1)
      else .ok (.number x, run.length + power.length) := by
  have hmantissa : mantissa false (run ++ power ++ rest) = .ok (run, power ++ rest) := by
    rw [List.append_assoc]
    exact mantissa_append h.isMantissa.chars (by simpa using h.isMantissa.points) h.mantissaEnds
  have hexponent := exponent_eq h.isPower h.noPower h.powerEnds
  unfold number
  rw [hmantissa]
  dsimp only
  rw [hexponent]
  dsimp only
  rw [hread]

end Reckoner.Token
