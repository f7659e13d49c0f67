import Reckoner.Double.Reading
import Reckoner.Double.Notation
import Mathlib.Tactic.Common

/-!
# Numerals

The form in which numbers are written, and that reading one gives the decimal that it spells.
-/

namespace Reckoner.Double

open Reckoner.Text

/-- A plain digit. -/
abbrev IsDigits (cs : List Char) : Prop := ∀ c ∈ cs, c.isDigit = true

/-- The parts of a number in plain notation: digits, perhaps a point and further digits, and
perhaps an exponent. -/
structure Numeral where
  whole : List Char
  fraction : List Char
  power : Option Int
  whole_ne : whole ≠ []
  digits : IsDigits (whole ++ fraction)

namespace Numeral

/-- The digits with their point. -/
def mantissa (n : Numeral) : List Char := joinPoint (n.whole, n.fraction)

/-- The exponent, if there is one. -/
def powerText (n : Numeral) : List Char := n.power.elim [] exponentText

/-- The text of a numeral. -/
def text (n : Numeral) : List Char := n.mantissa ++ n.powerText

/-- The decimal that a numeral spells. -/
def decimal (n : Numeral) : Decimal :=
  ⟨Nat.ofDigitChars 10 (n.whole ++ n.fraction) 0, n.power.getD 0 - n.fraction.length⟩

end Numeral

/-! ## Digits -/

theorem isDigit_iff (c : Char) : c.isDigit = true ↔ 48 ≤ c.toNat ∧ c.toNat ≤ 57 := by
  simp [Char.isDigit, UInt32.le_iff_toNat_le]

theorem digitValue?_of_isDigit {c : Char} (h : c.isDigit = true) :
    digitValue? c = some (c.toNat - 48) := by
  obtain ⟨hlow, hhigh⟩ := (isDigit_iff c).mp h
  unfold digitValue? Text.zeros
  rw [List.find?_cons_of_pos (by simp; omega)]
  rfl

theorem digitRun_append {ds rest : List Char} (hds : IsDigits ds)
    (hrest : ∀ c ∈ rest.head?, digitValue? c = none) :
    digitRun (ds ++ rest) = (ds.map (·.toNat - 48), rest) := by
  induction ds with
  | nil =>
      cases rest with
      | nil => rfl
      | cons c rest => simp [digitRun, hrest c rfl]
  | cons d ds ih =>
      have hd := digitValue?_of_isDigit (hds d List.mem_cons_self)
      have hds' : IsDigits ds := fun c hc => hds c (List.mem_cons_of_mem d hc)
      rw [List.cons_append, digitRun]
      simp [hd, ih hds']

theorem ofDigits_map (ds : List Char) :
    ofDigits (ds.map (·.toNat - 48)) = Nat.ofDigitChars 10 ds 0 := by
  rw [ofDigits, List.foldl_map]
  rfl

theorem isDigits_toDigits (n : Nat) : IsDigits (Nat.toDigits 10 n) :=
  fun _ hc => Nat.isDigit_of_mem_toDigits (by decide) (by decide) hc

theorem isDigits_replicate (n : Nat) : IsDigits (List.replicate n '0') := by
  intro c hc
  rw [List.eq_of_mem_replicate hc]
  rfl

theorem IsDigits.append {as bs : List Char} (ha : IsDigits as) (hb : IsDigits bs) :
    IsDigits (as ++ bs) := by
  intro c hc
  rcases List.mem_append.mp hc with hc | hc
  · exact ha c hc
  · exact hb c hc

/-! ## Exponents -/

/-- The digits of an exponent, of which there are at least two. -/
def exponentDigits (e : Int) : List Char :=
  List.replicate (2 - (Nat.toDigits 10 e.natAbs).length) '0' ++ Nat.toDigits 10 e.natAbs

theorem exponentText_eq (e : Int) :
    exponentText e = 'e' :: (if e < 0 then '-' else '+') :: exponentDigits e := rfl

theorem isDigits_exponentDigits (e : Int) : IsDigits (exponentDigits e) :=
  (isDigits_replicate _).append (isDigits_toDigits _)

theorem exponentDigits_ne (e : Int) : exponentDigits e ≠ [] :=
  List.append_ne_nil_of_right_ne_nil _ Nat.toDigits_ne_nil

theorem ofDigitChars_exponentDigits (e : Int) :
    Nat.ofDigitChars 10 (exponentDigits e) 0 = e.natAbs := by
  rw [exponentDigits, Nat.ofDigitChars_append, Nat.ofDigitChars_replicate_zero, Nat.mul_zero,
    Nat.ofDigitChars_ten_toDigits]

theorem exponentPart?_exponentText (e : Int) : exponentPart? (exponentText e) = some e := by
  have hrun : digitRun (exponentDigits e) = ((exponentDigits e).map (·.toNat - 48), []) := by
    have hend : ∀ c ∈ ([] : List Char).head?, digitValue? c = none := by simp
    have h := digitRun_append (isDigits_exponentDigits e) hend
    rwa [List.append_nil] at h
  have hvalue := ofDigits_map (exponentDigits e)
  rw [ofDigitChars_exponentDigits] at hvalue
  have hne : (exponentDigits e).map (·.toNat - 48) ≠ [] := by
    simpa using exponentDigits_ne e
  rw [exponentText_eq, exponentPart?]
  generalize (exponentDigits e).map (·.toNat - 48) = ds at *
  cases ds with
  | nil => contradiction
  | cons d ds =>
      by_cases hneg : e < 0
      · have hvalue' : -(e.natAbs : Int) = e := by omega
        simp only [hneg, ↓reduceIte, true_or, signPart, hrun, hvalue, hvalue']
      · have hvalue' : (e.natAbs : Int) = e := by omega
        simp only [hneg, ↓reduceIte, true_or, signPart, hrun, hvalue, hvalue',
          Bool.false_eq_true]

/-! ## Reading a numeral -/

namespace Numeral

variable (n : Numeral)

theorem isDigits_whole : IsDigits n.whole :=
  fun c hc => n.digits c (List.mem_append_left _ hc)

theorem isDigits_fraction : IsDigits n.fraction :=
  fun c hc => n.digits c (List.mem_append_right _ hc)

theorem powerText_head : ∀ c ∈ n.powerText.head?, digitValue? c = none := by
  unfold powerText
  cases n.power with
  | none => simp
  | some e =>
      intro c hc
      cases hc
      decide

theorem exponentPart?_powerText : exponentPart? n.powerText = some (n.power.getD 0) := by
  unfold powerText
  cases n.power with
  | none => rfl
  | some e => exact exponentPart?_exponentText e

theorem decimal?_of_parts {s rest tail : List Char} {whole fraction : List Nat} {e : Int}
    (hwhole : digitRun s = (whole, rest)) (hfraction : fractionPart rest = (fraction, tail))
    (hpower : exponentPart? tail = some e) (hne : whole ≠ []) :
    decimal? s = some ⟨ofDigits (whole ++ fraction), e - fraction.length⟩ := by
  have hempty : whole.isEmpty = false := by simpa using hne
  unfold decimal?
  simp only [hwhole, hfraction, hpower, hempty, Bool.false_and, Bool.false_eq_true, if_false,
    Option.map_some]

/-- A numeral is read digit by digit. -/
theorem decimal?_text : decimal? n.text = some n.decimal := by
  have hne : n.whole.map (·.toNat - 48) ≠ [] := by simpa using n.whole_ne
  have hpower := n.exponentPart?_powerText
  have hparts (fraction : List Char) (rest : List Char) (hfraction : n.fraction = fraction)
      (hpoint : fractionPart rest = (fraction.map (·.toNat - 48), n.powerText))
      (htext : n.text = n.whole ++ rest) (hrest : ∀ c ∈ rest.head?, digitValue? c = none) :
      decimal? n.text = some n.decimal := by
    have hwhole := digitRun_append n.isDigits_whole hrest
    rw [← htext] at hwhole
    rw [decimal?_of_parts hwhole hpoint hpower hne, ← List.map_append, ofDigits_map,
      List.length_map, ← hfraction]
    rfl
  cases hfraction : n.fraction with
  | nil =>
      apply hparts [] n.powerText hfraction
      · unfold powerText
        cases n.power <;> rfl
      · rw [text, mantissa, hfraction, joinPoint]
      · exact n.powerText_head
  | cons d ds =>
      have hds := n.isDigits_fraction
      rw [hfraction] at hds
      apply hparts (d :: ds) ('.' :: (d :: ds ++ n.powerText)) hfraction
      · rw [fractionPart]
        exact digitRun_append hds n.powerText_head
      · rw [text, mantissa, hfraction]
        simp [joinPoint]
      · intro c hc
        cases hc
        decide

/-! ## The text as a whole -/

/-- The characters that numerals are made of. -/
theorem mem_text {c : Char} (h : c ∈ n.text) :
    c.isDigit = true ∨ c = '.' ∨ c = 'e' ∨ c = '-' ∨ c = '+' := by
  have hmantissa : c ∈ n.mantissa → c.isDigit = true ∨ c = '.' := by
    unfold mantissa
    cases hfraction : n.fraction with
    | nil => exact fun hc => .inl (n.isDigits_whole c hc)
    | cons d ds =>
        have hds := n.isDigits_fraction
        rw [hfraction] at hds
        intro hc
        rcases List.mem_append.mp hc with hc | hc
        · exact .inl (n.isDigits_whole c hc)
        · rcases List.mem_cons.mp hc with rfl | hc
          · exact .inr rfl
          · exact .inl (hds c hc)
  have hpower : c ∈ n.powerText → c = 'e' ∨ c = '-' ∨ c = '+' ∨ c.isDigit = true := by
    unfold powerText
    cases n.power with
    | none => exact fun hc => by cases hc
    | some e =>
        intro hc
        rw [Option.elim_some, exponentText_eq] at hc
        rcases List.mem_cons.mp hc with rfl | hc
        · exact .inl rfl
        · rcases List.mem_cons.mp hc with rfl | hc
          · split <;> simp
          · exact .inr (.inr (.inr (isDigits_exponentDigits e c hc)))
  rcases List.mem_append.mp h with hc | hc
  · rcases hmantissa hc with h | h <;> simp [h]
  · rcases hpower hc with h | h | h | h <;> simp [h]

theorem text_eq_cons : ∃ c rest, n.text = c :: rest ∧ c.isDigit = true := by
  have hne := n.whole_ne
  have hdigits := n.isDigits_whole
  unfold text mantissa
  cases hwhole : n.whole with
  | nil => contradiction
  | cons c cs =>
      rw [hwhole] at hdigits
      have hc := hdigits c List.mem_cons_self
      cases n.fraction with
      | nil => exact ⟨c, _, rfl, hc⟩
      | cons d ds => exact ⟨c, _, rfl, hc⟩

theorem isBlank_eq_false {c : Char} (h : c ∈ n.text) : isBlank c = false := by
  rcases n.mem_text h with h | rfl | rfl | rfl | rfl
  · obtain ⟨hlow, hhigh⟩ := (isDigit_iff c).mp h
    simp only [isBlank, Ranges.contains, blanks, Ranges.has, Bool.and_eq_false_imp,
      Bool.or_eq_false_iff, decide_eq_true_eq, decide_eq_false_iff_not]
    omega
  all_goals decide

end Numeral

theorem trimAll_of_forall {p : Char → Bool} {s : List Char} (h : ∀ c ∈ s, p c = false) :
    trimAll p s = s := by
  have hdrop (t : List Char) (ht : ∀ c ∈ t, p c = false) : t.dropWhile p = t := by
    cases t with
    | nil => rfl
    | cons c t => simp [ht c List.mem_cons_self]
  unfold trimAll
  rw [hdrop s h, hdrop _ (fun c hc => h c (List.mem_reverse.mp hc)), List.reverse_reverse]

theorem dropUnderscores_of_notMem {s : List Char} (h : '_' ∉ s) : dropUnderscores s = some s := by
  fun_induction dropUnderscores s with
  | case1 => rfl
  | case2 => simp at h
  | case3 => simp at h
  | case4 => simp at h
  | case5 c rest _ _ ih =>
      have hrest : '_' ∉ rest := fun hc => h (List.mem_cons_of_mem c hc)
      simp [ih hrest]

theorem signPart_cons {c : Char} (hminus : c ≠ '-') (hplus : c ≠ '+') (rest : List Char) :
    signPart (c :: rest) = (false, c :: rest) := by
  unfold signPart
  split
  case h_1 heq => cases heq; contradiction
  case h_2 heq => cases heq; contradiction
  case h_3 => rfl

theorem toLower_of_isDigit {c : Char} (hc : c.isDigit = true) : c.toLower = c := by
  obtain ⟨-, hhigh⟩ := (isDigit_iff c).mp hc
  unfold Char.toLower
  rw [dif_neg]
  rintro ⟨hlow, -⟩
  rw [ge_iff_le, UInt32.le_iff_toNat_le] at hlow
  change 65 ≤ c.toNat at hlow
  omega

/-- A sign in front of a numeral. -/
def signedText (negative : Bool) (cs : List Char) : List Char := if negative then '-' :: cs else cs

/-- A numeral is read as the decimal that it spells, with the sign in front of it. -/
theorem read?_signedText (negative : Bool) (n : Numeral) :
    read? (signedText negative n.text) = some (ofDecimal negative n.decimal) := by
  obtain ⟨c, rest, htext, hc⟩ := n.text_eq_cons
  have hmargins : withoutMargins (signedText negative n.text) = signedText negative n.text := by
    apply trimAll_of_forall
    intro c hc
    have hblank : isBlank c = false := by
      cases negative with
      | false => exact n.isBlank_eq_false hc
      | true =>
          rcases List.mem_cons.mp hc with rfl | hc
          · decide
          · exact n.isBlank_eq_false hc
    simp [hblank]
  have hunderscores : dropUnderscores n.text = some n.text := by
    apply dropUnderscores_of_notMem
    intro hc
    rcases n.mem_text hc with h | h | h | h | h
    · cases h
    all_goals exact absurd h (by decide)
  have hsign : signPart (signedText negative n.text) = (negative, n.text) := by
    have hne {d : Char} (hd : d.isDigit = false) : c ≠ d := by
      rintro rfl
      rw [hc] at hd
      cases hd
    cases negative with
    | false => rw [signedText, if_neg (by decide), htext,
        signPart_cons (hne (by decide)) (hne (by decide))]
    | true => rfl
  have hname {name : String} {d : Char} (hhead : name.toList.head? = some d)
      (hd : d.isDigit = false) : String.ofList (n.text.map Char.toLower) ≠ name := by
    rintro rfl
    rw [String.toList_ofList, htext, List.map_cons, List.head?_cons, toLower_of_isDigit hc] at hhead
    cases hhead
    rw [hc] at hd
    cases hd
  unfold read?
  simp only [hmargins, hsign]
  have hinf : ¬ (String.ofList (n.text.map Char.toLower) = "inf" ∨
      String.ofList (n.text.map Char.toLower) = "infinity") := by
    rintro (h | h)
    · exact hname (by decide : "inf".toList.head? = some 'i') (by decide) h
    · exact hname (by decide : "infinity".toList.head? = some 'i') (by decide) h
  have hnan : ¬ String.ofList (n.text.map Char.toLower) = "nan" :=
    hname (by decide : "nan".toList.head? = some 'n') (by decide)
  refine (if_neg hinf).trans ((if_neg hnan).trans ?_)
  rw [hunderscores, Option.bind_some, n.decimal?_text, Option.map_some]

/-- A numeral is read as the decimal that it spells. -/
theorem read?_text (n : Numeral) : read? n.text = some (ofDecimal false n.decimal) :=
  read?_signedText false n

end Reckoner.Double
