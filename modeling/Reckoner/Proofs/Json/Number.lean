import Reckoner.Json.Reader
import Reckoner.Json.Writer
import Reckoner.Proofs.Double.Places

/-!
# Numbers in JSON read back

The text of a double has a point or an exponent and is read as the double; the text of a whole
number has neither and is read as the whole number, if it has no more digits than are read. Where a
number ends is decided by what stands behind it.
-/

namespace Reckoner

/-! ## Numbers of doubles -/

namespace Double

theorem head?_toDigits {n : Nat} (hn : 0 < n) : (Nat.toDigits 10 n).head? ≠ some '0' := by
  induction n using Nat.strongRecOn with
  | ind n ih =>
      rcases Nat.lt_or_ge n 10 with hsmall | hlarge
      · have hall : ∀ d : Fin 10, 0 < d.val → (Nat.toDigits 10 d.val).head? ≠ some '0' := by decide
        exact hall ⟨n, hsmall⟩ hn
      · rw [Nat.toDigits_of_base_le (by decide) hlarge, List.head?_append_of_ne_nil _
          Nat.toDigits_ne_nil]
        exact ih (n / 10) (by omega) (by omega)

theorem digits_shortest_pos {x : Float} (hfinite : x.isFinite = true) (hzero : isZero x = false) :
    0 < (shortest x).digits := by
  have hpos := (contains_shortest hfinite hzero).pos (significand_pos hzero)
  rcases Nat.eq_zero_or_pos (shortest x).digits with h | h
  · rw [(Decimal.value_eq_zero_iff _).mpr h] at hpos
    exact absurd hpos (lt_irrefl 0)
  · exact h

/-- The text of a finite double reads back as the double, zeros with their sign included. -/
theorem read?_toList_text {x : Float} (hfinite : x.isFinite = true) :
    read? (text x).toList = some x := by
  have hnan := isNaN_eq_false hfinite
  cases hzero : isZero x with
  | true =>
      cases hneg : isNegative x with
      | false =>
          rw [eq_zero hzero hneg]
          decide +kernel
      | true =>
          have hpositive : isNegative (-x) = false := by rw [isNegative_neg hnan, hneg]; rfl
          rw [← neg_neg x, eq_zero (by rwa [isZero_neg]) hpositive]
          decide +kernel
  | false =>
      cases hneg : isNegative x with
      | false =>
          obtain ⟨n, htext, hvalue⟩ := exists_numeral_text hfinite hzero hneg
          rw [htext, read?_text, hvalue]
      | true =>
          have hpositive : isNegative (-x) = false := by rw [isNegative_neg hnan, hneg]; rfl
          obtain ⟨n, htext, hvalue⟩ :=
            exists_numeral_text (x := -x) (by rwa [isFinite_neg]) (by rwa [isZero_neg]) hpositive
          have hsigned := read?_signedText true n
          rw [signedText, if_pos rfl, ofDecimal_neg, hvalue, neg_neg] at hsigned
          rw [Expr.text_neg hnan hneg, htext, hsigned]

end Double

namespace Json

open Double (IsDigits signedText)

/-! ## Numbers -/

/-- No number in front goes on with the text. -/
def Stops (rest : List Char) : Prop :=
  ∀ c ∈ rest.head?, isDigit c = false ∧ c ≠ '.' ∧ c ≠ 'e' ∧ c ≠ 'E'

theorem isDigit_eq (c : Char) : isDigit c = c.isDigit := by
  rw [Bool.eq_iff_iff, Double.isDigit_iff, isDigit, Bool.and_eq_true, decide_eq_true_iff,
    decide_eq_true_iff]
  exact Iff.rfl

theorem span_digits {ds rest : List Char} (hds : IsDigits ds)
    (hrest : ∀ c ∈ rest.head?, isDigit c = false) :
    (ds ++ rest).takeWhile isDigit = ds ∧ (ds ++ rest).dropWhile isDigit = rest := by
  have hall : ∀ c ∈ ds, isDigit c = true := fun c hc => (isDigit_eq c).trans (hds c hc)
  rw [List.takeWhile_append_of_pos hall, List.dropWhile_append_of_pos hall]
  cases rest with
  | nil => exact ⟨List.append_nil ds, rfl⟩
  | cons c rest =>
      have hc := hrest c rfl
      rw [List.takeWhile_cons_of_neg (by simp [hc]), List.dropWhile_cons_of_neg (by simp [hc])]
      exact ⟨List.append_nil ds, rfl⟩

/-- The parts of a number without its sign: digits, which start with a zero only if that is all,
perhaps a point with digits, and perhaps an exponent. -/
structure IsNumber (ds fs es : List Char) : Prop where
  digits : IsDigits ds
  ne : ds ≠ []
  lead : ds = ['0'] ∨ ds.head? ≠ some '0'
  fraction : fs = [] ∨ ∃ ds, fs = '.' :: ds ∧ ds ≠ [] ∧ IsDigits ds
  exponent : es = [] ∨ ∃ e, es = Double.exponentText e

theorem wholeDigits_append {ds rest : List Char} (hds : IsDigits ds)
    (hlead : ds = ['0'] ∨ ds.head? ≠ some '0') (hne : ds ≠ [])
    (hrest : ∀ c ∈ rest.head?, isDigit c = false) : wholeDigits (ds ++ rest) = (ds, rest) := by
  obtain ⟨htake, hdrop⟩ := span_digits hds hrest
  unfold wholeDigits
  split
  case h_1 tail heq =>
      rcases hlead with rfl | hlead
      · cases heq
        rfl
      · obtain ⟨d, ds, rfl⟩ := List.exists_cons_of_ne_nil hne
        cases heq
        exact absurd rfl hlead
  case h_2 => rw [htake, hdrop]

theorem fraction_append {fs rest : List Char}
    (h : fs = [] ∨ ∃ ds, fs = '.' :: ds ∧ ds ≠ [] ∧ IsDigits ds)
    (hrest : ∀ c ∈ rest.head?, isDigit c = false ∧ c ≠ '.') :
    fraction (fs ++ rest) = (fs, rest) := by
  rcases h with rfl | ⟨ds, rfl, hne, hds⟩
  · unfold fraction
    split
    case h_1 tail heq => exact absurd rfl (hrest '.' (by rw [← List.nil_append rest, heq]; rfl)).2
    case h_2 => rfl
  · obtain ⟨htake, hdrop⟩ := span_digits hds fun c hc => (hrest c hc).1
    rw [List.cons_append, fraction, htake, hdrop, if_neg (by simpa using hne)]

theorem exponent_append {es rest : List Char} (h : es = [] ∨ ∃ e, es = Double.exponentText e)
    (hrest : Stops rest) : exponent (es ++ rest) = (es, rest) := by
  rcases h with rfl | ⟨e, rfl⟩
  · cases rest with
    | nil => rfl
    | cons c rest =>
        have hc := hrest c rfl
        rw [List.nil_append, exponent]
        exact if_neg fun h => h.1.elim hc.2.2.1 hc.2.2.2
  · have hne := Double.exponentDigits_ne e
    obtain ⟨htake, hdrop⟩ := span_digits (Double.isDigits_exponentDigits e)
      fun c (hc : c ∈ rest.head?) => (hrest c hc).1
    rw [Double.exponentText_eq, List.cons_append, exponent]
    have hsign : sign ((if e < 0 then '-' else '+') :: Double.exponentDigits e ++ rest) =
        ([if e < 0 then '-' else '+'], Double.exponentDigits e ++ rest) := by
      split <;> rfl
    rw [hsign]
    dsimp only
    rw [htake, hdrop, if_pos ⟨.inl rfl, hne⟩]
    rfl

/-- A number behind its sign. -/
def unsigned (minus cs : List Char) : Except Fault (Datum × List Char) :=
  let (digits, rest) := wholeDigits cs
  let (fraction, rest) := fraction rest
  let (exponent, rest) := exponent rest
  if digits.isEmpty then .error .malformed
  else if fraction.isEmpty && exponent.isEmpty then whole (minus ++ digits) rest
  else do
    let x ← orMalformed (Double.read? (minus ++ digits ++ fraction ++ exponent))
    return (.number (.real x), rest)

theorem number_minus (cs : List Char) : number ('-' :: cs) = unsigned ['-'] cs := rfl

theorem number_eq_unsigned {cs : List Char} (h : cs.head? ≠ some '-') :
    number cs = unsigned [] cs := by
  unfold number
  split
  case h_1 minus tail heq =>
      split at heq
      case h_1 => exact absurd rfl h
      case h_2 =>
          cases heq
          rfl

/-- A number in front is taken as a whole. -/
theorem unsigned_append {ds fs es : List Char} (h : IsNumber ds fs es) (minus : List Char)
    {rest : List Char} (hrest : Stops rest) : unsigned minus (ds ++ (fs ++ (es ++ rest))) =
      if fs.isEmpty && es.isEmpty then whole (minus ++ ds) rest
      else do
        let x ← orMalformed (Double.read? (minus ++ ds ++ fs ++ es))
        return (.number (.real x), rest) := by
  have hexponent : ∀ c ∈ (es ++ rest).head?, isDigit c = false ∧ c ≠ '.' := by
    rcases h.exponent with rfl | ⟨e, rfl⟩
    · exact fun c hc => ⟨(hrest c hc).1, (hrest c hc).2.1⟩
    · rw [Double.exponentText_eq]
      intro c hc
      cases hc
      decide
  have hfraction : ∀ c ∈ (fs ++ (es ++ rest)).head?, isDigit c = false := by
    rcases h.fraction with rfl | ⟨_, rfl, -, -⟩
    · exact fun c hc => (hexponent c hc).1
    · intro c hc
      cases hc
      decide
  have hempty : ds.isEmpty = false := by simpa using h.ne
  unfold unsigned
  rw [wholeDigits_append h.digits h.lead h.ne hfraction]
  dsimp only
  rw [fraction_append h.fraction hexponent]
  dsimp only
  rw [exponent_append h.exponent hrest]
  dsimp only
  rw [hempty, if_neg Bool.false_ne_true]

theorem number_signedText (negative : Bool) {ds fs es rest : List Char} (h : IsNumber ds fs es)
    (hrest : Stops rest) : number (signedText negative (ds ++ fs ++ es) ++ rest) =
      if fs.isEmpty && es.isEmpty then whole (signedText negative ds) rest
      else do
        let x ← orMalformed (Double.read? (signedText negative (ds ++ fs ++ es)))
        return (.number (.real x), rest) := by
  have hassoc : ds ++ fs ++ es ++ rest = ds ++ (fs ++ (es ++ rest)) := by
    rw [List.append_assoc, List.append_assoc]
  cases negative with
  | false =>
      have hhead : (ds ++ (fs ++ (es ++ rest))).head? ≠ some '-' := by
        obtain ⟨d, ds, rfl⟩ := List.exists_cons_of_ne_nil h.ne
        intro hminus
        have hd := h.digits d List.mem_cons_self
        cases hminus
        cases hd
      change number (ds ++ fs ++ es ++ rest) = _
      rw [hassoc, number_eq_unsigned hhead, unsigned_append h [] hrest]
      rfl
  | true =>
      change number ('-' :: (ds ++ fs ++ es ++ rest)) = _
      rw [number_minus, hassoc, unsigned_append h ['-'] hrest]
      rfl

/-! ## Words and numbers -/

/-- No word is a number. -/
theorem atom_eq_number (negative : Bool) {ds : List Char} (hds : IsDigits ds) (hne : ds ≠ [])
    (rest : List Char) :
    atom (signedText negative ds ++ rest) = number (signedText negative ds ++ rest) := by
  obtain ⟨d, ds, rfl⟩ := List.exists_cons_of_ne_nil hne
  have hd := hds d List.mem_cons_self
  have hletter {c : Char} (hc : c.isDigit = false) : c ≠ d := by
    rintro rfl
    rw [hd] at hc
    cases hc
  have hn := hletter (c := 'n') (by decide)
  have ht := hletter (c := 't') (by decide)
  have hf := hletter (c := 'f') (by decide)
  have hN := hletter (c := 'N') (by decide)
  have hI := hletter (c := 'I') (by decide)
  have hminus := hletter (c := '-') (by decide)
  have hnone : ∀ entry ∈ words,
      word? entry.1.toList (signedText negative (d :: ds) ++ rest) = none := by
    cases negative <;> simp [words, word?, signedText, hn, ht, hf, hN, hI, hminus]
  unfold atom
  split
  case h_1 found hfound =>
      obtain ⟨⟨word, e⟩, hentry, hword⟩ := List.exists_of_findSome?_eq_some hfound
      have hmissing : word? word.toList (signedText negative (d :: ds) ++ rest) = none :=
        hnone _ hentry
      dsimp only at hword
      rw [hmissing] at hword
      cases hword
  case h_2 => rfl

theorem toList_toString (n : Int) :
    (toString n).toList = signedText (decide (n < 0)) (Nat.toDigits 10 n.natAbs) := by
  rw [show toString n = n.repr from rfl, Int.repr_eq_if]
  by_cases h : n < 0
  · have habs : (-n).toNat = n.natAbs := by omega
    rw [if_neg (by omega), String.toList_append, Nat.toList_repr, habs, decide_eq_true h]
    rfl
  · have habs : n.toNat = n.natAbs := by omega
    rw [if_pos (by omega), Nat.toList_repr, habs, decide_eq_false h]
    rfl

theorem withoutMargins_signedText (negative : Bool) (m : Nat) :
    Double.withoutMargins (signedText negative (Nat.toDigits 10 m)) =
      signedText negative (Nat.toDigits 10 m) := by
  have hdigit : ∀ c ∈ Nat.toDigits 10 m, Text.isBlank c = false := fun c hc =>
    (Expr.wholeNumeral m).isBlank_eq_false (by rwa [Expr.text_wholeNumeral])
  have hblank : ∀ c ∈ signedText negative (Nat.toDigits 10 m), Text.isBlank c = false := by
    cases negative with
    | false => exact hdigit
    | true =>
        intro c hc
        rcases List.mem_cons.mp hc with rfl | hc
        · decide
        · exact hdigit c hc
  exact Double.trimAll_of_forall fun c hc => by rw [hblank c hc]; rfl

/-- A whole number that does not have too many digits is read. -/
theorem readWhole_signedText (negative : Bool) {m : Nat}
    (hm : Double.digitCount m ≤ Double.mostWholeDigits) :
    Double.readWhole (signedText negative (Nat.toDigits 10 m)) =
      .ok (if negative then -(m : Int) else m) := by
  have hdigits := Double.isDigits_toDigits m
  have hne : Nat.toDigits 10 m ≠ [] := Nat.toDigits_ne_nil
  have hmargins := withoutMargins_signedText negative m
  have hvalue := Double.ofDigits_map (Nat.toDigits 10 m)
  rw [Nat.ofDigitChars_ten_toDigits] at hvalue
  change (Nat.toDigits 10 m).length ≤ _ at hm
  generalize Nat.toDigits 10 m = ds at *
  obtain ⟨d, ds, rfl⟩ := List.exists_cons_of_ne_nil hne
  have hd := hdigits d List.mem_cons_self
  have hsign : Double.signPart (signedText negative (d :: ds)) = (negative, d :: ds) := by
    cases negative with
    | false =>
        refine Double.signPart_cons ?_ ?_ ds <;>
          · rintro rfl
            cases hd
    | true => rfl
  have hrun : (d :: ds).takeWhile (fun c => c == '_' || (Text.digitValue? c).isSome) = d :: ds := by
    rw [List.takeWhile_eq_self_iff]
    intro c hc
    rw [Double.digitValue?_of_isDigit (hdigits c hc), Option.isSome_some, Bool.or_true]
  have hunderscores : Double.dropUnderscores (d :: ds) = some (d :: ds) := by
    apply Double.dropUnderscores_of_notMem
    intro hmem
    cases hdigits '_' hmem
  have hdigitRun := Double.digitRun_append hdigits fun c (hc : c ∈ [].head?) => nomatch hc
  rw [List.append_nil] at hdigitRun
  unfold Double.readWhole
  simp only [hmargins, hsign, hrun, hunderscores,
    Option.map_some, hdigitRun, List.map_cons, List.length_map, Nat.lt_irrefl, if_false]
  rw [List.map_cons] at hvalue
  rw [hvalue, if_neg (by rw [List.length_cons] at hm; omega)]

theorem isNumber_toDigits (m : Nat) : IsNumber (Nat.toDigits 10 m) [] [] where
  digits := Double.isDigits_toDigits m
  ne := Nat.toDigits_ne_nil
  lead := by
    rcases Nat.eq_zero_or_pos m with rfl | hm
    · exact .inl (Nat.toDigits_zero 10)
    · exact .inr (Double.head?_toDigits hm)
  fraction := .inl rfl
  exponent := .inl rfl

theorem atom_whole {n : Int} (hn : Double.digitCount n.natAbs ≤ Double.mostWholeDigits)
    {rest : List Char} (hrest : Stops rest) :
    atom ((toString n).toList ++ rest) = .ok (.number (.whole n), rest) := by
  have hnumber := number_signedText (decide (n < 0)) (isNumber_toDigits n.natAbs) hrest
  rw [List.append_nil, List.append_nil] at hnumber
  rw [toList_toString, atom_eq_number _ (Double.isDigits_toDigits _) Nat.toDigits_ne_nil, hnumber]
  simp only [List.isEmpty_nil, Bool.and_self, if_true]
  unfold whole
  rw [readWhole_signedText _ hn]
  have hvalue : (if decide (n < 0) = true then -(n.natAbs : Int) else n.natAbs) = n := by
    by_cases hneg : n < 0
    · rw [decide_eq_true hneg, if_pos rfl]
      omega
    · rw [decide_eq_false hneg, if_neg Bool.false_ne_true]
      omega
  rw [hvalue]

theorem isNumber_pointed {digits : List Char} (hdigits : IsDigits digits) {before : Int}
    {fs es : List Char} (hlead : (Double.pointed digits before).1 = ['0'] ∨
      (Double.pointed digits before).1.head? ≠ some '0')
    (hfs : fs = [] ∨ ∃ ds, fs = '.' :: ds ∧ ds ≠ [] ∧ IsDigits ds)
    (hes : es = [] ∨ ∃ e, es = Double.exponentText e) :
    IsNumber (Double.pointed digits before).1 fs es :=
  ⟨fun c hc => Double.isDigits_pointed hdigits before c (List.mem_append_left _ hc),
    Double.pointed_whole_ne digits before, hlead, hfs, hes⟩

/-- Digits that do not start with a zero give a number that does so only before the point. -/
theorem pointed_lead {digits : List Char} (hne : digits ≠ []) (hhead : digits.head? ≠ some '0')
    (before : Int) : (Double.pointed digits before).1 = ['0'] ∨
      (Double.pointed digits before).1.head? ≠ some '0' := by
  by_cases h : before ≤ 0
  · rw [Double.pointed_of_nonpos h]
    exact .inl rfl
  · obtain ⟨n, hn⟩ : ∃ n : Nat, before.toNat = n + 1 := ⟨before.toNat - 1, by omega⟩
    obtain ⟨d, ds, rfl⟩ := List.exists_cons_of_ne_nil hne
    rw [Double.pointed_of_pos (Int.not_le.mp h), hn]
    exact .inr hhead

/-- The text of digits with an exponent is a number with a point or an exponent. -/
theorem exists_isNumber_magnitudeText {digits : List Char} (hdigits : IsDigits digits)
    (hne : digits ≠ []) (hhead : digits.head? ≠ some '0') (exponent : Int) :
    ∃ ds fs es, Double.magnitudeText true digits exponent = ds ++ fs ++ es ∧
      IsNumber ds fs es ∧ (fs.isEmpty && es.isEmpty) = false := by
  unfold Double.magnitudeText
  split
  case isTrue =>
      have hparts := Double.isDigits_pointed hdigits (exponent + 1)
      have hlead := pointed_lead hne hhead (exponent + 1)
      have hnumber {fs : List Char} (h : ∃ ds, fs = '.' :: ds ∧ ds ≠ [] ∧ IsDigits ds) :
          IsNumber (Double.pointed digits (exponent + 1)).1 fs [] :=
        isNumber_pointed hdigits hlead (.inr h) (.inl rfl)
      generalize Double.pointed digits (exponent + 1) = parts at *
      obtain ⟨whole, fraction⟩ := parts
      cases fraction with
      | nil =>
          refine ⟨whole, ['.', '0'], [], (List.append_nil _).symm, hnumber ?_, rfl⟩
          exact ⟨['0'], rfl, by decide, Double.isDigits_replicate 1⟩
      | cons d ds =>
          refine ⟨whole, '.' :: d :: ds, [], (List.append_nil _).symm, hnumber ?_, rfl⟩
          exact ⟨d :: ds, rfl, List.cons_ne_nil _ _,
            fun c hc => hparts c (List.mem_append_right _ hc)⟩
  case isFalse =>
      have hparts := Double.isDigits_pointed hdigits 1
      have hlead := pointed_lead hne hhead 1
      have hnumber {fs : List Char} (h : fs = [] ∨ ∃ ds, fs = '.' :: ds ∧ ds ≠ [] ∧ IsDigits ds) :=
        isNumber_pointed hdigits hlead h (.inr ⟨exponent, rfl⟩)
      unfold Double.scientific
      generalize Double.pointed digits 1 = parts at *
      obtain ⟨whole, fraction⟩ := parts
      cases fraction with
      | nil =>
          exact ⟨whole, [], Double.exponentText exponent, by rw [List.append_nil]; rfl,
            hnumber (.inl rfl), rfl⟩
      | cons d ds =>
          refine ⟨whole, '.' :: d :: ds, Double.exponentText exponent, rfl, hnumber (.inr ?_), rfl⟩
          exact ⟨d :: ds, rfl, List.cons_ne_nil _ _,
            fun c hc => hparts c (List.mem_append_right _ hc)⟩

theorem exists_isNumber_text {x : Float} (hfinite : x.isFinite = true) :
    ∃ ds fs es, (Double.text x).toList = signedText (Double.isNegative x) (ds ++ fs ++ es) ∧
      IsNumber ds fs es ∧ (fs.isEmpty && es.isEmpty) = false := by
  have hsigned (cs : List Char) :
      (Double.signed x cs).toList = signedText (Double.isNegative x) cs := by
    unfold Double.signed
    rw [Double.isNaN_eq_false hfinite, Double.isInf_eq_false hfinite]
    exact String.toList_ofList
  rw [Double.text, Double.textWith_eq, hsigned]
  unfold Double.shortestDigits
  cases hzero : Double.isZero x with
  | true =>
      refine ⟨['0'], ['.', '0'], [], rfl, ⟨Double.isDigits_replicate 1, by decide, .inl rfl, ?_,
        .inl rfl⟩, rfl⟩
      exact .inr ⟨['0'], rfl, by decide, Double.isDigits_replicate 1⟩
  | false =>
      obtain ⟨ds, fs, es, htext, hnumber⟩ := exists_isNumber_magnitudeText
        (Double.isDigits_toDigits (Double.shortest x).digits) Nat.toDigits_ne_nil
        (Double.head?_toDigits (Double.digits_shortest_pos hfinite hzero))
        ((Double.shortest x).text.length + (Double.shortest x).exponent - 1)
      exact ⟨ds, fs, es, congrArg _ htext, hnumber⟩

theorem atom_double {x : Float} (hfinite : x.isFinite = true) {rest : List Char}
    (hrest : Stops rest) :
    atom ((Double.text x).toList ++ rest) = .ok (.number (.real x), rest) := by
  obtain ⟨ds, fs, es, htext, hnumber, hpoint⟩ := exists_isNumber_text hfinite
  have hread := Double.read?_toList_text hfinite
  rw [htext] at hread
  have hatom := atom_eq_number (Double.isNegative x) hnumber.digits hnumber.ne (fs ++ es ++ rest)
  have happend : signedText (Double.isNegative x) ds ++ (fs ++ es ++ rest) =
      signedText (Double.isNegative x) (ds ++ fs ++ es) ++ rest := by
    cases Double.isNegative x <;> simp [signedText]
  rw [happend] at hatom
  rw [htext, hatom, number_signedText _ hnumber hrest, hpoint, if_neg Bool.false_ne_true, hread]
  rfl

theorem atom_doubleText (x : Float) {rest : List Char} (hrest : Stops rest) :
    atom (doubleText x ++ rest) = .ok (.number (.real x), rest) := by
  unfold doubleText
  cases hnan : x.isNaN with
  | true =>
      rw [Double.eq_nan hnan]
      rfl
  | false =>
      cases hinf : x.isInf with
      | false => exact atom_double (Double.isFinite_of_isInf_eq_false hnan hinf) hrest
      | true =>
          cases hneg : Double.isNegative x with
          | false =>
              rw [Double.eq_infinity hinf hneg]
              rfl
          | true =>
              have hpositive : Double.isNegative (-x) = false := by
                rw [Double.isNegative_neg hnan, hneg]
                rfl
              rw [← Double.neg_neg x,
                Double.eq_infinity (x := -x) (by rwa [Double.isInf_neg]) hpositive]
              rfl

end Json

end Reckoner
