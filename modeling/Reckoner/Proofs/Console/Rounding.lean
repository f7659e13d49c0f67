import Reckoner.Console.Result
import Reckoner.Proofs.Double.Places
import Reckoner.Proofs.Trace.Display

/-!
# Rounded values on the console

The text of a rounded value is read back as the rounded value, and the sign in front of it tells
whether that is the value itself. Without decimal places there is no point at which the zeros behind
the digits end, so that those of a whole number are lost: the text is that of a smaller number then.
-/

namespace Reckoner

open Double

variable {x g : Float} {text : String} {negative : Bool} {cs : List Char}

/-! ## Reading back -/

namespace Double

/-- A text is read as a number that is the same as the double. -/
def Reads (text : String) (x : Float) : Prop := ∃ y, read? text.toList = some y ∧ (y == x) = true

theorem reads_iff (n : Numeral) (h : text.toList = signedText negative n.text) :
    Reads text x ↔ (ofDecimal negative n.decimal == x) = true := by
  unfold Reads
  rw [h, read?_signedText]
  constructor
  · rintro ⟨y, hy, hbeq⟩
    cases hy
    exact hbeq
  · exact fun hbeq => ⟨_, rfl, hbeq⟩

/-- A text that is read as one double is read as just those that are the same. -/
theorem Reads.iff (h : Reads text g) : Reads text x ↔ (g == x) = true := by
  obtain ⟨y, hy, hbeq⟩ := h
  have hiff : Reads text x ↔ (y == x) = true := by
    constructor
    · rintro ⟨z, hz, hsame⟩
      cases hy.symm.trans hz
      exact hsame
    · exact fun hsame => ⟨y, hy, hsame⟩
  rw [hiff]
  rcases beq_iff.mp hbeq with ⟨-, rfl | ⟨hyzero, hgzero⟩⟩
  · rfl
  · have hnan {z : Float} (hz : isZero z = true) : z.isNaN = false := by
      obtain ⟨s, hs⟩ := isZero_iff_unpack.mp hz
      change z.toModel.unpack.isNaN = false
      rw [hs]
      rfl
    rw [beq_iff, beq_iff, hnan hyzero, hnan hgzero]
    constructor
    · rintro ⟨-, rfl | hboth⟩
      · exact ⟨rfl, .inr ⟨hgzero, hyzero⟩⟩
      · exact ⟨rfl, .inr ⟨hgzero, hboth.2⟩⟩
    · rintro ⟨-, rfl | hboth⟩
      · exact ⟨rfl, .inr ⟨hyzero, hgzero⟩⟩
      · exact ⟨rfl, .inr ⟨hyzero, hboth.2⟩⟩

end Double

/-! ## Zeros at the end -/

/-- Every text is one that does not end in a zero, and zeros. -/
theorem exists_zeros_at_end (cs : List Char) :
    ∃ kept j, cs = kept ++ List.replicate j '0' ∧ kept.getLast? ≠ some '0' := by
  induction cs using List.reverseRecOn with
  | nil => exact ⟨[], 0, rfl, by simp⟩
  | append_singleton cs c ih =>
      by_cases hc : c = '0'
      · obtain ⟨kept, j, rfl, hlast⟩ := ih
        refine ⟨kept, j + 1, ?_, hlast⟩
        rw [hc, List.append_assoc, List.replicate_succ']
      · exact ⟨cs ++ [c], 0, by simp, by simpa using hc⟩

namespace Display

theorem dropZeros_append_replicate (cs : List Char) (j : Nat) :
    dropZeros (cs ++ List.replicate j '0') = dropZeros cs := by
  unfold dropZeros
  rw [List.reverse_append, List.reverse_replicate,
    List.dropWhile_append_of_pos fun c hc => by rw [List.eq_of_mem_replicate hc]; rfl]

theorem dropZeros_append_singleton (cs : List Char) {c : Char} (hzero : c ≠ '0') :
    dropZeros (cs ++ [c]) = if c = '.' then cs else cs ++ [c] := by
  unfold dropZeros
  rw [List.reverse_append, List.reverse_singleton, List.singleton_append,
    List.dropWhile_cons_of_neg (by simpa using hzero)]
  by_cases hpoint : c = '.'
  · rw [if_pos hpoint, hpoint]
    exact List.reverse_reverse cs
  · rw [if_neg hpoint]
    dsimp only
    split
    case h_1 heq =>
        cases heq
        exact absurd rfl hpoint
    case h_2 => rw [List.reverse_cons, List.reverse_reverse]

/-- Zeros behind a point go, and the point if nothing is left behind it. -/
theorem dropZeros_joinPoint (before kept : List Char) (j : Nat) (hdigits : IsDigits kept)
    (hlast : kept.getLast? ≠ some '0') :
    dropZeros (before ++ '.' :: (kept ++ List.replicate j '0')) = joinPoint (before, kept) := by
  rw [← List.cons_append, ← List.append_assoc, dropZeros_append_replicate]
  rcases List.eq_nil_or_concat kept with rfl | ⟨init, c, rfl⟩
  · exact dropZeros_append_singleton before (by decide)
  · rw [List.concat_eq_append] at hdigits hlast ⊢
    have hpoint : c ≠ '.' := by
      rintro rfl
      have := hdigits '.' (by simp)
      cases this
    have hzero : c ≠ '0' := by simpa using hlast
    rw [← List.cons_append, ← List.append_assoc, dropZeros_append_singleton _ hzero, if_neg hpoint]
    cases init <;> simp [joinPoint]

end Display

/-! ## Decimal places -/

theorem signed_finite (hfinite : x.isFinite = true) (cs : List Char) :
    (signed x cs).toList = signedText (isNegative x) cs := by
  unfold signed signedText
  rw [isNaN_eq_false hfinite, isInf_eq_false hfinite]
  cases isNegative x <;> simp

/-- The digits of so many places, with at least one in front of the point. -/
def placedDigits (x : Float) (places : Nat) : List Char :=
  let digits := Nat.toDigits 10 (fixed x places)
  List.replicate (places + 1 - digits.length) '0' ++ digits

theorem placed_eq (hfinite : x.isFinite = true) (places : Nat) :
    (placed x places).toList = signedText (isNegative x) (joinPoint
      ((placedDigits x places).take ((placedDigits x places).length - places),
        (placedDigits x places).drop ((placedDigits x places).length - places))) := by
  unfold placed
  rw [if_pos hfinite, signed_finite hfinite]
  rfl

theorem isDigits_placedDigits (x : Float) (places : Nat) : IsDigits (placedDigits x places) :=
  (isDigits_replicate _).append (isDigits_toDigits _)

theorem ofDigitChars_placedDigits (x : Float) (places : Nat) :
    Nat.ofDigitChars 10 (placedDigits x places) 0 = fixed x places := by
  unfold placedDigits
  rw [Nat.ofDigitChars_append, Nat.ofDigitChars_replicate_zero, Nat.mul_zero,
    Nat.ofDigitChars_ten_toDigits]

theorem lt_length_placedDigits (x : Float) (places : Nat) :
    places < (placedDigits x places).length := by
  unfold placedDigits
  dsimp only
  rw [List.length_append, List.length_replicate]
  omega

/-- Behind a point only zeros are dropped: a numeral of the same value is left. -/
theorem exists_numeral_placed (hfinite : x.isFinite = true) {places : Nat} (hplaces : 0 < places) :
    ∃ n : Numeral, Display.dropZeros (placed x places).toList = signedText (isNegative x) n.text ∧
      n.decimal.value = (atPlaces x places).value := by
  have hdigits := isDigits_placedDigits x places
  have hnumber := ofDigitChars_placedDigits x places
  have hlength := lt_length_placedDigits x places
  rw [placed_eq hfinite]
  generalize placedDigits x places = digits at *
  have hwhole : digits.take (digits.length - places) ≠ [] := by
    rw [← List.length_pos_iff, List.length_take]
    omega
  have hfraction : (digits.drop (digits.length - places)).length = places := by
    rw [List.length_drop]
    omega
  have hparts := List.take_append_drop (digits.length - places) digits
  generalize digits.take (digits.length - places) = whole at *
  generalize digits.drop (digits.length - places) = fraction at *
  obtain ⟨kept, j, rfl, hlast⟩ := exists_zeros_at_end fraction
  subst hparts
  rw [List.length_append, List.length_replicate] at hfraction
  have hkept : IsDigits (whole ++ kept) := fun c hc => hdigits c (by
    rw [← List.append_assoc]
    exact List.mem_append_left _ hc)
  refine ⟨⟨whole, kept, none, hwhole, hkept⟩, ?_, ?_⟩
  · have hpoint : joinPoint (whole, kept ++ List.replicate j '0') =
        whole ++ '.' :: (kept ++ List.replicate j '0') := by
      cases hempty : kept ++ List.replicate j '0' with
      | nil =>
          have hnone := congrArg List.length hempty
          rw [List.length_append, List.length_replicate, hfraction] at hnone
          exact absurd hnone hplaces.ne'
      | cons => rfl
    have hdrop (before : List Char) := Display.dropZeros_joinPoint before kept j
      (fun c hc => hkept c (List.mem_append_right _ hc)) hlast
    rw [hpoint, Numeral.text, Numeral.mantissa, Numeral.powerText, Option.elim_none,
      List.append_nil]
    cases isNegative x with
    | false => exact hdrop whole
    | true =>
        refine (hdrop ('-' :: whole)).trans ?_
        cases kept <;> rfl
  · have hvalue : fixed x places = 10 ^ j * Nat.ofDigitChars 10 (whole ++ kept) 0 := by
      rw [← hnumber, ← List.append_assoc, Nat.ofDigitChars_append, Nat.ofDigitChars_replicate_zero]
    rw [Numeral.value_decimal, Option.getD_none, zpow_zero, mul_one, Decimal.value]
    dsimp only
    rw [hvalue, ← hfraction]
    push_cast
    rw [neg_add, zpow_add₀ (by norm_num), zpow_neg _ (j : Int), zpow_natCast]
    field_simp

/-- A numeral of a text that is a zero has that value. -/
theorem value_of_text_eq_zero {n : Numeral} (h : n.text = ['0']) : n.decimal.digits = 0 := by
  have hdecimal := n.decimal?_text
  have hzero : decimal? ['0'] = some ⟨0, 0⟩ := by decide +kernel
  rw [h, hzero] at hdecimal
  exact (congrArg Decimal.digits (Option.some.inj hdecimal)).symm

namespace Console

/-- What is written for a text without the zeros at its end. -/
theorem placesText_eq (x : Float) {places : Int} {count : Nat}
    (hcount : Display.precision places = .ok count) :
    placesText x places = .ok
      (let text := String.ofList (Display.dropZeros (placed x (min count mostPlaces)).toList)
      if text = "" ∨ text = "-0" ∨ text = "-" then "0" else text) := by
  unfold placesText
  rw [hcount]
  rfl

/-- A numeral is written as it is, without a sign if it is a zero. -/
theorem reads_repaired {n : Numeral} (htext : cs = signedText negative n.text)
    (hvalue : ofDecimal negative n.decimal = x) :
    Reads (if String.ofList cs = "" ∨ String.ofList cs = "-0" ∨ String.ofList cs = "-" then "0"
      else String.ofList cs) x := by
  obtain ⟨c, rest, hcons, hdigit⟩ := n.text_eq_cons
  have hnan : x.isNaN = false := by
    obtain ⟨bits, hbits, hread⟩ := exists_bits_ofDecimal n.decimal
    have hpositive := isNaN_withSign hbits
    rw [← hvalue, hread]
    cases negative with
    | false => exact hpositive
    | true => rwa [withSign_true hbits, isNaN_neg]
  have hempty : String.ofList cs ≠ "" := by
    intro h
    have hlist := congrArg String.toList h
    rw [String.toList_ofList, htext, hcons] at hlist
    cases negative <;> cases hlist
  have hsign : String.ofList cs ≠ "-" := by
    intro h
    have hlist := congrArg String.toList h
    rw [String.toList_ofList, htext, hcons] at hlist
    cases negative with
    | false =>
        cases hlist
        cases hdigit
    | true => cases hlist
  by_cases hzero : String.ofList cs = "-0"
  · rw [if_pos (.inr (.inl hzero))]
    have hlist := congrArg String.toList hzero
    rw [String.toList_ofList, htext] at hlist
    cases negative with
    | false =>
        rw [signedText, if_neg Bool.false_ne_true, hcons] at hlist
        cases hlist
        cases hdigit
    | true =>
        have htail : n.text = ['0'] := (List.cons.inj hlist).2
        rw [ofDecimal_of_digits_eq_zero (value_of_text_eq_zero htail)] at hvalue
        refine ⟨0.0, by decide +kernel, beq_iff.mpr ⟨by decide, .inr ⟨by decide, ?_⟩⟩⟩
        rw [← hvalue]
        decide
  · rw [if_neg (by simp only [hempty, hzero, hsign, or_self, not_false_eq_true])]
    refine (reads_iff n (by rw [String.toList_ofList, htext])).mpr ?_
    rw [hvalue]
    exact beq_iff.mpr ⟨hnan, .inl rfl⟩

/-- With decimal places the text is read back, if so many places are enough for the double. -/
theorem reads_placesText (hfinite : g.isFinite = true) {places : Int} {count : Nat}
    (hcount : Display.precision places = .ok count) (hpos : 0 < count)
    (hexact : ofDecimal (isNegative g) (atPlaces g (min count mostPlaces : Nat)) = g) :
    ∃ text, placesText g places = .ok text ∧ Reads text g := by
  obtain ⟨n, htext, hvalue⟩ := exists_numeral_placed hfinite
    (lt_min hpos (by decide : 0 < mostPlaces))
  refine ⟨_, placesText_eq g hcount, reads_repaired htext ?_⟩
  rw [ofDecimal_congr hvalue, hexact]

/-! ## Values that are rounded -/

theorem precision_eq_ok {places : Int} (hplaces : 0 ≤ places)
    (hmost : places ≤ Display.largestPrecision) :
    Display.precision places = .ok places.toNat := by
  have hcount : places ≤ Display.largestCount := hmost.trans (by decide)
  unfold Display.precision
  rw [if_neg (by omega), if_neg (by omega), if_neg (by omega)]

theorem exists_refusal {places : Int} (h : Display.largestPrecision < places) :
    ∃ cause, Display.Refusal places cause ∧ Display.precision places = .error cause := by
  have hnonneg : ¬places < 0 := by
    have : Display.largestPrecision = 2147483647 := rfl
    omega
  unfold Display.precision
  rw [if_neg hnonneg]
  by_cases hcount : Display.largestCount < places
  · exact ⟨_, .tooMany hcount, if_pos hcount⟩
  · exact ⟨_, .tooBig h, by rw [if_neg hcount, if_pos h]⟩

theorem roundTo_of_le (hfinite : x.isFinite = true) {places : Int} (hplaces : 0 ≤ places)
    (hmost : places ≤ 323) : roundTo x places = ofDecimal (isNegative x) (atPlaces x places) := by
  unfold roundTo
  rw [hfinite, if_neg (by simp; omega), if_neg (by omega)]

theorem roundTo_of_gt {places : Int} (hmost : 323 < places) : roundTo x places = x := by
  unfold roundTo
  rw [if_pos (by simp [hmost])]

/-- Rounding to places loses nothing beyond those that doubles have. -/
theorem isFinite_roundTo (hfinite : x.isFinite = true) (hsize : (magnitude x).value ≤ 10 ^ 16)
    {places : Int} (hplaces : 0 ≤ places) : (roundTo x places).isFinite = true := by
  rcases le_or_gt places 323 with hmost | hmore
  · rw [roundTo_of_le hfinite hplaces hmost, (ofDecimal_spec _ _).2.2]
    rcases Nat.eq_zero_or_pos (fixed x places) with hzero | hpos
    · rw [ofDecimal_of_digits_eq_zero (a := atPlaces x places) hzero]
      decide
    · exact (isUsual_atPlaces hsize hplaces hmost hpos).roundsTo.1
  · rwa [roundTo_of_gt hmore]

/-- So many places are enough for what is rounded to them. -/
theorem ofDecimal_roundTo (hfinite : x.isFinite = true) (hsize : (magnitude x).value ≤ 10 ^ 16)
    {places : Int} (hplaces : 0 ≤ places) : ofDecimal (isNegative (roundTo x places))
      (atPlaces (roundTo x places) (min places.toNat mostPlaces : Nat)) = roundTo x places := by
  rcases le_or_gt places 323 with hmost | hmore
  · have hmin : ((min places.toNat mostPlaces : Nat) : Int) = places := by
      have : mostPlaces = 1100 := rfl
      omega
    rw [hmin, roundTo_of_le hfinite hplaces hmost, (ofDecimal_spec _ _).1, atPlaces,
      fixed_ofDecimal hfinite hsize hplaces hmost]
  · rw [roundTo_of_gt hmore]
    have hmin : (324 : Int) ≤ (min places.toNat mostPlaces : Nat) := by
      have : mostPlaces = 1100 := rfl
      omega
    generalize ((min places.toNat mostPlaces : Nat) : Int) = count at *
    cases hzero : isZero x with
    | true => rw [ofDecimal_of_digits_eq_zero (a := atPlaces x count) (fixed_of_isZero hzero count),
        withSign_zero hzero]
    | false =>
        -- half a unit of the last place is less than half a unit of the least double
        have hnear := ((fixed_eq_iff x count).mp rfl).near
        have hlegal := isLegal_magnitude hfinite
        have hplace : (10 : ℚ) ^ (-count) ≤ 10 ^ (-324 : Int) :=
          zpow_le_zpow_right₀ (by norm_num) (by omega)
        have hleast : (2 : ℚ) ^ (-1074 : Int) ≤ 2 ^ (magnitude x).exponent :=
          zpow_le_zpow_right₀ one_le_two hlegal.least
        have htiny : 2 * (10 : ℚ) ^ (-324 : Int) < 2 ^ (-1074 : Int) := by
          have hlt : (2 : ℚ) * 2 ^ 1074 < 10 ^ 324 := by
            exact_mod_cast (by decide +kernel : 2 * 2 ^ 1074 < 10 ^ 324)
          rw [zpow_neg, zpow_neg, ← div_eq_mul_inv, div_lt_iff₀ (by positivity),
            inv_mul_eq_div, lt_div_iff₀ (by positivity)]
          exact_mod_cast hlt
        have hunit : (0 : ℚ) < 10 ^ (-count) := by positivity
        exact ofDecimal_isNegative hfinite hzero (contains_of_near (significand_pos hzero)
          hnear.1 hnear.2 (by linarith) fun _ => by linarith)

/-! ## Whole values -/

/-- Whole values are not changed by rounding. -/
theorem roundTo_of_isIntegral (h : isIntegral x = true) {places : Int} (hplaces : 0 ≤ places) :
    roundTo x places = x := by
  obtain ⟨hfinite, w, hw⟩ := (isIntegral_iff x).mp h
  rcases le_or_gt places 323 with hmost | hmore
  · have hunit : (10 ^ places.toNat : ℚ) * 10 ^ (-places) = 1 := by
      rw [← zpow_natCast, ← zpow_add₀ (by norm_num), Int.toNat_of_nonneg hplaces, add_neg_cancel,
        zpow_zero]
    have hpos : (0 : ℚ) < 10 ^ (-places) := by positivity
    have hfixed : fixed x places = w * 10 ^ places.toNat := by
      rw [fixed_eq_iff, hw]
      have hvalue : ((w * 10 ^ places.toNat : Nat) : ℚ) * 10 ^ (-places) = w := by
        rw [Nat.cast_mul, Nat.cast_pow, Nat.cast_ofNat, mul_assoc, hunit, mul_one]
      exact ⟨by linarith, by linarith, fun _ => ⟨by linarith, by linarith⟩⟩
    rw [roundTo_of_le hfinite hplaces hmost]
    apply ofDecimal_of_value hfinite
    rw [atPlaces, hfixed, hw, Decimal.value, Nat.cast_mul, Nat.cast_pow, Nat.cast_ofNat, mul_assoc,
      hunit, mul_one]
  · exact roundTo_of_gt hmore

/-- The text of a whole value is read back. -/
theorem reads_truncate (h : isIntegral x = true) : Reads (toString (truncate x)) x := by
  have hfinite := ((isIntegral_iff x).mp h).1
  have hread : ofDecimal (isNegative x) (Expr.wholeNumeral (wholePart x)).decimal = x := by
    apply ofDecimal_of_value hfinite
    rw [Expr.decimal_wholeNumeral, Decimal.value, zpow_zero, mul_one, Expr.wholePart_value h]
  cases hzero : isZero x with
  | true =>
      have hwhole : wholePart x = 0 := by
        have hvalue := Expr.wholePart_value h
        rw [value_eq_zero hzero] at hvalue
        exact_mod_cast hvalue
      have htext : toString (truncate x) = "0" := by
        unfold truncate
        rw [hwhole]
        cases isNegative x <;> rfl
      rw [htext]
      exact ⟨0.0, by decide +kernel, beq_iff.mpr ⟨by decide, .inr ⟨by decide, hzero⟩⟩⟩
  | false =>
      have hpos := Expr.wholePart_pos hzero h
      have htext : (toString (truncate x)).toList =
          signedText (isNegative x) (Expr.wholeNumeral (wholePart x)).text := by
        rw [Expr.text_wholeNumeral]
        unfold truncate
        cases isNegative x with
        | false => exact Nat.toList_repr
        | true => simp [Int.repr_eq_if, signedText, hpos.ne']
      rw [reads_iff _ htext, hread]
      exact beq_iff.mpr ⟨isNaN_eq_false hfinite, .inl rfl⟩

/-! ## No decimal places -/

theorem ofDigitChars_concat_mod (init : List Char) {c : Char} (hdigit : c.isDigit = true)
    (hzero : c ≠ '0') : Nat.ofDigitChars 10 (init ++ [c]) 0 % 10 ≠ 0 := by
  obtain ⟨hlow, hhigh⟩ := (isDigit_iff c).mp hdigit
  have hne : c.toNat ≠ 48 := fun h => hzero (Char.toNat_inj.mp h)
  rw [Nat.ofDigitChars_append, Nat.ofDigitChars_cons, Nat.ofDigitChars_nil]
  change (10 * _ + (c.toNat - 48)) % 10 ≠ 0
  omega

/-- Without a point the zeros at the end are lost, and the text is that of what is in front. -/
theorem exists_text_without_places (hfinite : g.isFinite = true) :
    ∃ text k j, placesText g 0 = .ok text ∧ fixed g 0 = k * 10 ^ j ∧ (k = 0 → j = 0) ∧
      (fixed g 0 ≠ 0 → k % 10 ≠ 0) ∧ Reads text (ofDecimal (isNegative g) ⟨k, 0⟩) := by
  have hdigits := isDigits_placedDigits g 0
  have hnumber := ofDigitChars_placedDigits g 0
  have hplaced := placed_eq hfinite 0
  have hall : (placedDigits g 0).drop ((placedDigits g 0).length - 0) = [] := List.drop_length
  have hwhole : (placedDigits g 0).take ((placedDigits g 0).length - 0) = placedDigits g 0 :=
    List.take_length
  rw [hall, hwhole, joinPoint] at hplaced
  generalize placedDigits g 0 = digits at *
  obtain ⟨kept, j, rfl, hlast⟩ := exists_zeros_at_end digits
  have hsigned : signedText (isNegative g) (kept ++ List.replicate j '0') =
      signedText (isNegative g) kept ++ List.replicate j '0' := by
    unfold signedText
    split <;> rfl
  have hcount : Display.precision 0 = .ok 0 := rfl
  have htext := placesText_eq g hcount
  rw [show min 0 mostPlaces = 0 from rfl, hplaced, hsigned, Display.dropZeros_append_replicate]
    at htext
  rw [Nat.ofDigitChars_append, Nat.ofDigitChars_replicate_zero] at hnumber
  rcases List.eq_nil_or_concat kept with rfl | ⟨init, c, rfl⟩
  · rw [Nat.ofDigitChars_nil, Nat.mul_zero, eq_comm] at hnumber
    refine ⟨"0", 0, 0, ?_, hnumber, fun _ => rfl, fun h => absurd hnumber h, 0.0,
      by decide +kernel, beq_iff.mpr ⟨by decide, .inr ⟨by decide, ?_⟩⟩⟩
    · rw [htext]
      exact congrArg Except.ok (by cases isNegative g <;> decide)
    · rw [ofDecimal_of_digits_eq_zero rfl]
      cases isNegative g <;> decide
  · rw [List.concat_eq_append] at *
    have hdigit : c.isDigit = true := hdigits c (by simp)
    have hzero : c ≠ '0' := by simpa using hlast
    have hpoint : c ≠ '.' := by
      rintro rfl
      cases hdigit
    have hkept : Display.dropZeros (signedText (isNegative g) (init ++ [c])) =
        signedText (isNegative g) (init ++ [c]) := by
      have hdrop (before : List Char) : Display.dropZeros (before ++ [c]) = before ++ [c] := by
        rw [Display.dropZeros_append_singleton _ hzero, if_neg hpoint]
      cases isNegative g with
      | false => exact hdrop init
      | true => exact hdrop ('-' :: init)
    rw [hkept] at htext
    let n : Numeral := ⟨init ++ [c], [], none, by simp, by
      rw [List.append_nil]
      exact fun d hd => hdigits d (List.mem_append_left _ hd)⟩
    have hn : n.decimal = ⟨Nat.ofDigitChars 10 (init ++ [c]) 0, 0⟩ := by
      change (⟨Nat.ofDigitChars 10 (init ++ [c] ++ []) 0, 0⟩ : Decimal) = _
      rw [List.append_nil]
    have hmod := ofDigitChars_concat_mod init hdigit hzero
    refine ⟨_, Nat.ofDigitChars 10 (init ++ [c]) 0, j, htext, ?_, ?_, fun _ => hmod,
      reads_repaired (n := n) ?_ (by rw [hn])⟩
    · rw [Nat.mul_comm]
      exact hnumber.symm
    · intro h
      rw [h] at hmod
      exact absurd rfl hmod
    · change _ = signedText (isNegative g) (init ++ [c] ++ [])
      rw [List.append_nil]

theorem fixed_zero_le (hfinite : x.isFinite = true) (h : isIntegral x = false) :
    fixed x 0 ≤ 2 ^ 53 := by
  have hnear := ((fixed_eq_iff x 0).mp rfl).near.2
  have hless := value_lt_of_isIntegral_eq_false hfinite h
  rw [neg_zero, zpow_zero, mul_one] at hnear
  have hbound : (fixed x 0 : ℚ) ≤ 2 ^ 53 := by linarith
  exact_mod_cast hbound

/-- The rounded value is the whole number that it is rounded to. -/
theorem value_roundTo_zero (hfinite : x.isFinite = true) (h : isIntegral x = false) :
    (magnitude (roundTo x 0)).value = fixed x 0 := by
  rw [roundTo_of_le hfinite (le_refl 0) (by decide)]
  exact value_ofDecimal_whole (fixed_zero_le hfinite h)

/-- A whole number is not the same as a value that is not whole. -/
theorem beq_eq_false_of_value {y : Float} {k : Nat} (hfinite : x.isFinite = true)
    (h : isIntegral x = false) (hy : (magnitude y).value = k) : (y == x) = false := by
  rw [← Bool.not_eq_true]
  intro hsame
  have hwhole := (isIntegral_iff x).mpr ⟨hfinite, k, (value_eq_of_beq hsame).symm.trans hy⟩
  rw [h] at hwhole
  cases hwhole

/-- A value that is not whole is never read back without decimal places, and the rounded value is
unless it has zeros at the end. -/
theorem exists_text_of_isIntegral_eq_false (hfinite : x.isFinite = true)
    (hsize : (magnitude x).value ≤ 10 ^ 16) (h : isIntegral x = false) :
    ∃ text, placesText (roundTo x 0) 0 = .ok text ∧ ¬Reads text x ∧
      (Reads text (roundTo x 0) ↔ fixed x 0 = 0 ∨ fixed x 0 % 10 ≠ 0) := by
  have hrounded := roundTo_of_le hfinite (le_refl 0) (by decide)
  have hsmall := fixed_zero_le hfinite h
  obtain ⟨text, k, j, htext, hk, hnone, hlast, hreads⟩ :=
    exists_text_without_places (isFinite_roundTo hfinite hsize (le_refl 0))
  have hfixed : fixed (roundTo x 0) 0 = fixed x 0 := by
    rw [hrounded]
    exact fixed_ofDecimal hfinite hsize (le_refl 0) (by decide) _
  have hnegative : isNegative (roundTo x 0) = isNegative x := by
    rw [hrounded, (ofDecimal_spec _ _).1]
  rw [hfixed] at hk hlast
  rw [hnegative] at hreads
  have hkle : k ≤ 2 ^ 53 := (Nat.le_mul_of_pos_right k (Nat.pow_pos (by decide))).trans (hk ▸ hsmall)
  refine ⟨text, htext, fun hx => ?_, ?_⟩
  · have hvalue : (magnitude (ofDecimal (isNegative x) ⟨k, 0⟩)).value = k :=
      value_ofDecimal_whole hkle
    have hdiffers := beq_eq_false_of_value hfinite h hvalue
    exact Bool.false_ne_true (hdiffers.symm.trans (hreads.iff.mp hx))
  · rw [hreads.iff]
    constructor
    · intro hsame
      have hvalue := value_eq_of_beq hsame
      rw [value_ofDecimal_whole hkle, value_roundTo_zero hfinite h] at hvalue
      have heq : k = fixed x 0 := by exact_mod_cast hvalue
      by_cases hnil : fixed x 0 = 0
      · exact .inl hnil
      · exact .inr (heq ▸ hlast hnil)
    · intro hcases
      have heq : k = fixed x 0 := by
        rcases Nat.eq_zero_or_pos j with rfl | hj
        · rw [hk, Nat.pow_zero, Nat.mul_one]
        · rcases hcases with hnil | hmod
          · rw [hnil] at hk
            have hkzero := (Nat.mul_eq_zero.mp hk.symm).resolve_right (Nat.pow_pos (by decide)).ne'
            exact absurd (hnone hkzero) hj.ne'
          · obtain ⟨i, rfl⟩ := Nat.exists_eq_succ_of_ne_zero hj.ne'
            rw [hk, Nat.pow_succ, ← Nat.mul_assoc, Nat.mul_mod_left] at hmod
            exact absurd rfl hmod
      have hsame : ofDecimal (isNegative x) ⟨k, 0⟩ = roundTo x 0 := by
        rw [hrounded, heq]
        rfl
      rw [hsame]
      exact beq_iff.mpr
        ⟨isNaN_eq_false (isFinite_roundTo hfinite hsize (le_refl 0)), .inl rfl⟩

/-! ## What is displayed -/

/-- Without decimal places the zeros at the end of a whole number are lost with the point. -/
def LosesZeros (x : Float) (places : Int) : Prop :=
  isIntegral x = false ∧ places = 0 ∧ fixed x 0 ≠ 0 ∧ fixed x 0 % 10 = 0

instance (x : Float) (places : Int) : Decidable (LosesZeros x places) :=
  inferInstanceAs (Decidable (_ ∧ _))

/-- The text is that of the rounded value unless zeros are lost, and the sign in front tells whether
it is that of the value. -/
structure Rounded.IsOf (r : Rounded) (x : Float) (places : Int) : Prop where
  cut : r.cut = false ↔ Reads r.text x
  text : Reads r.text (roundTo x places) ↔ ¬LosesZeros x places

theorem not_le_of_abs_lt {y : Float} (h : x.abs < y) : ¬y ≤ x.abs := by
  intro hle
  have hlt := beq_iff_eq.mp (compare_of_lt h)
  have hge := compare_of_le hle
  have hnan {a b : Float.Model.UnpackedFloat} {o : Ordering} (h : a.compare b = some o) :
      a.isNaN = false ∧ b.isNaN = false := by
    cases a <;> cases b <;> first | exact ⟨rfl, rfl⟩ | cases h
  obtain ⟨o, ho, hswap⟩ := exists_compare (hnan hlt).1 (hnan hlt).2
  rw [hswap] at hge
  rw [hlt] at ho
  cases ho
  cases hge

theorem roundReal_of_isIntegral (hsize : x.abs < 1e16) (h : isIntegral x = true) (places : Int) :
    roundReal places x = .ok ⟨toString (truncate x), false⟩ := by
  have hunrounded : unrounded? x = some ⟨toString (truncate x), false⟩ := by
    unfold unrounded?
    rw [if_pos (by simp [isPlainWhole, h, hsize])]
  unfold roundReal
  rw [hunrounded]

theorem roundReal_of_isIntegral_eq_false (hsize : x.abs < 1e16) (h : isIntegral x = false)
    (places : Int) : roundReal places x = (placesText (roundTo x places) places).map
      fun text => ⟨text, roundTo x places != x⟩ := by
  have hfinite := (value_lt_of_abs_lt hsize).1
  have hunrounded : unrounded? x = none := by
    unfold unrounded?
    rw [if_neg (by simp [isPlainWhole, h]), if_neg (by simp [hfinite, not_le_of_abs_lt hsize])]
  unfold roundReal
  rw [hunrounded]
  rfl

/-- A value below ten to the sixteenth in size is displayed as it is rounded, or there are more
decimal places than can be asked for. -/
theorem roundReal_displays (hsize : x.abs < 1e16) {places : Int} (hplaces : 0 ≤ places) :
    (∃ r, roundReal places x = .ok r ∧ r.IsOf x places) ∨
      isIntegral x = false ∧ Display.largestPrecision < places ∧
        ∃ cause, Display.Refusal places cause ∧ roundReal places x = .error cause := by
  obtain ⟨hfinite, hvalue⟩ := value_lt_of_abs_lt hsize
  cases hwhole : isIntegral x with
  | true =>
      have hreads := reads_truncate hwhole
      refine .inl ⟨_, roundReal_of_isIntegral hsize hwhole places, ⟨fun _ => hreads, fun _ => rfl⟩, ?_⟩
      rw [roundTo_of_isIntegral hwhole hplaces]
      exact ⟨fun _ hloses => Bool.false_ne_true (hloses.1.symm.trans hwhole), fun _ => hreads⟩
  | false =>
      rw [roundReal_of_isIntegral_eq_false hsize hwhole]
      rcases le_or_gt places Display.largestPrecision with hmost | hmore
      · left
        have hcount := precision_eq_ok hplaces hmost
        rcases hplaces.eq_or_lt with rfl | hpos
        · obtain ⟨text, htext, hcut, hreads⟩ :=
            exists_text_of_isIntegral_eq_false hfinite hvalue.le hwhole
          have hdiffers := beq_eq_false_of_value hfinite hwhole (value_roundTo_zero hfinite hwhole)
          refine ⟨⟨text, roundTo x 0 != x⟩, by rw [htext]; rfl, ⟨fun h => ?_, fun h => absurd h hcut⟩, ?_⟩
          · simp [bne, hdiffers] at h
          · rw [hreads, LosesZeros]
            simp only [hwhole, true_and, not_and_or, not_not]
        · obtain ⟨text, htext, hreads⟩ := reads_placesText
            (isFinite_roundTo hfinite hvalue.le hplaces) hcount (by omega)
            (ofDecimal_roundTo hfinite hvalue.le hplaces)
          refine ⟨⟨text, roundTo x places != x⟩, by rw [htext]; rfl, ?_,
            fun _ hloses => hpos.ne' hloses.2.1, fun _ => hreads⟩
          rw [hreads.iff]
          simp [bne]
      · refine .inr ⟨rfl, hmore, ?_⟩
        obtain ⟨cause, hrefusal, hprecision⟩ := exists_refusal hmore
        refine ⟨cause, hrefusal, ?_⟩
        unfold placesText
        rw [hprecision]
        rfl

/-- The same for a value with the decimal places that are asked for. -/
theorem rounded_displays (settings : Settings) (hsize : x.abs < 1e16) {places : Int}
    (hplaces : 0 ≤ places) :
    (∃ r, rounded settings (some (.number (.whole places))) (.number (.real x)) = .ok r ∧
      r.IsOf x places) ∨
      isIntegral x = false ∧ Display.largestPrecision < places ∧
        ∃ cause, Display.Refusal places cause ∧
          rounded settings (some (.number (.whole places))) (.number (.real x)) = .error cause :=
  roundReal_displays hsize hplaces

theorem rounded_displays_third :
    (1 / 3 : Float).abs < 1e16 ∧ (0 : Int) ≤ 2 ∧
      ∃ r, rounded (.ok Settings.defaults) (some (.number (.whole 2))) (.number (.real (1 / 3))) = .ok r ∧
        r.IsOf (1 / 3) 2 := by
  have hsize : (1 / 3 : Float).abs < 1e16 := by decide +kernel
  have hplaces : (0 : Int) ≤ 2 := by decide
  refine ⟨hsize, hplaces, ?_⟩
  exact (rounded_displays (.ok Settings.defaults) hsize hplaces).resolve_right fun h =>
    absurd h.2.1 (by decide)

example : LosesZeros 9.7 0 ∧ (roundReal 0 9.7).toOption = some ⟨"1", true⟩ := by decide +kernel

end Console

end Reckoner
