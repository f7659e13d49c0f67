import Reckoner.Proofs.Double.Decimal
import Reckoner.Proofs.Double.Numeral

/-!
# Numbers without a sign

A text that starts like a number, with a digit or a point, is read as a number without a sign if
it is read at all, whatever follows.
-/

namespace Reckoner.Double

open Reckoner.Text

theorem trimAll_cons {p : Char → Bool} {c : Char} (h : p c = false) (s : List Char) :
    ∃ t, trimAll p (c :: s) = c :: t := by
  unfold trimAll
  rw [List.dropWhile_cons_of_neg (by simp [h]), List.reverse_cons, List.dropWhile_append]
  split
  · rw [List.dropWhile_cons_of_neg (by simp [h])]
    exact ⟨[], rfl⟩
  · rw [List.reverse_append]
    exact ⟨_, rfl⟩

theorem eq_of_toLower_eq_n {c : Char} (h : c.toLower = 'n') : c = 'n' ∨ c = 'N' := by
  unfold Char.toLower at h
  split at h
  case isFalse => exact .inl h
  case isTrue hupper =>
      right
      apply Char.ext
      have hval : c.val + 32 = 110 := congrArg Char.val h
      change c.val = 78
      grind

/-- A text that starts with a digit or a point spells a number without a sign, if any. -/
theorem read?_unsigned {c : Char} {cs : List Char} {x : Float} (hblank : isBlank c = false)
    (hc : isDigit c = true ∨ c = '.') (h : read? (c :: cs) = some x) :
    x.isNaN = false ∧ isNegative x = false := by
  obtain ⟨t, ht⟩ : ∃ t, withoutMargins (c :: cs) = c :: t := trimAll_cons (by simp [hblank]) cs
  have hne {d : Char} (hd : isDigit d = false ∧ d ≠ '.') : c ≠ d := by
    rintro rfl
    rw [hd.1] at hc
    exact hd.2 (hc.resolve_left (by decide))
  have hsign : signPart (c :: t) = (false, c :: t) :=
    signPart_cons (hne (by decide +kernel)) (hne (by decide +kernel)) t
  have hnan : ¬ String.ofList ((c :: t).map Char.toLower) = "nan" := by
    intro heq
    have hlist := congrArg String.toList heq
    rw [String.toList_ofList, List.map_cons] at hlist
    injection hlist with hn
    rcases eq_of_toLower_eq_n hn with heq | heq
    · exact hne (by decide +kernel) heq
    · exact hne (by decide +kernel) heq
  have hbits : ∃ bits ≤ 0x7FF * twoTo 52, x = withSign false bits := by
    unfold read? at h
    simp only [ht, hsign] at h
    by_cases hinf : String.ofList ((c :: t).map Char.toLower) = "inf" ∨
        String.ofList ((c :: t).map Char.toLower) = "infinity"
    · replace h := (if_pos hinf).symm.trans h
      cases h
      exact ⟨_, Nat.le_refl _, rfl⟩
    · replace h := (if_neg hinf).symm.trans h
      replace h := (if_neg hnan).symm.trans h
      cases hdecimal : (dropUnderscores (c :: t)).bind decimal? with
      | none => rw [hdecimal] at h; cases h
      | some d =>
          rw [hdecimal] at h
          cases h
          obtain ⟨bits, hbits, hvalue⟩ := exists_bits_ofDecimal d
          exact ⟨bits, hbits, hvalue false⟩
  obtain ⟨bits, hle, rfl⟩ := hbits
  exact ⟨isNaN_withSign hle, isNegative_withSign hle⟩

end Reckoner.Double
