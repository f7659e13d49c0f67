import Reckoner.Json.Text
import Mathlib.Tactic.Common

/-!
# Quoted text reads back

Every character of a text goes through its code units: escaped or not, a character is read as its
units, and the units of a text are joined to its characters again. So a quoted text is read back,
whatever stands behind it: `scan_escape`.
-/

namespace Reckoner.Json

/-! ## Hexadecimal digits -/

theorem hexDigits_succ {width : Nat} (hwidth : 0 < width) (n : Nat) :
    Text.hexDigits (width + 1) n = Text.hexDigits width (n / 16) ++ [Nat.digitChar (n % 16)] := by
  unfold Text.hexDigits
  rcases Nat.lt_or_ge n 16 with hsmall | hlarge
  · obtain ⟨w, rfl⟩ : ∃ w, width = w + 1 := ⟨width - 1, by omega⟩
    rw [Nat.toDigits_of_lt_base hsmall, Nat.div_eq_of_lt hsmall, Nat.mod_eq_of_lt hsmall,
      Nat.toDigits_zero]
    change List.replicate (w + 1) '0' ++ _ = List.replicate w '0' ++ ['0'] ++ _
    rw [List.replicate_succ']
  · rw [Nat.toDigits_of_base_le (by decide) hlarge]
    dsimp only
    rw [List.length_append, List.length_singleton, Nat.add_sub_add_right, List.append_assoc]

theorem hexDigits_four (n : Nat) (hn : n < 0x10000) : Text.hexDigits 4 n =
    [Nat.digitChar (n / 0x1000), Nat.digitChar (n / 0x100 % 16), Nat.digitChar (n / 16 % 16),
      Nat.digitChar (n % 16)] := by
  have hfirst : n / 16 / 16 / 16 < 16 := by omega
  rw [hexDigits_succ (by decide), hexDigits_succ (by decide), hexDigits_succ (by decide)]
  have hone : Text.hexDigits 1 (n / 16 / 16 / 16) = [Nat.digitChar (n / 16 / 16 / 16)] := by
    unfold Text.hexDigits
    rw [Nat.toDigits_of_lt_base hfirst]
    rfl
  have hsecond : n / 16 / 16 = n / 0x100 := Nat.div_div_eq_div_mul n 16 16
  rw [hone, hsecond, show n / 0x100 / 16 = n / 0x1000 from Nat.div_div_eq_div_mul n 0x100 16]
  rfl

theorem hexValue?_digitChar {d : Nat} (h : d < 16) : hexValue? (Nat.digitChar d) = some d := by
  have hall : ∀ d : Fin 16, hexValue? (Nat.digitChar d) = some d.val := by decide
  exact hall ⟨d, h⟩

theorem units?_numberedUnit {n : Nat} (hn : n < 0x10000) (rest : List Char) :
    units? (numberedUnit n ++ rest) = (units? rest).map fun (ns, tail) => (n :: ns, tail) := by
  have hunit : unit? (Nat.digitChar (n / 0x1000)) (Nat.digitChar (n / 0x100 % 16))
      (Nat.digitChar (n / 16 % 16)) (Nat.digitChar (n % 16)) = some n := by
    unfold unit?
    rw [hexValue?_digitChar (by omega), hexValue?_digitChar (by omega),
      hexValue?_digitChar (by omega), hexValue?_digitChar (by omega)]
    simp only [Option.bind_eq_bind, Option.bind_some, Option.pure_def, Option.some.injEq]
    omega
  unfold numberedUnit
  rw [hexDigits_four n hn]
  simp only [List.cons_append, List.nil_append, units?, hunit]

/-! ## Characters -/

theorem codeUnits_lt (c : Char) : ∀ n ∈ codeUnits c, n < 0x10000 := by
  have hvalid : c.toNat < 0xD800 ∨ 0xDFFF < c.toNat ∧ c.toNat < 0x110000 := c.valid
  unfold codeUnits
  dsimp only
  split <;> simp <;> omega

theorem units?_flatMap_numberedUnit {ns : List Nat} (h : ∀ n ∈ ns, n < 0x10000)
    (rest : List Char) : units? (ns.flatMap numberedUnit ++ rest) =
      (units? rest).map fun (ms, tail) => (ns ++ ms, tail) := by
  induction ns with
  | nil => simp
  | cons n ns ih =>
      rw [List.flatMap_cons, List.append_assoc, units?_numberedUnit (h n List.mem_cons_self),
        ih fun m hm => h m (List.mem_cons_of_mem n hm), Option.map_map]
      rfl

/-- The letters of the escapes are told apart, from each other and from the mark of a number. -/
theorem letterEscapes_spec : ∀ e ∈ letterEscapes,
    e.2 ≠ 'u' ∧ unescape? e.2 = some e.1 ∧ codeUnits e.1 = [e.1.toNat] := by decide

theorem units?_plain {c : Char} (hquote : c ≠ '"') (hslash : c ≠ '\\') (hc : 0x20 ≤ c.toNat)
    (rest : List Char) :
    units? (c :: rest) = (units? rest).map fun (ns, tail) => (c.toNat :: ns, tail) := by
  rw [units?]
  · rw [if_neg (by simp [hslash]; omega)]
  all_goals simp_all

theorem units?_letter {letter c : Char} (hletter : letter ≠ 'u') (h : unescape? letter = some c)
    (rest : List Char) :
    units? ('\\' :: letter :: rest) = (units? rest).map fun (ns, tail) => (c.toNat :: ns, tail) := by
  rw [units?]
  · rw [h]
  · simp_all

/-- A character is read as its code units, whichever way it has been escaped. -/
theorem units?_escapeChar (c : Char) (rest : List Char) : units? (escapeChar c ++ rest) =
    (units? rest).map fun (ns, tail) => (codeUnits c ++ ns, tail) := by
  unfold escapeChar
  split
  case h_1 key letter hfind =>
      have hspec := letterEscapes_spec _ (List.mem_of_find?_eq_some hfind)
      obtain rfl : key = c := by simpa using List.find?_some hfind
      rw [hspec.2.2]
      exact units?_letter hspec.1 hspec.2.1 rest
  case h_2 hfind =>
      split
      case isTrue hplain =>
          obtain ⟨hlow, hhigh⟩ : 0x20 ≤ c.toNat ∧ c.toNat < 0x7F := by simpa using hplain
          have hunits : codeUnits c = [c.toNat] := if_pos (by omega)
          have hne : ∀ e ∈ letterEscapes, c ≠ e.1 := by
            intro e he heq
            simpa [heq] using List.find?_eq_none.mp hfind e he
          rw [hunits]
          exact units?_plain (hne ('"', '"') (by decide)) (hne ('\\', '\\') (by decide)) hlow rest
      case isFalse => exact units?_flatMap_numberedUnit (codeUnits_lt c) rest

/-- Code units of a character are joined to the character. -/
theorem joinUnits_codeUnits (c : Char) (ns : List Nat) :
    joinUnits (codeUnits c ++ ns) = c :: joinUnits ns := by
  have hvalid : c.toNat < 0xD800 ∨ 0xDFFF < c.toNat ∧ c.toNat < 0x110000 := c.valid
  unfold codeUnits
  dsimp only
  split
  case isTrue hbasic =>
      have hhigh : isHigh c.toNat = false := by
        simp only [isHigh, Bool.and_eq_false_iff, decide_eq_false_iff_not]
        omega
      have hlow : isLow c.toNat = false := by
        simp only [isLow, Bool.and_eq_false_iff, decide_eq_false_iff_not]
        omega
      have hchar : charOf c.toNat = c := by
        rw [charOf, hhigh, hlow]
        exact Char.ofNat_toNat c
      cases ns with
      | nil => exact congrArg (fun d => [d]) hchar
      | cons m ms =>
          rw [List.singleton_append, joinUnits, hhigh, Bool.false_and, if_neg Bool.false_ne_true,
            hchar]
  case isFalse hbeyond =>
      have hhigh : isHigh (0xD800 + (c.toNat - 0x10000) / 0x400) = true := by
        simp only [isHigh, Bool.and_eq_true, decide_eq_true_eq]
        omega
      have hlow : isLow (0xDC00 + (c.toNat - 0x10000) % 0x400) = true := by
        simp only [isLow, Bool.and_eq_true, decide_eq_true_eq]
        omega
      have hnumber : 0x10000 + (0xD800 + (c.toNat - 0x10000) / 0x400 - 0xD800) * 0x400 +
          (0xDC00 + (c.toNat - 0x10000) % 0x400 - 0xDC00) = c.toNat := by omega
      rw [List.cons_append, List.singleton_append, joinUnits, hhigh, hlow, Bool.and_self,
        if_pos rfl, hnumber, Char.ofNat_toNat]

/-! ## Texts -/

theorem units?_flatMap_escapeChar (s rest : List Char) :
    units? (s.flatMap escapeChar ++ '"' :: rest) = some (s.flatMap codeUnits, rest) := by
  induction s with
  | nil => rfl
  | cons c s ih =>
      rw [List.flatMap_cons, List.append_assoc, units?_escapeChar, ih]
      rfl

theorem joinUnits_flatMap_codeUnits (s : List Char) : joinUnits (s.flatMap codeUnits) = s := by
  induction s with
  | nil => rfl
  | cons c s ih => rw [List.flatMap_cons, joinUnits_codeUnits, ih]

/-- Behind its opening quote a quoted text is read up to its closing quote. -/
theorem scan_escape (s rest : List Char) :
    scan (s.flatMap escapeChar ++ '"' :: rest) = some (s, rest) := by
  rw [scan, units?_flatMap_escapeChar, Option.map_some]
  exact congrArg (fun t => some (t, rest)) (joinUnits_flatMap_codeUnits s)

end Reckoner.Json
