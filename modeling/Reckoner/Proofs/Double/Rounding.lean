import Reckoner.Proofs.Double.Bits
import Reckoner.Proofs.Double.Value

/-!
# Rounding quotients

A quotient of whole numbers is rounded to the magnitude in whose neighbourhood it lies, ends
included where the significand is even: `ofRatio_eq`. Just below a power of two the quotient is
measured in units half as large as those of the magnitude, and rounds up into the power.
-/

namespace Reckoner.Double

/-- A quotient is rounded to the whole number within a half, and to the even one of two. -/
theorem roundRatio_eq {n d k : Nat} (hd : 0 < d) (hlow : 2 * k * d ≤ 2 * n + d)
    (hhigh : 2 * n ≤ 2 * k * d + d)
    (htie : k % 2 = 1 → 2 * k * d < 2 * n + d ∧ 2 * n < 2 * k * d + d) : roundRatio n d = k := by
  have hdiv := Nat.div_add_mod n d
  have hmod := Nat.mod_lt n hd
  unfold roundRatio
  dsimp only
  generalize n / d = q at *
  generalize n % d = r at *
  have hn : 2 * n = 2 * q * d + 2 * r := by
    rw [← hdiv]
    ring
  have hcases : q = k ∨ q + 1 = k := by
    have hupper : q < k + 1 := by
      by_contra hge
      have := Nat.mul_le_mul_right d (Nat.not_lt.mp hge)
      have : (k + 1) * d = k * d + d := by ring
      have : 2 * q * d = 2 * (q * d) := by ring
      have : 2 * k * d = 2 * (k * d) := by ring
      omega
    have hlower : k < q + 2 := by
      by_contra hge
      have := Nat.mul_le_mul_right d (Nat.not_lt.mp hge)
      have : (q + 2) * d = q * d + 2 * d := by ring
      have : 2 * q * d = 2 * (q * d) := by ring
      have : 2 * k * d = 2 * (k * d) := by ring
      omega
    omega
  rcases hcases with rfl | rfl
  · have hr : 2 * r ≤ d := by omega
    by_cases hlt : 2 * r < d
    · rw [if_pos hlt]
    · rw [if_neg hlt, if_neg (by omega)]
      have heven : ¬ q % 2 = 1 := fun hodd => by
        have := (htie hodd).2
        omega
      omega
  · have hexpand : 2 * (q + 1) * d = 2 * q * d + 2 * d := by ring
    have hr : d ≤ 2 * r := by omega
    rw [if_neg (by omega)]
    by_cases hlt : d < 2 * r
    · rw [if_pos hlt]
    · rw [if_neg hlt]
      have heven : ¬ (q + 1) % 2 = 1 := fun hodd => by
        have := (htie hodd).1
        omega
      omega

/-- Rounding to a whole number is off by a half at most, and by less if it gives an odd one. -/
theorem roundRatio_bounds {n d : Nat} (hd : 0 < d) :
    2 * roundRatio n d * d ≤ 2 * n + d ∧ 2 * n ≤ 2 * roundRatio n d * d + d ∧
      (roundRatio n d % 2 = 1 →
        2 * roundRatio n d * d < 2 * n + d ∧ 2 * n < 2 * roundRatio n d * d + d) := by
  have hdiv := Nat.div_add_mod n d
  have hmod := Nat.mod_lt n hd
  unfold roundRatio
  dsimp only
  generalize n / d = q at *
  generalize n % d = r at *
  have hn : 2 * n = 2 * q * d + 2 * r := by
    rw [← hdiv]
    ring
  have hnext : 2 * (q + 1) * d = 2 * q * d + 2 * d := by ring
  split
  · omega
  · split
    · omega
    · rcases Nat.mod_two_eq_zero_or_one q with heven | hodd
      · rw [heven, Nat.add_zero]
        omega
      · rw [hodd]
        omega

/-- A value is rounded to so many units, a tie going to the even number of them. -/
structure RoundsIn (v : ℚ) (k : Nat) (u : ℚ) : Prop where
  low : (2 * k - 1) * u ≤ 2 * v
  high : 2 * v ≤ (2 * k + 1) * u
  odd : k % 2 = 1 → (2 * k - 1) * u < 2 * v ∧ 2 * v < (2 * k + 1) * u

/-- It is off by half a unit at most. -/
theorem RoundsIn.near {v u : ℚ} {k : Nat} (h : RoundsIn v k u) :
    2 * v ≤ 2 * (k * u) + u ∧ 2 * (k * u) ≤ 2 * v + u := by
  have hlow := h.low
  have hhigh := h.high
  constructor <;> linarith

/-- Rounding a quotient in units that are a quotient themselves. -/
theorem roundRatio_eq_iff {n d up down k : Nat} {u : ℚ} (hd : 0 < d) (hup : 0 < up)
    (hdown : 0 < down) (hunit : (up : ℚ) = u * down) :
    roundRatio (n * down) (d * up) = k ↔ RoundsIn (n / d) k u := by
  have hscale : (0 : ℚ) < d * down := by positivity
  have hn : ((n * down : Nat) : ℚ) = n / d * (d * down) := by
    have hne : (d : ℚ) ≠ 0 := by positivity
    rw [Nat.cast_mul]
    field_simp
  have hd' : ((d * up : Nat) : ℚ) = u * (d * down) := by
    rw [Nat.cast_mul, hunit]
    ring
  have hpoint : ((2 * k * (d * up) : Nat) : ℚ) = 2 * k * u * (d * down) := by
    rw [Nat.cast_mul, hd']
    push_cast
    ring
  have hvalue : ((2 * (n * down) : Nat) : ℚ) = 2 * (n / d) * (d * down) := by
    rw [Nat.cast_mul, hn]
    push_cast
    ring
  have hle {a b : Nat} {x y : ℚ} (ha : (a : ℚ) = x * (d * down)) (hb : (b : ℚ) = y * (d * down)) :
      a ≤ b + d * up ↔ x ≤ y + u := by
    rw [← @Nat.cast_le ℚ, Nat.cast_add, ha, hb, hd', ← add_mul, mul_le_mul_iff_left₀ hscale]
  have hlt {a b : Nat} {x y : ℚ} (ha : (a : ℚ) = x * (d * down)) (hb : (b : ℚ) = y * (d * down)) :
      a < b + d * up ↔ x < y + u := by
    rw [← @Nat.cast_lt ℚ, Nat.cast_add, ha, hb, hd', ← add_mul, mul_lt_mul_iff_left₀ hscale]
  constructor
  · rintro rfl
    obtain ⟨hlow, hhigh, hodd⟩ := roundRatio_bounds (n := n * down) (Nat.mul_pos hd hup)
    have hlow := (hle hpoint hvalue).mp hlow
    have hhigh := (hle hvalue hpoint).mp hhigh
    refine ⟨by linarith, by linarith, fun h => ?_⟩
    have hlow := (hlt hpoint hvalue).mp (hodd h).1
    have hhigh := (hlt hvalue hpoint).mp (hodd h).2
    exact ⟨by linarith, by linarith⟩
  · intro h
    have hlow := h.low
    have hhigh := h.high
    refine roundRatio_eq (Nat.mul_pos hd hup) ((hle hpoint hvalue).mpr (by linarith))
      ((hle hvalue hpoint).mpr (by linarith)) fun hodd => ?_
    have ⟨hlow, hhigh⟩ := h.odd hodd
    exact ⟨(hlt hpoint hvalue).mpr (by linarith), (hlt hvalue hpoint).mpr (by linarith)⟩

/-- Rounding a quotient in units of a power of two. -/
theorem roundRatio_two_eq_iff {n d k : Nat} (hd : 0 < d) (e : Int) :
    roundRatio (n * (powerRatio 2 e).2) (d * (powerRatio 2 e).1) = k ↔ RoundsIn (n / d) k (2 ^ e) :=
  have ⟨hup, hdown⟩ := powerRatio_pos (by decide : 0 < 2) e
  roundRatio_eq_iff hd hup hdown (powerRatio_two e)

/-! ## The exponent of the result -/

/-- The whole powers of two around a quotient. -/
theorem log2_bounds {n d : Nat} (hn : 0 < n) (hd : 0 < d) :
    (2 : ℚ) ^ ((n.log2 : Int) - d.log2 - 1) < n / d ∧
      (n / d : ℚ) < 2 ^ ((n.log2 : Int) - d.log2 + 1) := by
  have hdpos : (0 : ℚ) < d := by exact_mod_cast hd
  have hn1 : (2 : ℚ) ^ (n.log2 : Int) ≤ n := by
    exact_mod_cast Nat.log2_self_le (Nat.ne_of_gt hn)
  have hn2 : (n : ℚ) < 2 ^ ((n.log2 : Int) + 1) := by
    exact_mod_cast Nat.lt_log2_self (n := n)
  have hd1 : (2 : ℚ) ^ (d.log2 : Int) ≤ d := by
    exact_mod_cast Nat.log2_self_le (Nat.ne_of_gt hd)
  have hd2 : (d : ℚ) < 2 ^ ((d.log2 : Int) + 1) := by
    exact_mod_cast Nat.lt_log2_self (n := d)
  constructor
  · rw [lt_div_iff₀ hdpos]
    calc (2 : ℚ) ^ ((n.log2 : Int) - d.log2 - 1) * d
        < 2 ^ ((n.log2 : Int) - d.log2 - 1) * 2 ^ ((d.log2 : Int) + 1) :=
          mul_lt_mul_of_pos_left hd2 (by positivity)
      _ = 2 ^ (n.log2 : Int) := by
          rw [← zpow_add₀ (by norm_num)]
          congr 1
          omega
      _ ≤ n := hn1
  · rw [div_lt_iff₀ hdpos]
    calc (n : ℚ) < 2 ^ ((n.log2 : Int) + 1) := hn2
      _ = 2 ^ ((n.log2 : Int) - d.log2 + 1) * 2 ^ (d.log2 : Int) := by
          rw [← zpow_add₀ (by norm_num)]
          congr 1
          omega
      _ ≤ 2 ^ ((n.log2 : Int) - d.log2 + 1) * d :=
          mul_le_mul_of_nonneg_left hd1 (by positivity)

/-- The exponent that gives a quotient 53 bits, unless the least exponent is greater. -/
theorem targetExponent_spec {n d : Nat} (hn : 0 < n) (hd : 0 < d) :
    ∃ t : Int, targetExponent n d = max t (-1074) ∧
      (2 : ℚ) ^ (t + 52) ≤ n / d ∧ (n / d : ℚ) < 2 ^ (t + 53) := by
  obtain ⟨hlow, hhigh⟩ := log2_bounds hn hd
  obtain ⟨hup, hdown⟩ := powerRatio_pos (by decide : 0 < 2) ((n.log2 : Int) - d.log2 - 52)
  have hpower := powerRatio_two ((n.log2 : Int) - d.log2 - 52)
  unfold targetExponent
  dsimp only
  generalize hg : (n.log2 : Int) - d.log2 - 52 = g at hup hdown hpower ⊢
  generalize (powerRatio 2 g).1 = up at *
  generalize (powerRatio 2 g).2 = down at *
  have hlow' : (2 : ℚ) ^ (g + 51) < n / d := by
    rwa [show g + 51 = (n.log2 : Int) - d.log2 - 1 by omega]
  have hhigh' : (n / d : ℚ) < 2 ^ (g + 53) := by
    rwa [show g + 53 = (n.log2 : Int) - d.log2 + 1 by omega]
  have hdpos : (0 : ℚ) < d := by exact_mod_cast hd
  have hdownpos : (0 : ℚ) < down := by exact_mod_cast hdown
  have hiff : n * down < twoTo 52 * (d * up) ↔ (n / d : ℚ) < 2 ^ (g + 52) := by
    have hright : ((twoTo 52 * (d * up) : Nat) : ℚ) = 2 ^ (g + 52) * d * down := by
      rw [zpow_add₀ (by norm_num), Nat.cast_mul, Nat.cast_mul, hpower]
      norm_num
      ring
    rw [← @Nat.cast_lt ℚ, hright, Nat.cast_mul, mul_lt_mul_iff_left₀ hdownpos,
      div_lt_iff₀ hdpos]
  by_cases h : n * down < twoTo 52 * (d * up)
  · have hless : g - 1 + 52 = g + 51 := by omega
    have hnext : g - 1 + 53 = g + 52 := by omega
    refine ⟨g - 1, by rw [if_pos h], ?_, ?_⟩
    · rw [hless]
      exact hlow'.le
    · rw [hnext]
      exact hiff.mp h
  · refine ⟨g, by rw [if_neg h], ?_, hhigh'⟩
    rw [hiff, not_lt] at h
    exact h

theorem targetExponent_eq {n d : Nat} (hn : 0 < n) (hd : 0 < d) {q : Int} (hq : -1074 ≤ q)
    (hhigh : (n / d : ℚ) < 2 ^ (q + 53)) (hlow : (2 : ℚ) ^ (q + 52) ≤ n / d ∨ q = -1074) :
    targetExponent n d = q := by
  obtain ⟨t, htarget, htlow, hthigh⟩ := targetExponent_spec hn hd
  have hle : t + 52 < q + 53 :=
    (zpow_lt_zpow_iff_right₀ (by norm_num : (1 : ℚ) < 2)).mp (lt_of_le_of_lt htlow hhigh)
  rw [htarget]
  rcases hlow with hlow | rfl
  · have hge : q + 52 < t + 53 :=
      (zpow_lt_zpow_iff_right₀ (by norm_num : (1 : ℚ) < 2)).mp (lt_of_le_of_lt hlow hthigh)
    omega
  · omega

/-! ## Rounding to a magnitude -/

namespace Magnitude

/-- A magnitude that finite doubles have. -/
structure IsLegal (m : Magnitude) : Prop where
  lt : m.significand < 2 ^ 53
  least : -1074 ≤ m.exponent
  most : m.exponent ≤ 971
  /-- All bits are used, except at the least exponent. -/
  full : 2 ^ 52 ≤ m.significand ∨ m.exponent = -1074

/-- The bits of a magnitude. -/
def bits (m : Magnitude) : Nat := (m.exponent + 1074).toNat * 2 ^ 52 + m.significand

theorem IsLegal.bits_le {m : Magnitude} (h : m.IsLegal) : m.bits ≤ 0x7FF * twoTo 52 := by
  have hlt := h.lt
  have hmost := h.most
  have hexp : (m.exponent + 1074).toNat ≤ 2045 := by omega
  have hbits : m.bits ≤ 2045 * 2 ^ 52 + 2 ^ 53 := by
    unfold bits
    omega
  exact Nat.le_trans hbits (by decide)

end Magnitude

variable {m : Magnitude} {v : ℚ}

theorem two_zpow_sub_two (e : Int) : (2 : ℚ) ^ (e - 2) = 2 ^ e / 4 := by
  rw [zpow_sub₀ (by norm_num)]
  norm_num

theorem closed_eq_false (hodd : m.significand % 2 = 1) : (neighbourhood m).closed = false := by
  simp [neighbourhood, hodd]

/-- The upper end is a half above. -/
theorem neighbourhood_high (m : Magnitude) :
    ((neighbourhood m).high : ℚ) * 2 ^ (neighbourhood m).exponent =
      (2 * m.significand + 1) * 2 ^ m.exponent / 2 := by
  change ((4 * m.significand + 2 : Nat) : ℚ) * 2 ^ (m.exponent - 2) = _
  rw [two_zpow_sub_two]
  push_cast
  ring

/-- The lower end is a half below, where the doubles do not become denser. -/
theorem neighbourhood_low (hpos : 0 < m.significand)
    (hdense : ¬ (m.significand = 2 ^ 52 ∧ -1074 < m.exponent)) :
    ((neighbourhood m).low : ℚ) * 2 ^ (neighbourhood m).exponent =
      (2 * m.significand - 1) * 2 ^ m.exponent / 2 := by
  change ((if m.significand = 2 ^ 52 ∧ -1074 < m.exponent then 4 * m.significand - 1
    else 4 * m.significand - 2 : Nat) : ℚ) * 2 ^ (m.exponent - 2) = _
  rw [if_neg hdense, two_zpow_sub_two, Nat.cast_sub (by omega)]
  push_cast
  ring

/-- The lower end is a quarter below, where the doubles become denser. -/
theorem neighbourhood_low_dense (hdense : m.significand = 2 ^ 52 ∧ -1074 < m.exponent) :
    ((neighbourhood m).low : ℚ) * 2 ^ (neighbourhood m).exponent =
      (4 * m.significand - 1) * 2 ^ m.exponent / 4 := by
  change ((if m.significand = 2 ^ 52 ∧ -1074 < m.exponent then 4 * m.significand - 1
    else 4 * m.significand - 2 : Nat) : ℚ) * 2 ^ (m.exponent - 2) = _
  rw [if_pos hdense, two_zpow_sub_two, Nat.cast_sub (by omega)]
  push_cast
  ring

theorem Neighbourhood.Contains.high (h : (neighbourhood m).Contains v) :
    2 * v ≤ (2 * m.significand + 1) * 2 ^ m.exponent ∧
      (m.significand % 2 = 1 → 2 * v < (2 * m.significand + 1) * 2 ^ m.exponent) := by
  obtain ⟨-, hle, hopen⟩ := h
  rw [neighbourhood_high] at hle hopen
  constructor
  · linarith
  · intro hodd
    have := (hopen (closed_eq_false hodd)).2
    linarith

theorem Neighbourhood.Contains.low (h : (neighbourhood m).Contains v) (hpos : 0 < m.significand)
    (hdense : ¬ (m.significand = 2 ^ 52 ∧ -1074 < m.exponent)) :
    (2 * m.significand - 1) * 2 ^ m.exponent ≤ 2 * v ∧
      (m.significand % 2 = 1 → (2 * m.significand - 1) * 2 ^ m.exponent < 2 * v) := by
  obtain ⟨hle, -, hopen⟩ := h
  rw [neighbourhood_low hpos hdense] at hle hopen
  constructor
  · linarith
  · intro hodd
    have := (hopen (closed_eq_false hodd)).1
    linarith

theorem Neighbourhood.Contains.low_dense (h : (neighbourhood m).Contains v)
    (hdense : m.significand = 2 ^ 52 ∧ -1074 < m.exponent) :
    (4 * m.significand - 1) * 2 ^ m.exponent ≤ 4 * v := by
  obtain ⟨hle, -, -⟩ := h
  rw [neighbourhood_low_dense hdense] at hle
  linarith

/-- A neighbourhood reaches at least a quarter below, and no further than a half. -/
theorem Neighbourhood.Contains.low_le (h : (neighbourhood m).Contains v)
    (hpos : 0 < m.significand) : (2 * m.significand - 1) * 2 ^ m.exponent ≤ 2 * v := by
  by_cases hdense : m.significand = 2 ^ 52 ∧ -1074 < m.exponent
  · have := h.low_dense hdense
    have hunit : (0 : ℚ) < 2 ^ m.exponent := by positivity
    linarith
  · exact (h.low hpos hdense).1

theorem Neighbourhood.Contains.pos (h : (neighbourhood m).Contains v)
    (hpos : 0 < m.significand) : 0 < v := by
  have hlow := h.low_le hpos
  have hunit : (0 : ℚ) < 2 ^ m.exponent := by positivity
  have hone : (1 : ℚ) ≤ m.significand := by exact_mod_cast hpos
  have hproduct : 0 < (2 * (m.significand : ℚ) - 1) * 2 ^ m.exponent :=
    mul_pos (by linarith) hunit
  linarith

theorem ofRatio_of_rounds {n d k : Nat} {e : Int} (hn : 0 < n) (negative : Bool)
    (htarget : targetExponent n d = e)
    (hround : roundRatio (n * (powerRatio 2 e).2) (d * (powerRatio 2 e).1) = k) :
    ofRatio negative n d =
      withSign negative (min ((e + 1074).toNat * 2 ^ 52 + k) (0x7FF * twoTo 52)) := by
  unfold ofRatio
  rw [if_neg (Nat.ne_of_gt hn)]
  simp only [htarget, hround]
  rfl

/-- Below a power of two the quotient is measured in units half as large. -/
theorem ofRatio_eq_of_lt (hm : m.IsLegal) (hs : m.significand = 2 ^ 52) (hq : -1074 < m.exponent)
    {n d : Nat} (hn : 0 < n) (hd : 0 < d) (h : (neighbourhood m).Contains (n / d))
    (hlt : (n / d : ℚ) < 2 ^ (m.exponent + 52)) (negative : Bool) :
    ofRatio negative n d = withSign negative m.bits := by
  have hunit : (0 : ℚ) < 2 ^ m.exponent := by positivity
  have hlow := h.low_dense ⟨hs, hq⟩
  rw [hs] at hlow
  push_cast at hlow
  have hhalf : (2 : ℚ) ^ (m.exponent - 1) = 2 ^ m.exponent / 2 := by
    rw [zpow_sub₀ two_ne_zero, zpow_one]
  have htarget : targetExponent n d = m.exponent - 1 := by
    refine targetExponent_eq hn hd (by omega) ?_ (.inl ?_)
    · rwa [show m.exponent - 1 + 53 = m.exponent + 52 by omega]
    · rw [show m.exponent - 1 + 52 = m.exponent + 51 by omega, two_zpow_add]
      linarith
  rw [two_zpow_add] at hlt
  have hround : roundRatio (n * (powerRatio 2 (m.exponent - 1)).2)
      (d * (powerRatio 2 (m.exponent - 1)).1) = 2 ^ 53 := by
    refine (roundRatio_two_eq_iff hd _).mpr ⟨?_, ?_, fun hodd => absurd hodd (by decide)⟩
    · rw [hhalf]
      push_cast
      linarith
    · rw [hhalf]
      push_cast
      linarith
  have hbits : (m.exponent - 1 + 1074).toNat * 2 ^ 52 + 2 ^ 53 = m.bits := by
    unfold Magnitude.bits
    omega
  rw [ofRatio_of_rounds hn negative htarget hround, hbits, Nat.min_eq_left hm.bits_le]

/-- Elsewhere it is measured in the units of the magnitude. -/
theorem ofRatio_eq_of_not_lt (hm : m.IsLegal) (hpos : 0 < m.significand) {n d : Nat} (hn : 0 < n)
    (hd : 0 < d) (h : (neighbourhood m).Contains (n / d))
    (hnot : ¬((m.significand = 2 ^ 52 ∧ -1074 < m.exponent) ∧
      (n / d : ℚ) < 2 ^ (m.exponent + 52))) (negative : Bool) :
    ofRatio negative n d = withSign negative m.bits := by
  have hunit : (0 : ℚ) < 2 ^ m.exponent := by positivity
  have hhigh := h.high
  have hlow := h.low_le hpos
  have hlt : (m.significand : ℚ) + 1 ≤ 2 ^ 53 := by exact_mod_cast hm.lt
  have hmost : ((m.significand : ℚ) + 1) * 2 ^ m.exponent ≤ 2 ^ 53 * 2 ^ m.exponent :=
    mul_le_mul_of_nonneg_right hlt hunit.le
  have htarget : targetExponent n d = m.exponent := by
    refine targetExponent_eq hn hd hm.least ?_ ?_
    · rw [two_zpow_add]
      linarith [hhigh.1]
    · by_cases hq : m.exponent = -1074
      · exact .inr hq
      · have hfull : 2 ^ 52 ≤ m.significand := hm.full.resolve_right hq
        have hleast := hm.least
        left
        by_cases hs : m.significand = 2 ^ 52
        · exact not_lt.mp fun hv => hnot ⟨⟨hs, by omega⟩, hv⟩
        · have hmore : (2 : ℚ) ^ 52 + 1 ≤ m.significand := by
            exact_mod_cast Nat.lt_of_le_of_ne hfull (Ne.symm hs)
          have hproduct := mul_le_mul_of_nonneg_right hmore hunit.le
          rw [two_zpow_add]
          linarith
  have hround : roundRatio (n * (powerRatio 2 m.exponent).2) (d * (powerRatio 2 m.exponent).1) =
      m.significand := by
    refine (roundRatio_two_eq_iff hd _).mpr ⟨hlow, hhigh.1, fun hodd => ⟨?_, hhigh.2 hodd⟩⟩
    exact (h.low hpos (fun hs => by omega)).2 hodd
  rw [ofRatio_of_rounds hn negative htarget hround]
  exact congrArg (withSign negative) (Nat.min_eq_left hm.bits_le)

/-- A quotient in the neighbourhood of a magnitude is rounded to it. -/
theorem ofRatio_eq (hm : m.IsLegal) (hpos : 0 < m.significand) {n d : Nat} (hd : 0 < d)
    (h : (neighbourhood m).Contains (n / d)) (negative : Bool) :
    ofRatio negative n d = withSign negative m.bits := by
  have hn : 0 < n := by
    have hv := h.pos hpos
    rcases Nat.eq_zero_or_pos n with rfl | hn
    · simp at hv
    · exact hn
  by_cases hdense : (m.significand = 2 ^ 52 ∧ -1074 < m.exponent) ∧
      (n / d : ℚ) < 2 ^ (m.exponent + 52)
  · obtain ⟨⟨hs, hq⟩, hlt⟩ := hdense
    exact ofRatio_eq_of_lt hm hs hq hn hd h hlt negative
  · exact ofRatio_eq_of_not_lt hm hpos hn hd h hdense negative

end Reckoner.Double
