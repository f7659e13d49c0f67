import Mathlib.Algebra.BigOperators.Group.Finset.Basic
import Mathlib.Algebra.Order.Field.Basic
import Mathlib.Tactic.FieldSimp
import Mathlib.Tactic.LinearCombination
import Mathlib.Tactic.Ring
import Reckoner.Solve.Elimination

/-!
# Elimination on exact numbers

Where nothing is rounded, the operations of a line are those of an ordered field, and what is left
of `Line` are the literals that solving uses and the square root. Every step of the elimination
keeps the solutions that the equations have; so as soon as no pivot is negligible, there is at most
one, and back substitution finds it.
-/

namespace Reckoner

/-- The exact numbers of an ordered field as a line. Of the square root nothing is said but that
zero has the root zero. -/
class ExactLine (K : Type) [Field K] [LinearOrder K] where
  ofFloat : Float → K
  sqrt : K → K
  ofFloat_zero : ofFloat 0.0 = 0
  ofFloat_one : ofFloat 1.0 = 1
  ofFloat_two : ofFloat 2.0 = 2
  ofFloat_millionth : 0 < ofFloat 1e-6
  ofFloat_trillionth : 0 ≤ ofFloat 1e-12
  sqrt_zero : sqrt 0 = 0

instance (priority := low) ExactLine.toLine (K : Type) [Field K] [LinearOrder K] [ExactLine K] :
    Line K where
  toAdd := inferInstance
  toSub := inferInstance
  toMul := inferInstance
  toDiv := inferInstance
  toNeg := inferInstance
  ofFloat := ofFloat
  abs x := |x|
  sqrt := sqrt
  isFinite _ := true
  less x y := decide (x < y)
  atMost x y := decide (x ≤ y)

variable {K : Type} [Field K] [LinearOrder K] [ExactLine K]

namespace Line

theorem zero_eq : (zero : K) = 0 := ExactLine.ofFloat_zero

/-! ## Sums of products -/

theorem dot_eq_sum (xs ys : List K) : dot xs ys = (List.zipWith (· * ·) xs ys).sum := by
  rw [dot, zero_eq, List.sum_eq_foldl]

@[simp] theorem dot_nil (ys : List K) : dot [] ys = 0 := zero_eq

@[simp] theorem dot_nil_right (xs : List K) : dot xs [] = 0 := by
  rw [dot_eq_sum, List.zipWith_nil_right, List.sum_nil]

@[simp] theorem dot_cons (x y : K) (xs ys : List K) :
    dot (x :: xs) (y :: ys) = x * y + dot xs ys := by
  rw [dot_eq_sum, dot_eq_sum, List.zipWith_cons_cons, List.sum_cons]

theorem dot_comm (xs ys : List K) : dot xs ys = dot ys xs := by
  rw [dot_eq_sum, dot_eq_sum, List.zipWith_comm_of_comm mul_comm]

theorem dot_eq_lead {row : List K} (y : K) (ys : List K) (h : row ≠ []) :
    dot row (y :: ys) = row.headD Line.zero * y + dot row.tail ys := by
  cases row with
  | nil => contradiction
  | cons x xs => exact dot_cons x y xs ys

/-- A multiple of a row is taken from another one entry by entry. -/
theorem dot_sub_mul (c : K) {xs ys : List K} (h : xs.length = ys.length) (zs : List K) :
    dot (List.zipWith (fun x y => x - c * y) xs ys) zs = dot xs zs - c * dot ys zs := by
  induction xs generalizing ys zs with
  | nil =>
      cases ys with
      | nil => simp
      | cons y ys => simp at h
  | cons x xs ih =>
      cases ys with
      | nil => simp at h
      | cons y ys =>
          cases zs with
          | nil => simp
          | cons z zs =>
              rw [List.zipWith_cons_cons, dot_cons, ih (by simpa using h), dot_cons, dot_cons]
              ring

end Line

namespace Elimination

/-- The values solve the equations. -/
def Solves (rows : List (EquationRow K)) (values : List K) : Prop :=
  ∀ row ∈ rows, Line.dot row.coefficients values = row.rhs

theorem largest_mem (first : K) (best index : Nat) (xs : List K) :
    (largest first best index xs).2 ∈ first :: xs := by
  induction xs generalizing first best index with
  | nil => exact List.mem_singleton_self first
  | cons x xs ih =>
      rw [largest]
      split
      case isTrue =>
          exact List.cons_subset_cons first (List.subset_cons_self x xs) (ih first best (index + 1))
      case isFalse => exact List.mem_cons_of_mem first (ih x index (index + 1))

theorem scale_nonneg [IsStrictOrderedRing K] (rows : List (List K)) : 0 ≤ scale rows := by
  rw [scale]
  cases h : rows.flatten.map Line.abs with
  | nil => exact Line.zero_eq.ge
  | cons x xs =>
      have hmem : (largest x 0 1 xs).2 ∈ rows.flatten.map Line.abs := h ▸ largest_mem x 0 1 xs
      obtain ⟨y, -, hy⟩ := List.mem_map.mp hmem
      rw [greatest, ← hy]
      exact abs_nonneg y

/-- A pivot that is not negligible is not zero. -/
theorem ne_zero_of_not_isNegligible [IsStrictOrderedRing K] {scale pivot : K} (hscale : 0 ≤ scale)
    (h : isNegligible scale pivot = false) : pivot ≠ 0 := by
  rintro rfl
  have hsmall : |(0 : K)| ≤ ExactLine.ofFloat pivotTolerance * scale := by
    rw [abs_zero]
    exact mul_nonneg ExactLine.ofFloat_trillionth hscale
  have hnegligible : isNegligible scale (0 : K) = true := by
    rw [isNegligible, Bool.or_eq_true]
    exact .inl (decide_eq_true hsmall)
  exact Bool.false_ne_true (h.symm.trans hnegligible)

omit [Field K] [LinearOrder K] [ExactLine K] in
theorem mem_of_mem_swapFront {index : Nat} {rows : List (EquationRow K)} {row : EquationRow K}
    (h : row ∈ swapFront index rows) : row ∈ rows := by
  unfold swapFront at h
  split at h
  case h_1 first rest picked hpicked =>
      rcases List.mem_or_eq_of_mem_set h with h | rfl
      · rcases List.mem_or_eq_of_mem_set h with h | rfl
        · exact h
        · exact List.mem_cons_self
      · exact List.mem_of_getElem? hpicked
  case h_2 => exact h

/-- Clearing the first coefficient keeps what solves both rows. -/
theorem dot_reduceRow {pivot row : EquationRow K} {y : K} {ys : List K}
    (hlead : lead pivot ≠ 0) (hpivot : pivot.coefficients.length = ys.length + 1)
    (hrow : row.coefficients.length = ys.length + 1)
    (hsolvesPivot : Line.dot pivot.coefficients (y :: ys) = pivot.rhs)
    (hsolves : Line.dot row.coefficients (y :: ys) = row.rhs) :
    Line.dot (reduceRow pivot row).coefficients ys = (reduceRow pivot row).rhs := by
  have hne {r : EquationRow K} (h : r.coefficients.length = ys.length + 1) : r.coefficients ≠ [] :=
    List.ne_nil_of_length_eq_add_one h
  rw [Line.dot_eq_lead y ys (hne hpivot)] at hsolvesPivot
  rw [Line.dot_eq_lead y ys (hne hrow)] at hsolves
  have hlength : row.coefficients.tail.length = pivot.coefficients.tail.length := by
    rw [List.length_tail, List.length_tail, hrow, hpivot]
  rw [reduceRow, Line.dot_sub_mul _ hlength, ← hsolves, ← hsolvesPivot, ← lead, ← lead]
  field_simp
  ring

/-- What elimination finds is the only solution that the equations can have: the solutions are kept
column by column. -/
theorem eq_of_solveRows [IsStrictOrderedRing K] {scale : K} (hscale : 0 ≤ scale) {columns : Nat}
    {rows : List (EquationRow K)} {found values : List K}
    (hfound : solveRows scale columns rows = some found)
    (hrows : ∀ row ∈ rows, row.coefficients.length = columns) (hvalues : values.length = columns)
    (hsolves : Solves rows values) : found = values := by
  induction columns generalizing rows found values with
  | zero =>
      cases hfound
      exact (List.eq_nil_of_length_eq_zero hvalues).symm
  | succ columns ih =>
      obtain ⟨y, ys, rfl⟩ := List.exists_cons_of_length_eq_add_one hvalues
      rw [solveRows] at hfound
      split at hfound
      case h_1 => cases hfound
      case h_2 pivot others hswap =>
      split at hfound
      case isTrue => cases hfound
      case isFalse hpivot =>
      have hlead := ne_zero_of_not_isNegligible hscale (Bool.eq_false_iff.mpr hpivot)
      obtain ⟨behind, hbehind, rfl⟩ := Option.map_eq_some_iff.mp hfound
      have hmem : ∀ row ∈ pivot :: others, row ∈ rows := fun row hrow =>
        mem_of_mem_swapFront (hswap.symm ▸ hrow)
      have hlength : ∀ row ∈ pivot :: others, row.coefficients.length = ys.length + 1 :=
        fun row hrow => (hrows row (hmem row hrow)).trans hvalues.symm
      obtain ⟨hwidth, hwidths⟩ := List.forall_mem_cons.mp hlength
      obtain ⟨hpivot, hothers⟩ :=
        List.forall_mem_cons.mp fun row hrow => hsolves row (hmem row hrow)
      have hys : ys.length = columns := Nat.succ.inj hvalues
      have hbehind : behind = ys := by
        refine ih hbehind ?_ hys ?_
        · simp only [List.forall_mem_map]
          intro row hrow
          simp [reduceRow, hwidth, hwidths row hrow, hys]
        · simp only [Solves, List.forall_mem_map]
          intro row hrow
          exact dot_reduceRow hlead hwidth (hwidths row hrow) hpivot (hothers row hrow)
      subst hbehind
      rw [Line.dot_eq_lead y behind (List.ne_nil_of_length_eq_add_one hwidth)] at hpivot
      rw [solveRow, ← hpivot, ← lead, add_sub_cancel_right, mul_div_cancel_left₀ y hlead]

theorem eq_of_solve [IsStrictOrderedRing K] {matrix : List (List K)} {rhs found values : List K}
    (hfound : solve matrix rhs = some found) (hmatrix : ∀ row ∈ matrix, row.length = rhs.length)
    (hvalues : values.length = rhs.length)
    (hsolves : matrix.map (fun row => Line.dot row values) = rhs) : found = values := by
  have hrows : List.zipWith EquationRow.mk matrix rhs =
      matrix.map fun row => ⟨row, Line.dot row values⟩ := by
    rw [← hsolves, List.zipWith_map_right, List.zipWith_self]
  rw [solve, hrows] at hfound
  refine eq_of_solveRows (scale_nonneg matrix) hfound ?_ hvalues ?_
  · simpa only [List.forall_mem_map] using hmatrix
  · simp [Solves]

end Elimination

end Reckoner
