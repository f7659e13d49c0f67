import Mathlib.LinearAlgebra.Matrix.NonsingularInverse
import Reckoner.Proofs.Solve.Iteration
import Reckoner.Proofs.Solve.OneStep
import Reckoner.Solve.LinearSystem

/-!
# Elimination with pivoting

One round of the elimination, described without the search for a pivot and without swaps: one of
the rows with the largest first coefficient is taken away, and the others lose their first
coefficient by a multiple of it. Such a round keeps the solutions in both directions. So what back
substitution finds solves the system; since it is the only solution, the matrix is invertible, and
a singular matrix has to be told from the pivots.
-/

namespace Reckoner

namespace Elimination

variable {K : Type} [Field K] [LinearOrder K] [ExactLine K]

/-! ## The largest of some numbers -/

theorem getElem?_largest {all xs : List K} {first : K} {best index : Nat}
    (hfirst : all[best]? = some first) (hxs : all.drop index = xs) :
    all[(largest first best index xs).1]? = some (largest first best index xs).2 := by
  induction xs generalizing first best index with
  | nil => exact hfirst
  | cons x xs ih =>
      have hx : all[index]? = some x := by rw [← List.head?_drop, hxs, List.head?_cons]
      have hrest : all.drop (index + 1) = xs := by rw [← List.tail_drop, hxs, List.tail_cons]
      rw [largest]
      split
      case isTrue => exact ih hfirst hrest
      case isFalse => exact ih hx hrest

theorem outranks_iff {x y : K} : Line.outranks x y = true ↔ y ≤ x := by
  simp [Line.outranks, Line.isUnordered, Line.atMost]

theorem le_largest (first : K) (best index : Nat) (xs : List K) :
    ∀ x ∈ first :: xs, x ≤ (largest first best index xs).2 := by
  induction xs generalizing first best index with
  | nil => simp [largest]
  | cons y ys ih =>
      rw [largest, List.forall_mem_cons, List.forall_mem_cons]
      split
      case isTrue hy =>
          obtain ⟨hfirst, hys⟩ := List.forall_mem_cons.mp (ih first best (index + 1))
          exact ⟨hfirst, (outranks_iff.mp hy).trans hfirst, hys⟩
      case isFalse hy =>
          obtain ⟨hlargest, hys⟩ := List.forall_mem_cons.mp (ih y index (index + 1))
          exact ⟨(lt_of_not_ge (outranks_iff.not.mp hy)).le.trans hlargest, hlargest, hys⟩

/-- The scale is the largest size of an entry. -/
theorem isGreatest_scale {rows : List (List K)} (h : rows.flatten ≠ []) :
    IsGreatest {size | ∃ x ∈ rows.flatten, |x| = size} (scale rows) := by
  obtain ⟨x, xs, hxs⟩ := List.exists_cons_of_ne_nil h
  have hsizes : {size | ∃ x ∈ rows.flatten, |x| = size} = {size | size ∈ |x| :: xs.map abs} := by
    rw [hxs, ← List.map_cons]
    simp only [List.mem_map]
  rw [hsizes, scale, hxs]
  exact ⟨largest_mem _ _ _ _, le_largest _ _ _ _⟩

/-! ## The pivot -/

theorem exists_pivot {rows : List (EquationRow K)} (h : rows ≠ []) :
    ∃ pivot, rows[pivotIndex rows]? = some pivot ∧ ∀ row ∈ rows, |lead row| ≤ |lead pivot| := by
  obtain ⟨first, rest, rfl⟩ := List.exists_cons_of_ne_nil h
  have hfirst : ((first :: rest).map fun row => |lead row|)[0]? = some |lead first| := rfl
  have hrest : ((first :: rest).map fun row => |lead row|).drop 1 =
      rest.map fun row => |lead row| := by rw [List.map_cons, List.drop_one, List.tail_cons]
  have hsizes := getElem?_largest hfirst hrest
  rw [List.getElem?_map, Option.map_eq_some_iff] at hsizes
  obtain ⟨pivot, hpivot, hsize⟩ := hsizes
  refine ⟨pivot, hpivot, fun row hrow => ?_⟩
  rw [hsize]
  refine le_largest _ 0 1 _ _ ?_
  rw [← List.map_cons (f := fun row => |lead row|)]
  exact List.mem_map_of_mem hrow

omit [Field K] [LinearOrder K] [ExactLine K] in
theorem swapFront_perm (index : Nat) (rows : List (EquationRow K)) :
    (swapFront index rows).Perm rows := by
  unfold swapFront
  split
  case h_1 first rest picked hpicked =>
      obtain ⟨hindex, rfl⟩ := List.getElem?_eq_some_iff.mp hpicked
      exact List.set_set_perm hindex (Nat.zero_lt_succ rest.length)
  case h_2 => exact .refl _

omit [Field K] [LinearOrder K] [ExactLine K] in
theorem head?_swapFront {index : Nat} {rows : List (EquationRow K)} {picked : EquationRow K}
    (h : rows[index]? = some picked) : (swapFront index rows).head? = some picked := by
  cases rows with
  | nil => cases h
  | cons first rest =>
      unfold swapFront
      rw [h]
      cases index <;> rfl

/-- The row in front after the swap is one of those with the largest first coefficient. -/
theorem exists_swapFront {rows : List (EquationRow K)} (h : rows ≠ []) :
    ∃ pivot others, swapFront (pivotIndex rows) rows = pivot :: others ∧
      (pivot :: others).Perm rows ∧ ∀ row ∈ rows, |lead row| ≤ |lead pivot| := by
  obtain ⟨pivot, hpivot, hlargest⟩ := exists_pivot h
  obtain ⟨others, hswap⟩ := List.head?_eq_some_iff.mp (head?_swapFront hpivot)
  exact ⟨pivot, others, hswap, hswap ▸ swapFront_perm (pivotIndex rows) rows, hlargest⟩

/-! ## One column -/

/-- A row is reduced by a multiple of the pivot row, which clears its first coefficient. -/
def Clears (pivot row reduced : EquationRow K) : Prop :=
  ∃ factor : K,
    List.zipWith (fun x y => x - factor * y) row.coefficients pivot.coefficients =
        0 :: reduced.coefficients ∧
      row.rhs - factor * pivot.rhs = reduced.rhs

/-- A column is eliminated with partial pivoting: the pivot row is one of those with the largest
first coefficient, and all others are reduced by it. -/
inductive EliminatesColumn : List (EquationRow K) → List (EquationRow K) → Prop
  | intro {rows : List (EquationRow K)} {pivot : EquationRow K}
      {others rest : List (EquationRow K)} (perm : (pivot :: others).Perm rows)
      (largest : ∀ row ∈ rows, |lead row| ≤ |lead pivot|) (nonzero : lead pivot ≠ 0)
      (clears : List.Forall₂ (Clears pivot) others rest) : EliminatesColumn rows rest

/-- A number of columns is eliminated one after the other. -/
inductive Eliminates : Nat → List (EquationRow K) → List (EquationRow K) → Prop
  | start (rows : List (EquationRow K)) : Eliminates 0 rows rows
  | column {count : Nat} {rows next rest : List (EquationRow K)}
      (first : EliminatesColumn rows next) (further : Eliminates count next rest) :
      Eliminates (count + 1) rows rest

theorem EliminatesColumn.length {rows rest : List (EquationRow K)}
    (h : EliminatesColumn rows rest) : rest.length + 1 = rows.length := by
  obtain ⟨hperm, -, -, hclears⟩ := h
  rw [← hclears.length_eq, ← hperm.length_eq, List.length_cons]

theorem Eliminates.length {count : Nat} {rows rest : List (EquationRow K)}
    (h : Eliminates count rows rest) : rest.length + count = rows.length := by
  induction h with
  | start => rfl
  | column hfirst _ ih => rw [← hfirst.length, ← ih, Nat.add_assoc]

theorem clears_reduceRow {pivot row : EquationRow K} (hlead : lead pivot ≠ 0)
    (hrow : row.coefficients ≠ []) : Clears pivot row (reduceRow pivot row) := by
  have hpivot : pivot.coefficients ≠ [] := by
    intro h
    simp [lead, h, Line.zero_eq] at hlead
  obtain ⟨x, xs, hxs⟩ := List.exists_cons_of_ne_nil hrow
  obtain ⟨y, ys, hys⟩ := List.exists_cons_of_ne_nil hpivot
  refine ⟨lead row / lead pivot, ?_, rfl⟩
  have hy : y ≠ 0 := by simpa [lead, hys] using hlead
  simp [reduceRow, lead, hxs, hys, hy]

/-- A reduced row has the solutions of the row, among those of the pivot row. -/
theorem Clears.dot_eq_iff {pivot row reduced : EquationRow K} {y : K} {ys : List K}
    (h : Clears pivot row reduced) (hlength : row.coefficients.length = pivot.coefficients.length)
    (hpivot : Line.dot pivot.coefficients (y :: ys) = pivot.rhs) :
    Line.dot reduced.coefficients ys = reduced.rhs ↔
      Line.dot row.coefficients (y :: ys) = row.rhs := by
  obtain ⟨factor, hcoefficients, hrhs⟩ := h
  have hdot := Line.dot_sub_mul factor hlength (y :: ys)
  rw [hcoefficients, Line.dot_cons, zero_mul, zero_add, hpivot] at hdot
  rw [hdot, ← hrhs, sub_left_inj]

/-! ## All columns -/

/-- As many equations as unknowns. -/
structure IsSquare (count : Nat) (rows : List (EquationRow K)) : Prop where
  length : rows.length = count
  width : ∀ row ∈ rows, row.coefficients.length = count

theorem IsSquare.reduce {count : Nat} {rows others : List (EquationRow K)} {pivot : EquationRow K}
    (h : IsSquare (count + 1) rows) (hperm : (pivot :: others).Perm rows) :
    IsSquare count (others.map (reduceRow pivot)) where
  length := by
    rw [List.length_map]
    exact Nat.succ.inj (hperm.length_eq.trans h.length)
  width := by
    obtain ⟨hpivot, hothers⟩ :=
      List.forall_mem_cons.mp fun row hrow => h.width row (hperm.mem_iff.mp hrow)
    rw [List.forall_mem_map]
    intro row hrow
    simp [reduceRow, hpivot, hothers row hrow]

theorem eliminatesColumn_reduce {count : Nat} {rows others : List (EquationRow K)}
    {pivot : EquationRow K} (h : IsSquare (count + 1) rows) (hperm : (pivot :: others).Perm rows)
    (hlargest : ∀ row ∈ rows, |lead row| ≤ |lead pivot|) (hlead : lead pivot ≠ 0) :
    EliminatesColumn rows (others.map (reduceRow pivot)) := by
  refine .intro hperm hlargest hlead ?_
  rw [List.forall₂_map_right_iff, List.forall₂_same]
  intro row hrow
  have hwidth := h.width row (hperm.mem_iff.mp (List.mem_cons_of_mem pivot hrow))
  exact clears_reduceRow hlead (List.ne_nil_of_length_eq_add_one hwidth)

/-- What solves the reduced equations is a solution together with the value for the pivot row. -/
theorem solves_cons {count : Nat} {rows others : List (EquationRow K)} {pivot : EquationRow K}
    {behind : List K} (h : IsSquare (count + 1) rows) (hperm : (pivot :: others).Perm rows)
    (hlead : lead pivot ≠ 0) (hbehind : Solves (others.map (reduceRow pivot)) behind) :
    Solves rows (solveRow pivot behind :: behind) := by
  have hwidth : ∀ row ∈ pivot :: others, row.coefficients.length = count + 1 :=
    fun row hrow => h.width row (hperm.mem_iff.mp hrow)
  obtain ⟨hpivot, hothers⟩ := List.forall_mem_cons.mp hwidth
  have hsolved : Line.dot pivot.coefficients (solveRow pivot behind :: behind) = pivot.rhs := by
    rw [Line.dot_eq_lead _ _ (List.ne_nil_of_length_eq_add_one hpivot), solveRow, ← lead,
      mul_div_cancel₀ _ hlead, sub_add_cancel]
  intro row hrow
  obtain rfl | hrow := List.mem_cons.mp (hperm.mem_iff.mpr hrow)
  · exact hsolved
  · have hclears : Clears pivot row (reduceRow pivot row) :=
      clears_reduceRow hlead (List.ne_nil_of_length_eq_add_one (hothers row hrow))
    rw [← hclears.dot_eq_iff ((hothers row hrow).trans hpivot.symm) hsolved]
    exact hbehind _ (List.mem_map_of_mem hrow)

/-- Solving goes on behind the pivot row unless its first coefficient is negligible. -/
theorem exists_solveRows_succ {count : Nat} {rows : List (EquationRow K)} (scale : K)
    (h : IsSquare (count + 1) rows) :
    ∃ pivot others, (pivot :: others).Perm rows ∧ (∀ row ∈ rows, |lead row| ≤ |lead pivot|) ∧
      solveRows scale (count + 1) rows =
        if isNegligible scale (lead pivot) then none
        else (solveRows scale count (others.map (reduceRow pivot))).map fun behind =>
          solveRow pivot behind :: behind := by
  obtain ⟨pivot, others, hswap, hperm, hlargest⟩ :=
    exists_swapFront (List.ne_nil_of_length_eq_add_one h.length)
  refine ⟨pivot, others, hperm, hlargest, ?_⟩
  rw [solveRows, hswap]

theorem solves_of_solveRows [IsStrictOrderedRing K] {scale : K} (hscale : 0 ≤ scale) {count : Nat}
    {rows : List (EquationRow K)} {found : List K} (h : IsSquare count rows)
    (hfound : solveRows scale count rows = some found) : Solves rows found := by
  induction count generalizing rows found with
  | zero =>
      rw [List.eq_nil_of_length_eq_zero h.length]
      exact List.forall_mem_nil _
  | succ count ih =>
      obtain ⟨pivot, others, hperm, -, hsolve⟩ := exists_solveRows_succ scale h
      rw [hsolve] at hfound
      split at hfound
      case isTrue => cases hfound
      case isFalse hpivot =>
      have hlead := ne_zero_of_not_isNegligible hscale (Bool.eq_false_iff.mpr hpivot)
      obtain ⟨behind, hbehind, rfl⟩ := Option.map_eq_some_iff.mp hfound
      exact solves_cons h hperm hlead (ih (h.reduce hperm) hbehind)

theorem isNegligible_iff {scale pivot : K} (h : scale ≠ 0) :
    isNegligible scale pivot = true ↔ |pivot| ≤ ExactLine.ofFloat pivotTolerance * scale := by
  have hscale : ¬(scale ≤ 0 ∧ 0 ≤ scale) := fun hzero => h (le_antisymm hzero.1 hzero.2)
  have hatMost (x y : K) : Line.atMost x y = true ↔ x ≤ y := decide_eq_true_iff
  rw [isNegligible, Bool.or_eq_true, Bool.and_eq_true, hatMost, hatMost, hatMost, Line.zero_eq,
    or_iff_left hscale]
  rfl

/-- Without a solution, a number of columns has been eliminated, and in the next one there are
negligible coefficients alone. -/
theorem exists_eliminates_of_none [IsStrictOrderedRing K] {scale : K} (hscale : 0 ≤ scale)
    (hnonzero : scale ≠ 0) {count : Nat} {rows : List (EquationRow K)} (h : IsSquare count rows)
    (hnone : solveRows scale count rows = none) :
    ∃ done < count, ∃ rest, Eliminates done rows rest ∧
      ∀ row ∈ rest, |lead row| ≤ ExactLine.ofFloat pivotTolerance * scale := by
  induction count generalizing rows with
  | zero => cases hnone
  | succ count ih =>
      obtain ⟨pivot, others, hperm, hlargest, hsolve⟩ := exists_solveRows_succ scale h
      rw [hsolve] at hnone
      split at hnone
      case isTrue hpivot =>
          have hsmall := (isNegligible_iff hnonzero).mp hpivot
          exact ⟨0, Nat.zero_lt_succ count, rows, .start rows,
            fun row hrow => (hlargest row hrow).trans hsmall⟩
      case isFalse hpivot =>
          have hlead := ne_zero_of_not_isNegligible hscale (Bool.eq_false_iff.mpr hpivot)
          obtain ⟨done, hdone, rest, hrest, hsmall⟩ :=
            ih (h.reduce hperm) (Option.map_eq_none_iff.mp hnone)
          exact ⟨done + 1, Nat.succ_lt_succ hdone, rest,
            .column (eliminatesColumn_reduce h hperm hlargest hlead) hrest, hsmall⟩

/-! ## Square matrices -/

section Matrix

open Matrix

variable {n : Nat} (A : Matrix (Fin n) (Fin n) K) (b : Fin n → K)

/-- The rows of a matrix as lists. -/
def table : List (List K) := List.ofFn fun i => List.ofFn (A i)

/-- The rows of a matrix with their right-hand sides. -/
def equations : List (EquationRow K) := List.ofFn fun i => ⟨List.ofFn (A i), b i⟩

omit [Field K] [LinearOrder K] [ExactLine K] in
theorem zipWith_table : List.zipWith EquationRow.mk (table A) (List.ofFn b) = equations A b := by
  refine List.ext_getElem (by simp [table, equations]) fun i hi _ => ?_
  simp [table, equations]

omit [Field K] [LinearOrder K] [ExactLine K] in
theorem isSquare_equations : IsSquare n (equations A b) where
  length := List.length_ofFn
  width := by simp [equations, List.mem_ofFn]

theorem dot_ofFn (x y : Fin n → K) : Line.dot (List.ofFn x) (List.ofFn y) = x ⬝ᵥ y := by
  have hproducts : List.zipWith (· * ·) (List.ofFn x) (List.ofFn y) =
      List.ofFn fun i => x i * y i := by
    refine List.ext_getElem (by simp) fun i hi _ => ?_
    simp
  rw [Line.dot_eq_sum, hproducts, List.sum_ofFn, dotProduct]

theorem solves_equations_iff (x : Fin n → K) :
    Solves (equations A b) (List.ofFn x) ↔ A *ᵥ x = b := by
  simp only [Solves, equations, List.forall_mem_ofFn_iff, dot_ofFn, funext_iff, mulVec]

theorem isGreatest_scale_table (h : 0 < n) :
    IsGreatest {size | ∃ i j, |A i j| = size} (scale (table A)) := by
  have hentry (i j : Fin n) : A i j ∈ (table A).flatten := by
    simp only [table, List.mem_flatten, List.mem_ofFn]
    exact ⟨_, ⟨i, rfl⟩, List.mem_ofFn.mpr ⟨j, rfl⟩⟩
  have hsizes : {size | ∃ i j, |A i j| = size} =
      {size | ∃ x ∈ (table A).flatten, |x| = size} := by
    ext size
    simp [table, List.mem_ofFn]
  rw [hsizes]
  exact isGreatest_scale (List.ne_nil_of_mem (hentry ⟨0, h⟩ ⟨0, h⟩))

theorem solveShaped_square :
    solveShaped n (table A) (List.ofFn b) =
      (solveRows (scale (table A)) n (equations A b)).elim (.error .singularJacobian) .ok := by
  have hsquare : Shape.isSquare ⟨(table A).length, n, (List.ofFn b).length⟩ = true := by
    simp [Shape.isSquare, table]
  rw [solveShaped]
  dsimp only
  rw [if_pos hsquare, solve, zipWith_table, List.length_ofFn]
  cases solveRows (scale (table A)) n (equations A b) <;> rfl

/-- A solution that elimination finds is the only one that there is. -/
theorem mulVec_of_solveRows [IsStrictOrderedRing K] {found : List K}
    (h : solveRows (scale (table A)) n (equations A b) = some found) :
    ∃ x, found = List.ofFn x ∧ A *ᵥ x = b ∧ ∀ y, A *ᵥ y = b → y = x := by
  have hscale := scale_nonneg (table A)
  have hsquare := isSquare_equations A b
  have honly (y : Fin n → K) (hy : A *ᵥ y = b) : found = List.ofFn y :=
    eq_of_solveRows hscale h hsquare.width List.length_ofFn ((solves_equations_iff A b y).mpr hy)
  have hlength : found.length = n := length_solveRows h
  subst hlength
  have hx : A *ᵥ found.get = b := by
    rw [← solves_equations_iff, List.ofFn_get]
    exact solves_of_solveRows hscale hsquare h
  refine ⟨found.get, (List.ofFn_get found).symm, hx, fun y hy => ?_⟩
  rw [← List.ofFn_inj, ← honly y hy, List.ofFn_get]

/-- A matrix for which one right-hand side has exactly one solution is invertible. -/
theorem isUnit_of_unique {x : Fin n → K} (hx : A *ᵥ x = b) (hunique : ∀ y, A *ᵥ y = b → y = x) :
    IsUnit A := by
  rw [← mulVec_injective_iff_isUnit]
  intro y z hyz
  have hmoved : A *ᵥ (x + (y - z)) = b := by
    rw [mulVec_add, mulVec_sub, hx, sub_eq_zero.mpr hyz, add_zero]
  exact sub_eq_zero.mp (add_eq_left.mp (hunique _ hmoved))

theorem abs_lead_le_scale (h : 0 < n) : ∀ row ∈ equations A b, |lead row| ≤ scale (table A) := by
  simp only [equations, List.forall_mem_ofFn_iff]
  intro i
  obtain ⟨m, rfl⟩ := Nat.exists_eq_succ_of_ne_zero h.ne'
  rw [lead, List.ofFn_succ, List.headD_cons]
  exact (isGreatest_scale_table A h).2 ⟨i, 0, rfl⟩

/-- A system is refused when a number of columns has been eliminated and the coefficients in the
next one are small beside the largest entry of the matrix, or when all entries are zero. -/
theorem exists_eliminates_of_singular [IsStrictOrderedRing K]
    (h : solveRows (scale (table A)) n (equations A b) = none) :
    ∃ done < n, ∃ rest, Eliminates done (equations A b) rest ∧
      ∀ row ∈ rest, |lead row| ≤ ExactLine.ofFloat pivotTolerance * scale (table A) := by
  have hn : 0 < n := by
    refine Nat.pos_of_ne_zero fun hzero => ?_
    subst hzero
    cases h
  by_cases hscale : scale (table A) = 0
  case neg =>
      exact exists_eliminates_of_none (scale_nonneg _) hscale (isSquare_equations A b) h
  case pos =>
      refine ⟨0, hn, _, .start _, ?_⟩
      rw [hscale, mul_zero, ← hscale]
      exact abs_lead_le_scale A b hn

/-- Elimination finds the only solution of a system whose matrix is invertible, refuses every
system whose matrix is not, and no other but for pivots that are too small. -/
theorem unique_solution_or_singular [IsStrictOrderedRing K] :
    (∀ found, solveShaped n (table A) (List.ofFn b) = .ok found →
      IsUnit A ∧ ∃ x, found = List.ofFn x ∧ A *ᵥ x = b ∧ ∀ y, A *ᵥ y = b → y = x) ∧
    (0 < n → ¬IsUnit A → solveShaped n (table A) (List.ofFn b) = .error .singularJacobian) ∧
    ∀ cause, solveShaped n (table A) (List.ofFn b) = .error cause →
      cause = .singularJacobian ∧
      ∃ size, IsGreatest {size | ∃ i j, |A i j| = size} size ∧
        ∃ done rest, done < n ∧ Eliminates done (equations A b) rest ∧
          ∀ row ∈ rest, |lead row| ≤ ExactLine.ofFloat pivotTolerance * size := by
  rw [solveShaped_square]
  cases h : solveRows (scale (table A)) n (equations A b) with
  | some found =>
      obtain ⟨x, rfl, hx, hunique⟩ := mulVec_of_solveRows A b h
      have hunit := isUnit_of_unique A b hx hunique
      refine ⟨?_, fun _ hsingular => absurd hunit hsingular, nofun⟩
      rintro _ ⟨⟩
      exact ⟨hunit, x, rfl, hx, hunique⟩
  | none =>
      obtain ⟨done, hdone, rest, hrest, hsmall⟩ := exists_eliminates_of_singular A b h
      refine ⟨nofun, fun _ _ => rfl, ?_⟩
      rintro _ ⟨⟩
      exact ⟨rfl, _, isGreatest_scale_table A (Nat.zero_lt_of_lt hdone), done, rest, hdone, hrest,
        hsmall⟩

local instance : ExactLine ℚ := Unknowns.instExactLineRat

/-- `2 * y = 4` and `3 * x + y = 5`: the rows change places. -/
private def crossed : Matrix (Fin 2) (Fin 2) ℚ := !![0, 2; 3, 1]

theorem unique_solution_crossed :
    solveShaped 2 (table crossed) (List.ofFn ![4, 5]) = .ok [1, 2] ∧
      IsUnit crossed ∧
      ∃ x, [1, 2] = List.ofFn x ∧ crossed *ᵥ x = ![4, 5] ∧ ∀ y, crossed *ᵥ y = ![4, 5] → y = x := by
  have hrows : solveRows (scale (table crossed)) 2 (equations crossed ![4, 5]) = some [1, 2] := by
    decide +kernel
  have hfound : solveShaped 2 (table crossed) (List.ofFn ![4, 5]) = .ok [1, 2] := by
    rw [solveShaped_square, hrows, Option.elim_some]
  exact ⟨hfound, (unique_solution_or_singular crossed ![4, 5]).1 _ hfound⟩

end Matrix

end Elimination

end Reckoner
