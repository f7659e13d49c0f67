import Mathlib.Algebra.BigOperators.Group.Finset.Basic
import Mathlib.Algebra.BigOperators.Ring.Finset
import Reckoner.Proofs.Program.Compilation
import Reckoner.Proofs.Solve.Elimination
import Reckoner.Proofs.Solve.Exact
import Reckoner.Solve.Equations

/-!
# Systems of affine equations

On exact numbers the difference quotients of an affine residual are its coefficients, however long
the interval is. So the first step of Newton's iteration solves the equations themselves, or their
normal equations, and the step to any common solution is a solution of these. Since elimination
finds the only one there can be, one step leads to the common solution, which is the only one.
-/

namespace Reckoner

open Reckoner.Action

variable {K : Type} [Field K]

theorem zipWith_add_sub {xs ys : List K} (h : ys.length = xs.length) :
    List.zipWith (· + ·) xs (List.zipWith (· - ·) ys xs) = ys := by
  refine List.ext_getElem ?_ fun i h₁ h₂ => ?_
  · rw [List.length_zipWith, List.length_zipWith, h, Nat.min_self, Nat.min_self]
  · rw [List.getElem_zipWith, List.getElem_zipWith, add_sub_cancel]

theorem map_range_getD {xs : List K} {n : Nat} (h : xs.length = n) :
    (List.range n).map (fun j => xs.getD j 0) = xs := by
  subst h
  refine List.ext_getElem (by simp) fun i h₁ h₂ => ?_
  simp [h₂]

/-- A sum of multiples of the unknowns and a constant. -/
structure AffineForm (K : Type) where
  coefficients : List K
  constant : K

variable [LinearOrder K] [ExactLine K]

namespace Line

theorem dot_map_range (g : Nat → K) (n : Nat) (ys : List K) :
    dot ((List.range n).map g) ys = ∑ j ∈ Finset.range n, g j * ys.getD j 0 := by
  induction ys generalizing g n with
  | nil => simp
  | cons y ys ih =>
      cases n with
      | zero => simp
      | succ n =>
          rw [List.range_succ_eq_map, List.map_cons, List.map_map, dot_cons, ih,
            Finset.sum_range_succ', add_comm]
          rfl

theorem dot_set {xs ys : List K} (h : xs.length = ys.length) {index : Nat} {y : K}
    (hy : ys[index]? = some y) (v : K) :
    dot xs (ys.set index v) = dot xs ys + xs.getD index 0 * (v - y) := by
  induction xs generalizing ys index with
  | nil =>
      rw [List.length_nil, eq_comm, List.length_eq_zero_iff] at h
      simp [h] at hy
  | cons x xs ih =>
      cases ys with
      | nil => simp at h
      | cons first ys =>
          cases index with
          | zero =>
              cases hy
              rw [List.set_cons_zero, dot_cons, dot_cons, List.getD_cons_zero]
              ring
          | succ index =>
              rw [List.set_cons_succ, dot_cons, ih (by simpa using h) (by simpa using hy), dot_cons,
                List.getD_cons_succ]
              ring

theorem dot_sub {xs ys zs : List K} (h : ys.length = zs.length) :
    dot xs (List.zipWith (· - ·) ys zs) = dot xs ys - dot xs zs := by
  have hone := dot_sub_mul 1 h xs
  simp only [one_mul] at hone
  rw [dot_comm, hone, dot_comm ys, dot_comm zs]

theorem dot_neg (xs ys : List K) : dot xs (ys.map fun y => -y) = -dot xs ys := by
  induction xs generalizing ys with
  | nil => simp
  | cons x xs ih =>
      cases ys with
      | nil => simp
      | cons y ys =>
          rw [List.map_cons, dot_cons, ih, dot_cons]
          ring

theorem greater_eq_max (x y : K) : greater x y = max x y := by
  rw [greater, max_def_lt]
  exact if_congr decide_eq_true_iff rfl rfl

theorem all_isFinite (xs : List K) : xs.all isFinite = true :=
  List.all_eq_true.mpr fun _ _ => rfl

/-- Residuals that are all zero have no length. -/
theorem norm_eq_zero {xs : List K} (h : ∀ x ∈ xs, x = 0) : norm xs = 0 := by
  have hdot : dot xs xs = 0 := by
    rw [List.eq_replicate_of_mem h, dot_eq_sum]
    simp
  rw [norm, hdot]
  exact ExactLine.sqrt_zero

end Line

namespace AffineForm

/-- The value of a form at some values of the unknowns. -/
def value (f : AffineForm K) (x : List K) : K := Line.dot f.coefficients x + f.constant

/-- The coefficients of one unknown in all forms. -/
def column (forms : List (AffineForm K)) (index : Nat) : List K :=
  forms.map fun f => f.coefficients.getD index 0

def columns (forms : List (AffineForm K)) (count : Nat) : List (List K) :=
  (List.range count).map (column forms)

def values (forms : List (AffineForm K)) (x : List K) : List K := forms.map fun f => f.value x

/-- Rows of coefficients from columns of coefficients. -/
theorem rows_columns {forms : List (AffineForm K)} {count : Nat}
    (h : ∀ f ∈ forms, f.coefficients.length = count) :
    NewtonSystem.rows (columns forms count) forms.length = forms.map coefficients := by
  refine List.ext_getElem (by simp [NewtonSystem.rows]) fun i h₁ h₂ => ?_
  have hi : i < forms.length := by simpa using h₂
  simp only [NewtonSystem.rows, List.getElem_map, List.getElem_range, columns, List.map_map]
  rw [← map_range_getD (h forms[i] (List.getElem_mem hi))]
  refine List.map_congr_left fun j _ => ?_
  simp [column, hi]

/-- A column times all products of rows with the values, by exchanging the sums. -/
theorem dot_columns (forms : List (AffineForm K)) {s : List K}
    (h : ∀ f ∈ forms, f.coefficients.length = s.length) (a : List K) :
    Line.dot ((columns forms s.length).map fun b => Line.dot a b) s =
      Line.dot a (forms.map fun f => Line.dot f.coefficients s) := by
  rw [columns, List.map_map, Line.dot_map_range]
  induction forms generalizing a with
  | nil => simp [column]
  | cons f forms ih =>
      obtain ⟨hf, hforms⟩ := List.forall_mem_cons.mp h
      cases a with
      | nil => simp
      | cons x a =>
          have hrow : Line.dot f.coefficients s =
              ∑ j ∈ Finset.range s.length, f.coefficients.getD j 0 * s.getD j 0 := by
            rw [← Line.dot_map_range, map_range_getD hf]
          rw [List.map_cons, Line.dot_cons, ← ih hforms a, hrow, Finset.mul_sum,
            ← Finset.sum_add_distrib]
          refine Finset.sum_congr rfl fun j _ => ?_
          simp only [Function.comp_apply, column, List.map_cons, Line.dot_cons]
          ring

/-! ## Slopes -/

variable {σ : Type} {inv : σ → Prop} {g : List K → Action σ (List K)}
  {forms : List (AffineForm K)} {x : List K}

theorem value_set {f : AffineForm K} (hwidth : f.coefficients.length = x.length) {index : Nat}
    {entry : K} (hentry : x[index]? = some entry) (v : K) :
    f.value (x.set index v) = f.value x + f.coefficients.getD index 0 * (v - entry) := by
  rw [value, Line.dot_set hwidth hentry, value]
  ring

variable [IsStrictOrderedRing K]

theorem interval_pos (entry : K) :
    0 < (Line.ofFloat NewtonSystem.relativeStep : K) *
      Line.greater (Line.ofFloat 1.0) (Line.abs entry) := by
  have hone : (Line.ofFloat 1.0 : K) = 1 := ExactLine.ofFloat_one
  refine mul_pos ExactLine.ofFloat_millionth ?_
  rw [Line.greater_eq_max, hone]
  exact lt_max_of_lt_left one_pos

/-- The slopes of affine residuals are their coefficients, at any place and however long the
interval is. -/
theorem gives_slopes (hwidth : ∀ f ∈ forms, f.coefficients.length = x.length)
    (hg : ∀ y, y.length = x.length → Gives inv (g y) (.ok (values forms y))) {index : Nat}
    {entry : K} (hentry : x[index]? = some entry) :
    Gives inv (NewtonSystem.slopes g x index entry) (.ok (column forms index)) := by
  rw [NewtonSystem.slopes]
  have hpos := interval_pos entry
  generalize (Line.ofFloat NewtonSystem.relativeStep : K) *
    Line.greater (Line.ofFloat 1.0) (Line.abs entry) = h at hpos
  refine (hg _ List.length_set).after ((hg _ List.length_set).after ?_)
  have hslopes : List.zipWith (fun a b => (a - b) / (Line.ofFloat 2.0 * h))
      (values forms (x.set index (entry + h))) (values forms (x.set index (entry - h))) =
      column forms index := by
    rw [values, values, List.zipWith_map, List.zipWith_self, column]
    refine List.map_congr_left fun f hf => ?_
    rw [value_set (hwidth f hf) hentry, value_set (hwidth f hf) hentry,
      show (Line.ofFloat 2.0 : K) = 2 from ExactLine.ofFloat_two]
    field_simp
    ring
  rw [hslopes]
  exact gives_pure _

theorem gives_slopesFrom (hwidth : ∀ f ∈ forms, f.coefficients.length = x.length)
    (hg : ∀ y, y.length = x.length → Gives inv (g y) (.ok (values forms y))) {index : Nat}
    {entries : List K} (hentries : x.drop index = entries) :
    Gives inv (NewtonSystem.slopesFrom g x index entries)
      (.ok ((List.range' index entries.length).map (column forms))) := by
  induction entries generalizing index with
  | nil => exact gives_pure _
  | cons entry entries ih =>
      have hentry : x[index]? = some entry := by
        rw [← List.head?_drop, hentries, List.head?_cons]
      have hrest : x.drop (index + 1) = entries := by
        rw [← List.tail_drop, hentries, List.tail_cons]
      exact (gives_slopes hwidth hg hentry).after ((ih hrest).after (gives_pure _))

/-! ## The step -/

/-- The step from some values of the unknowns: it solves the equations themselves if they are as
many as the unknowns, and their normal equations if they are more. -/
def step (forms : List (AffineForm K)) (x : List K) : Option (List K) :=
  if x.length < forms.length then
    let columns := columns forms x.length
    Elimination.solve (columns.map fun a => columns.map fun b => Line.dot a b)
      (columns.map fun a => -Line.dot a (values forms x))
  else Elimination.solve (forms.map coefficients) ((values forms x).map fun r => -r)

omit [IsStrictOrderedRing K] in
theorem correction_eq_step {n : NewtonSystem σ K}
    (hwidth : ∀ f ∈ forms, f.coefficients.length = x.length)
    (hn : n.overdetermined = decide (x.length < forms.length)) :
    n.correction (columns forms x.length) (values forms x) = step forms x := by
  have hlength : (values forms x).length = forms.length := List.length_map _
  simp only [NewtonSystem.correction, step, hn, decide_eq_true_eq, hlength, rows_columns hwidth]

/-- The step leads to a common zero of the forms, wherever there is one. -/
theorem eq_of_step {z found : List K} (hwidth : ∀ f ∈ forms, f.coefficients.length = x.length)
    (hcount : x.length ≤ forms.length) (hz : z.length = x.length)
    (hzero : ∀ f ∈ forms, f.value z = 0) (h : step forms x = some found) :
    List.zipWith (· + ·) x found = z := by
  have hlength : (List.zipWith (· - ·) z x).length = x.length := by
    rw [List.length_zipWith, hz, Nat.min_self]
  have hsolves : (forms.map fun f => Line.dot f.coefficients (List.zipWith (· - ·) z x)) =
      (values forms x).map fun r => -r := by
    rw [values, List.map_map]
    refine List.map_congr_left fun f hf => ?_
    have hvalue := hzero f hf
    rw [value] at hvalue
    rw [Line.dot_sub hz, Function.comp_apply, value, ← sub_eq_zero, ← hvalue]
    ring
  suffices hfound : found = List.zipWith (· - ·) z x by
    rw [hfound]
    exact zipWith_add_sub hz
  unfold step at h
  split at h
  case isTrue =>
      refine Elimination.eq_of_solve h ?_ ?_ ?_
      · simp
      · simp [columns, hlength]
      · rw [List.map_map]
        refine List.map_congr_left fun a _ => ?_
        rw [Function.comp_apply, ← hlength, dot_columns forms (by rwa [hlength]), hsolves,
          Line.dot_neg]
  case isFalse hsquare =>
      have hrhs : ((values forms x).map fun r => -r).length = x.length := by
        rw [List.length_map, values, List.length_map]
        exact Nat.le_antisymm (Nat.not_lt.mp hsquare) hcount
      refine Elimination.eq_of_solve h ?_ (hlength.trans hrhs.symm) ?_
      · simpa only [List.forall_mem_map, hrhs] using hwidth
      · rw [List.map_map]
        exact hsolves

end AffineForm

end Reckoner
