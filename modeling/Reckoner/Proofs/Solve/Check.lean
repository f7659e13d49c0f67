import Reckoner.Proofs.Double.Square
import Reckoner.Proofs.Solve.Accidents
import Reckoner.Proofs.Solve.Finite

/-!
# Equations that are only checked

The norm of finite residuals is a root of a sum of squares, and a square is in range exactly for a
residual below `2 ^ 512`. So that is how far checking goes; up to there a single residual is held
against the tolerance as it is, since the root of its square is the residual again.
-/

namespace Reckoner

open Reckoner.Action

/-! ## Squares -/

namespace Double

/-- The square that a power gives. Those of zero and of one are known without the library. -/
def squared (x : Float) : Float :=
  if x == 0.0 then 0.0 else if x == 1.0 then 1.0 else x.pow 2.0

end Double

namespace Scalar

/-- The second power of a size is its square, unless that is out of range. -/
theorem powerReal_two {x : Float} (hx : x.isFinite = true) (hneg : Double.isNegative x = false) :
    powerReal x 2.0 = if (Double.squared x).isInf then .error .outOfRange
      else .ok (.real (Double.squared x)) := by
  unfold powerReal Double.squared
  rw [if_neg (by decide), if_neg (Bool.eq_false_iff.mp (Double.isNaN_eq_false hx)),
    if_neg (by decide), if_neg (by decide),
    if_neg (Bool.eq_false_iff.mp (Double.isInf_eq_false hx))]
  by_cases hzero : (x == 0.0) = true
  · rw [if_pos hzero, if_pos hzero]
    rfl
  · rw [if_neg hzero, if_neg hzero, if_neg (Double.not_lt_zero hneg)]
    rfl

end Scalar

/-! ## Norms -/

namespace Check

variable {r : Float} {rs : List Float}

theorem squareSize_real (hr : r.isFinite = true) :
    squareSize (.real r) = if (Double.squared r.abs).isInf then .error .squareTooLarge
      else .ok (.real (Double.squared r.abs)) := by
  have hpower := Scalar.powerReal_two (x := r.abs) ((Double.isFinite_abs r).trans hr)
    (Double.abs_spec (Double.isNaN_eq_false hr)).1
  change (Scalar.powerReal r.abs 2.0).mapError _ = _
  rw [hpower]
  split <;> rfl

/-- The square of the size is out of range. -/
def overflows (r : Float) : Bool := (Double.squared r.abs).isInf

/-- The sum of the squares of the sizes, behind another sum. -/
def sum (rs : List Float) (first : Float) : Float :=
  rs.foldl (fun sum r => sum + Double.squared r.abs) first

theorem sumOfSquares_real (hrs : ∀ r ∈ rs, r.isFinite = true) (first : Float) :
    sumOfSquares (.real first) (rs.map .real) =
      if rs.any overflows then .error .squareTooLarge else .ok (.real (sum rs first)) := by
  induction rs generalizing first with
  | nil => rfl
  | cons r rs ih =>
      obtain ⟨hr, hrs⟩ := List.forall_mem_cons.mp hrs
      rw [List.map_cons, sumOfSquares, squareSize_real hr, List.any_cons, overflows]
      cases (Double.squared r.abs).isInf with
      | true => rfl
      | false => exact ih hrs (first + Double.squared r.abs)

/-- The sum begins with a whole number, which makes no difference: the first square is added to the
double of the same value. -/
theorem sumOfSquares_whole (hrs : ∀ r ∈ rs, r.isFinite = true) (hne : rs ≠ []) :
    sumOfSquares (.whole 0) (rs.map .real) =
      if rs.any overflows then .error .squareTooLarge else .ok (.real (sum rs 0.0)) := by
  rw [← sumOfSquares_real hrs]
  cases rs with
  | nil => exact absurd rfl hne
  | cons r rs =>
      rw [List.map_cons, sumOfSquares, sumOfSquares, squareSize_real (hrs r List.mem_cons_self)]
      split
      case isTrue => rfl
      case isFalse =>
          have hadd (y : Float) :
              (Scalar.whole 0).add (.real y) = (Scalar.real 0.0).add (.real y) := by
            change (Scalar.wholeToFloat 0 >>= fun x => Except.ok (Scalar.real (x + y))) = _
            rw [wholeToFloat_zero]
            rfl
          rw [bind_ok, hadd]
          rfl

/-- The length of residuals that are taken together as a vector. -/
def length (rs : List Float) : Float := (sum rs 0.0).sqrt

/-- A single square is summed up as it is. -/
theorem length_singleton {r : Float} (h : Double.IsSquareOf (Double.squared r.abs) r.abs) :
    length [r] = (Double.squared r.abs).sqrt :=
  congrArg Float.sqrt (Double.zero_add h.isNegative_eq_false)

theorem norm_real (hrs : ∀ r ∈ rs, r.isFinite = true) (hne : rs ≠ []) :
    norm (rs.map .real) =
      if rs.any overflows then .error .squareTooLarge else .ok (length rs) := by
  rw [norm, sumOfSquares_whole hrs hne]
  split <;> rfl

/-- The answer to residuals of that size. -/
def answer (tolerance : Float) (rs : List Float) : Solution Datum :=
  ⟨[], .check, 0, .number (.real (length rs)), some (length rs < tolerance)⟩

variable {known : Table Datum} {residuals : List Expr} {tolerance : Float}

/-- Residuals with finite real values. Of the library's power no more is known than how exact the
squares of their sizes are. -/
structure Measures (known : Table Datum) (residuals : List Expr) (rs : List Float) : Prop where
  values : List.Forall₂ (fun e r => e.evaluate (Binding.ofData known) = .ok (.real r)) residuals rs
  finite : ∀ r ∈ rs, r.isFinite = true
  squares : ∀ r ∈ rs, Double.IsSquareOf (Double.squared r.abs) r.abs

/-- What is found for residuals: their length, unless one of them is too large. -/
theorem run_of_measures (h : Measures known residuals rs) (hne : rs ≠ []) :
    Solve.inData <$> run (Binding.ofData known) residuals tolerance =
      if ∃ r ∈ rs, 2 ^ 512 ≤ |Double.exact r| then .error (Fault.squareTooLarge).toError
      else .ok (answer tolerance rs) := by
  have hvalues := Expr.evaluateAllWith_eq_ok_iff.mpr (List.forall₂_map_right_iff.mpr h.values)
  have hoverflows : rs.any overflows = true ↔ ∃ r ∈ rs, 2 ^ 512 ≤ |Double.exact r| := by
    rw [List.any_eq_true]
    refine exists_congr fun r => and_congr_right fun hr => ?_
    have hfinite := h.finite r hr
    rw [Double.abs_exact, overflows,
      (h.squares r hr).isInf_iff ((Double.isFinite_abs r).trans hfinite),
      (Double.abs_spec (Double.isNaN_eq_false hfinite)).2]
  rw [run, hvalues, bind_ok, norm_real h.finite hne]
  simp only [← hoverflows]
  split <;> rfl

end Check

namespace Solve

variable {settings : Settings} {options : Options} {known given overrides : Table Datum}

theorem exists_textOf {d : Datum} {e : Equation} (h : Equation.ofDatum d = .ok e) :
    ∃ text, textOf? d = some text := by
  cases d with
  | text s => exact ⟨s, rfl⟩
  | equation e => exact ⟨e.text, rfl⟩
  | _ => cases h

/-- An equation without unknowns is checked. -/
theorem run_equation_of_none {d : Datum} {e : Equation}
    (hoptions : Options.build settings given overrides = .ok options)
    (he : Equation.ofDatum d = .ok e)
    (hnone : unknownOf e.residual known options.solveFor = .ok none) :
    ∃ text, (equation settings d known given overrides).run =
      ((inData <$> Check.run (Binding.ofData known) [e.residual] options.tolerance).mapError
        (·.within text), []) := by
  obtain ⟨text, htext⟩ := exists_textOf he
  refine ⟨text, ?_⟩
  rw [equation, hoptions, ofCause_ok_bind, equationWith, htext, he, ofExcept_ok_bind, parsed, hnone,
    ofExcept_ok_bind]
  cases Check.run (Binding.ofData known) [e.residual] options.tolerance <;> rfl

/-- Several equations without unknowns are checked. -/
theorem run_system_of_none {equations : List Datum} {es : List Equation}
    (hoptions : Options.build settings given overrides = .ok options)
    (hes : equations.mapM Equation.ofDatum = .ok es) (hseveral : 2 ≤ es.length)
    (hnone : unknownsOf (es.map Equation.residual) known options.solveFor = .ok []) :
    (system settings equations known given overrides).run =
      (inData <$> Check.run (Binding.ofData known) (es.map Equation.residual) options.tolerance,
        []) := by
  obtain ⟨e, e', rest, rfl⟩ : ∃ e e' rest, es = e :: e' :: rest := by
    match es, hseveral with
    | e :: e' :: rest, _ => exact ⟨e, e', rest, rfl⟩
  rw [system, hoptions, ofCause_ok_bind, hes, ofExcept_ok_bind]
  dsimp only
  rw [hnone, ofExcept_ok_bind]
  dsimp only
  cases Check.run (Binding.ofData known) _ options.tolerance <;> rfl

/-- What is checked is answered as far as squares go. An equation or several of them without
unknowns, all of whose residuals have finite real values, is answered with no values, unless a
residual is at least `2 ^ 512`: that is an error without a code. A single equation is satisfied
exactly if its residual lies below the tolerance, of at least `1e-100`. -/
theorem run_of_no_unknowns (hoptions : Options.build settings given overrides = .ok options) :
    (∀ d e r, Equation.ofDatum d = .ok e →
      unknownOf e.residual known options.solveFor = .ok none →
      Check.Measures known [e.residual] [r] →
      (equation settings d known given overrides).run =
        (if 2 ^ 512 ≤ |Double.exact r| then .error (Fault.squareTooLarge).toError
          else .ok (Check.answer options.tolerance [r]), []) ∧
      (|Double.exact r| < 2 ^ 512 → 1e-100 ≤ options.tolerance →
        ((Check.answer options.tolerance [r]).satisfied = some true ↔ r.abs < options.tolerance))) ∧
    (∀ equations es rs, equations.mapM Equation.ofDatum = .ok es → 2 ≤ es.length →
      unknownsOf (es.map Equation.residual) known options.solveFor = .ok [] →
      Check.Measures known (es.map Equation.residual) rs →
      (system settings equations known given overrides).run =
        (if ∃ r ∈ rs, 2 ^ 512 ≤ |Double.exact r| then .error (Fault.squareTooLarge).toError
          else .ok (Check.answer options.tolerance rs), [])) := by
  constructor
  · intro d e r he hnone h
    refine ⟨?_, fun hsize htolerance => ?_⟩
    · obtain ⟨text, hrun⟩ := run_equation_of_none hoptions he hnone
      have hsole : (∃ x ∈ [r], 2 ^ 512 ≤ |Double.exact x|) ↔ 2 ^ 512 ≤ |Double.exact r| := by simp
      rw [hrun, Check.run_of_measures h (List.cons_ne_nil r [])]
      simp only [hsole]
      split <;> rfl
    · have hfinite := h.finite r List.mem_cons_self
      obtain ⟨hpositive, hmagnitude⟩ := Double.abs_spec (Double.isNaN_eq_false hfinite)
      rw [Double.abs_exact, ← hmagnitude] at hsize
      rw [Check.answer, Check.length_singleton (h.squares r List.mem_cons_self), Option.some.injEq,
        decide_eq_true_iff]
      exact (h.squares r List.mem_cons_self).sqrt_lt_iff ((Double.isFinite_abs r).trans hfinite)
        hpositive hsize htolerance
  · intro equations es rs hes hseveral hnone h
    have hne : rs ≠ [] := by
      rintro rfl
      have hlength := h.values.length_eq
      rw [List.length_map, List.length_nil] at hlength
      omega
    rw [run_system_of_none hoptions hes hseveral hnone, Check.run_of_measures h hne]

/-- Three and two differ by one. -/
private def differing : Equation := ⟨.number 3.0, .number 2.0, "3 = 2"⟩

/-- Two and two do not differ. -/
private def agreeing : Equation := ⟨.number 2.0, .number 2.0, "2 = 2"⟩

private theorem isSquareOf_one :
    Double.IsSquareOf (Double.squared (1.0 : Float).abs) (1.0 : Float).abs := by
  have habs : (1.0 : Float).abs = 1.0 := by decide
  have hsquared : Double.squared 1.0 = 1.0 := by
    rw [Double.squared, if_neg (by decide), if_pos (by decide)]
  have hmagnitude : Double.magnitude 1.0 = ⟨2 ^ 52, -52⟩ := by decide
  rw [habs, hsquared]
  refine ⟨1, 1, Nat.one_pos, ?_, by decide +kernel⟩
  rw [hmagnitude]
  norm_num [Double.Magnitude.value]

private theorem isSquareOf_zero :
    Double.IsSquareOf (Double.squared (0.0 : Float).abs) (0.0 : Float).abs := by
  have habs : (0.0 : Float).abs = 0.0 := by decide
  have hsquared : Double.squared 0.0 = 0.0 := by rw [Double.squared, if_pos (by decide)]
  rw [habs, hsquared]
  refine ⟨0, 1, Nat.one_pos, ?_, by decide⟩
  norm_num [Double.value_eq_zero (x := 0.0) (by decide)]

private theorem measures_differing : Check.Measures [] [differing.residual] [1.0] where
  values := .cons (eq_ok_of_toOption (by decide +kernel)) .nil
  finite := List.forall_mem_singleton.mpr (by decide)
  squares := List.forall_mem_singleton.mpr isSquareOf_one

private theorem measures_both :
    Check.Measures [] [differing.residual, agreeing.residual] [1.0, 0.0] where
  values := .cons (eq_ok_of_toOption (by decide +kernel))
    (.cons (eq_ok_of_toOption (by decide +kernel)) .nil)
  finite := by decide
  squares := List.forall_mem_cons.mpr
    ⟨isSquareOf_one, List.forall_mem_singleton.mpr isSquareOf_zero⟩

theorem run_of_no_unknowns_differing :
    (equation (.ok Settings.defaults) (.equation differing) [] [] []).run =
      (.ok (Check.answer 1e-10 [1.0]), []) ∧
    ((Check.answer 1e-10 [1.0]).satisfied = some true ↔ (1.0 : Float).abs < 1e-10) ∧
    (system (.ok Settings.defaults) [.equation differing, .equation agreeing] [] [] []).run =
      (.ok (Check.answer 1e-10 [1.0, 0.0]), []) := by
  have hone : |Double.exact 1.0| < 2 ^ 512 := by
    rw [Double.exact_one, abs_one]
    exact one_lt_pow₀ one_lt_two (by decide)
  have hzero : |Double.exact 0.0| < 2 ^ 512 := by
    rw [Double.exact_zero, abs_zero]
    positivity
  obtain ⟨hsingle, hseveral⟩ := @run_of_no_unknowns _ _ [] _ _ Options.build_defaults
  obtain ⟨hrun, hsatisfied⟩ := hsingle (.equation differing) differing 1.0 rfl
    (eq_ok_of_toOption (by decide +kernel)) measures_differing
  have hsystem := hseveral [.equation differing, .equation agreeing] [differing, agreeing]
    [1.0, 0.0] rfl (Nat.le_refl 2) (eq_ok_of_toOption (by decide +kernel)) measures_both
  rw [if_neg (not_le.mpr hone)] at hrun
  rw [if_neg (by simpa using ⟨hone, hzero⟩)] at hsystem
  exact ⟨hrun, hsatisfied hone (by decide +kernel), hsystem⟩

end Solve

end Reckoner
