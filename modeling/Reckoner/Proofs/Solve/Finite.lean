import Reckoner.Proofs.Double.Quotient
import Reckoner.Proofs.Expr.Literal
import Reckoner.Proofs.Solve.Exact
import Reckoner.Proofs.Solve.Residual

/-!
# Finite solutions

Newton's iteration looks at every estimate and every residual before it goes on, so that from a
finite first estimate all that it answers with is finite. The solution of a linear form is not
looked at: it is finite exactly if the division of the constant by the factor does not overflow, and
the residual exactly if the equation has a finite value there.
-/

namespace Reckoner

open Reckoner.Action

/-! ## Sizes -/

namespace Double

theorem isFinite_abs (x : Float) : x.abs.isFinite = x.isFinite := by
  change x.abs.toModel.unpack.isFinite = x.toModel.unpack.isFinite
  rw [unpack_abs]
  cases x.toModel.unpack <;> rfl

theorem isFinite_of_hypotenuse {x y : Float} (h : (hypotenuse x y).isFinite = true) :
    x.isFinite = true ∧ y.isFinite = true := by
  unfold hypotenuse at h
  split at h
  case isTrue => exact absurd h (by decide)
  case isFalse hinf =>
  split at h
  case isTrue => exact absurd h (by decide)
  case isFalse hnan =>
  simp only [Bool.or_eq_true, not_or, Bool.not_eq_true] at hinf hnan
  exact ⟨isFinite_of_isInf_eq_false hnan.1 hinf.1, isFinite_of_isInf_eq_false hnan.2 hinf.2⟩

end Double

/-- A complex number has a finite size exactly if it is finite: a size beyond all doubles is a
fault. -/
theorem Complex.isFinite_of_magnitude {z : Complex} {size : Float} (h : z.magnitude = .ok size) :
    size.isFinite = z.isFinite := by
  unfold magnitude at h
  dsimp only at h
  split at h
  case isTrue => cases h
  case isFalse hfault =>
  cases h
  rw [Bool.eq_iff_iff]
  constructor
  · exact fun hsize => (Bool.and_eq_true ..).mpr (Double.isFinite_of_hypotenuse hsize)
  · intro hfinite
    simpa [hfinite] using hfault

/-- A whole number is as close to a double as its distance from zero. -/
theorem Double.isFinite_ofInt_natAbs (n : Int) :
    (ofInt n.natAbs).isFinite = (ofInt n).isFinite := by
  obtain ⟨bits, hbits, h⟩ := exists_bits_ofRatio n.natAbs 1
  rw [ofInt, ofInt, Int.natAbs_natCast, h, h]
  exact (isFinite_withSign _ hbits).trans (isFinite_withSign _ hbits).symm

/-- The size of a number is finite exactly if the number is. -/
theorem Scalar.isFinite_of_abs {v size : Scalar} (h : v.abs = .ok size) :
    size.isFinite = v.isFinite := by
  cases v with
  | whole n =>
      cases h
      simp only [isFinite, wholeToFloat, Double.ofInt?, Double.isFinite_ofInt_natAbs]
      split <;> split <;> simp_all
  | real x =>
      cases h
      exact congrArg Except.ok (Double.isFinite_abs x)
  | complex z =>
      rw [abs] at h
      cases hlength : z.magnitude with
      | error => rw [hlength] at h; cases h
      | ok length =>
          rw [hlength] at h
          cases h
          exact congrArg Except.ok (Complex.isFinite_of_magnitude hlength)

/-! ## Roots -/

namespace LinearForm

/-- Dividing by the factor does not overflow: the factor is infinite, or the exact quotient lies
below the bound from which on doubles are infinite. -/
def Divides (constant factor : Float) : Prop :=
  constant.isFinite = true ∧ (factor.isInf = true ∨ factor.isFinite = true ∧
    |Double.exact constant| < Double.overflow * |Double.exact factor|)

/-- The root of a real linear form is finite exactly if the division does not overflow. -/
theorem isFinite_root {a b : Float} {x : Scalar} (ha : Double.isZero a = false)
    (h : (LinearForm.mk (Scalar.real a) (.real b)).root = .ok x) :
    x.isFinite = .ok true ↔ Divides b a := by
  have hne : ¬(a == 0.0) = true := Bool.eq_false_iff.mp ha
  have hroot : (LinearForm.mk (Scalar.real a) (.real b)).root = .ok (.real (-b / a)) := by
    unfold root
    change (Except.mapError _ (if (a == 0.0) = true then _ else _) >>= _) = _
    rw [if_neg hne]
    rfl
  cases hroot.symm.trans h
  change Except.ok (-b / a).isFinite = .ok true ↔ _
  rw [Except.ok.injEq, Double.isFinite_div ha, Double.isFinite_neg, Divides,
    Double.abs_exact, Double.abs_exact]
  refine and_congr_right fun hb => ?_
  rw [Expr.magnitude_neg (Double.isNaN_eq_false hb)]

end LinearForm

/-! ## Solutions -/

/-- The value is a number without a part that is infinite or not a number. -/
def Datum.IsFinite (d : Datum) : Prop := ∃ x, d.toScalar? = some x ∧ x.isFinite = .ok true

theorem Datum.isFinite_number {x : Scalar} : (number x).IsFinite ↔ x.isFinite = .ok true :=
  ⟨fun ⟨_, hvalue, hx⟩ => Option.some.inj hvalue ▸ hx, fun hx => ⟨x, rfl, hx⟩⟩

/-- The solution is one of a single unknown, and its value and its residual are finite. -/
def Solution.IsFinite (s : Solution Datum) : Prop :=
  ∃ name value, s.values = [(name, value)] ∧ value.IsFinite ∧ s.residual.IsFinite

/-- The first estimate is a finite number, if there is one at all. -/
structure Options.StartsFinite (options : Options) (settings : Settings) : Prop where
  closed : options.opening? = none
  finite : ∀ {name x}, options.startValue settings name = .ok x → x.isFinite = .ok true

theorem Options.startsFinite_of_number {options : Options} {settings : Settings} {x : Scalar}
    (hguess : options.guess = .number x) (hx : x.isFinite = .ok true) :
    options.StartsFinite settings where
  closed := by
    rw [opening?, hguess]
  finite := by
    intro name value hvalue
    rw [startValue, startValues, hguess] at hvalue
    cases hvalue
    exact hx

theorem Options.isFinite_estimateAt (options : Options) {steps : Nat} {x : Scalar}
    (h : x.isFinite = .ok true) : (Datum.ofEstimate (options.estimateAt steps x)).IsFinite := by
  unfold estimateAt
  split
  case h_1 b _ => exact ⟨_, rfl, by cases b <;> decide⟩
  case h_2 => exact Datum.isFinite_number.mpr h

namespace Solve

variable {settings : Settings} {options : Options} {known given overrides : Table Datum}
  {s : Solution Datum} {d : Datum}

theorem method_of_run {residuals : List Expr} {tolerance : Float} {found : Solution Scalar}
    (h : Check.run (Binding.ofData known) residuals tolerance = .ok found) :
    found.method = .check := by
  obtain ⟨values, -, h⟩ := exists_of_bind_eq_ok h
  obtain ⟨norm, -, h⟩ := exists_of_bind_eq_ok h
  cases h
  rfl

/-- What the iteration answers with is finite if its first estimate is. -/
theorem Solves.isFinite_of_newton (hguess : options.StartsFinite settings) {r : Expr}
    {name? : Option String} (h : Solves settings options known r name? s)
    (hmethod : s.method = .newton) : s.IsFinite := by
  cases h with
  | check hfound => cases (method_of_run hfound).symm.trans hmethod
  | linear => cases hmethod
  | opening hopening => cases hguess.closed.symm.trans hopening
  | newton _ hstart hconverges =>
      obtain ⟨v, hv, hfinite, hsize⟩ := hconverges.measured
      have hsizeFinite := (Scalar.isFinite_of_abs hsize).trans hfinite
      exact ⟨_, _, rfl,
        options.isFinite_estimateAt (hconverges.finite (hguess.finite hstart)),
        Datum.isFinite_number.mpr hsizeFinite⟩

/-- A solution by the linear form of an equation. -/
structure ByForm (r : Expr) (known : Table Datum) (s : Solution Datum) (form : LinearForm Scalar)
    (x v : Scalar) : Prop where
  collected : ∃ name, r.collect ((Binding.ofData known).without [name]) name = .ok form ∧
    s.values = [(name, .number x)]
  divided : form.factor.isZero = false ∧ form.root = .ok x
  evaluated : r.evaluate (Binding.ofData (known.insertAll s.values)) = .ok v
  residual : ∃ size, v.abs = .ok size ∧ s.residual = .number size

theorem Solves.exists_byForm {r : Expr} {name? : Option String}
    (h : Solves settings options known r name? s) (hmethod : s.method = .linear) :
    ∃ form x v, ByForm r known s form x v := by
  cases h with
  | check hfound => cases (method_of_run hfound).symm.trans hmethod
  | opening => cases hmethod
  | newton => cases hmethod
  | @linear name form x v size hform hfactor hx hv hsize =>
      have hoverride := Expr.evaluate_override known [(name, .number x)] r
      exact ⟨form, x, v, ⟨name, hform, rfl⟩, ⟨hfactor, hx⟩, hoverride.symm.trans hv,
        ⟨size, hsize, rfl⟩⟩

/-- A solution by a linear form is finite exactly if the root and the value there are. -/
theorem ByForm.isFinite_iff {r : Expr} {form : LinearForm Scalar} {x v : Scalar}
    (h : ByForm r known s form x v) :
    s.IsFinite ↔ x.isFinite = .ok true ∧ v.isFinite = .ok true := by
  obtain ⟨name, -, hvalues⟩ := h.collected
  obtain ⟨size, hsize, hresidual⟩ := h.residual
  rw [← Scalar.isFinite_of_abs hsize,
    ← Datum.isFinite_number, ← Datum.isFinite_number, ← hresidual]
  constructor
  · rintro ⟨other, value, hother, hvalue, hresidual⟩
    cases hvalues.symm.trans hother
    exact ⟨hvalue, hresidual⟩
  · exact fun ⟨hx, hv⟩ => ⟨name, _, hvalues, hx, hv⟩

/-- What is answered for the unknown of an equation, from a finite first estimate. By the iteration
it is finite. By a linear form it is finite exactly if the root and the value of the equation there
are, of which neither is looked at; the root of a real form is finite exactly if the division does
not overflow. -/
theorem finite_of_solution
    (hs : (equation settings d known given overrides).run.1 = .ok s ∨
      ∃ t, ((Trace.solve (equation settings d known given overrides)).runFrom t).1 = .ok s)
    (hguess : ∀ options, Options.build settings given overrides = .ok options →
      options.StartsFinite settings) :
    (s.method = .newton → s.IsFinite) ∧
    (s.method = .linear → ∃ e form x v, Equation.ofDatum d = .ok e ∧
      ByForm e.residual known s form x v ∧
      (s.IsFinite ↔ x.isFinite = .ok true ∧ v.isFinite = .ok true) ∧
      ∀ a b, form = ⟨.real a, .real b⟩ →
        (x.isFinite = .ok true ↔ LinearForm.Divides b a)) := by
  have hreturns : Returns (equation settings d known given overrides) s :=
    ⟨[], hs.elim id fun ⟨_, h⟩ => ok_of_traced h⟩
  obtain ⟨options, hoptions, h⟩ := exists_of_returns_bind hreturns
  obtain ⟨e, name?, he, -, hsolves⟩ := solves_of_equationWith h
  refine ⟨hsolves.isFinite_of_newton (hguess _ (ok_of_returns_ofCause hoptions)), fun hmethod => ?_⟩
  obtain ⟨form, x, v, hform⟩ := hsolves.exists_byForm hmethod
  refine ⟨e, form, x, v, he, hform, hform.isFinite_iff, ?_⟩
  rintro a b rfl
  exact LinearForm.isFinite_root hform.divided.1 hform.divided.2

/-- The root of a square. -/
private def square : Equation :=
  ⟨.binary "*" (.var "x") (.var "x"), .number 4.0, "x*x = 4"⟩

/-- The first estimate is three. -/
private def startingAtThree : Table Datum := [("initial_guess", .number (.real 3.0))]

/-- The square is solved by the iteration. -/
private def squareRoot : Solving (Solution Datum) :=
  equation (.ok Settings.defaults) (.equation square) [] startingAtThree []

private theorem guess_of_build_startingAtThree
    (h : Options.build (.ok Settings.defaults) startingAtThree [] = .ok options) :
    options.guess = .number (.real 3.0) := by
  have hnames : Options.unknownNames startingAtThree = [] := by decide +kernel
  obtain ⟨merged, hmerged, h⟩ := exists_of_bind_eq_ok h
  obtain rfl : merged = startingAtThree := by
    rw [Options.merge, hnames] at hmerged
    cases hmerged
    rfl
  obtain ⟨_, -, h⟩ := exists_of_bind_eq_ok h
  obtain ⟨_, -, h⟩ := exists_of_bind_eq_ok h
  obtain ⟨guess, hguess, h⟩ := exists_of_bind_eq_ok h
  obtain ⟨_, -, h⟩ := exists_of_bind_eq_ok h
  obtain ⟨_, -, h⟩ := exists_of_bind_eq_ok h
  obtain ⟨_, -, h⟩ := exists_of_bind_eq_ok h
  cases hguess
  cases h
  rfl

theorem finite_of_solution_square :
    ∃ s, squareRoot.run.1 = .ok s ∧ s.method = .newton ∧ s.IsFinite := by
  have hsolved : squareRoot.run.1.toOption.map (·.method) = some .newton := by decide +kernel
  obtain ⟨s, hs, hmethod⟩ := Option.map_eq_some_iff.mp hsolved
  have hanswer := eq_ok_of_toOption hs
  have hguess : ∀ options, Options.build (.ok Settings.defaults) startingAtThree [] = .ok options →
      options.StartsFinite (.ok Settings.defaults) := fun options h =>
    Options.startsFinite_of_number (guess_of_build_startingAtThree h) (by decide)
  exact ⟨s, hanswer, hmethod, (finite_of_solution (.inl hanswer) hguess).1 hmethod⟩

/-- `(x - 2) * 1e308 = 0`, whose constant overflows while it is collected. -/
private def steep : Equation :=
  ⟨.binary "*" (.binary "-" (.var "x") (.number 2.0)) (.number 1e308), .number 0.0,
    "(x - 2)*1e308 = 0"⟩

example : (equation (.ok Settings.defaults) (.equation steep) [] [] []).run.1.toOption.map
    (fun s => (s.method, s.residual.toScalar?)) =
      some (.linear, some (.real Double.infinity)) := by decide +kernel

end Solve

end Reckoner
