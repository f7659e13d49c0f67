import Reckoner.Proofs.Program.Compilation
import Reckoner.Proofs.Solve.Affine
import Reckoner.Proofs.Solve.Exact

/-!
# Systems that one step solves

Newton's iteration on exact numbers, for equations whose residuals are affine in the unknowns and
have a common zero: the first step leads to the zero, where every residual is small enough. It is
the only one, since elimination does not find anything where there are several.
-/

namespace Reckoner

open Reckoner.Action

variable {σ α K : Type} [Field K] [LinearOrder K] [ExactLine K]

namespace NewtonSystem

variable {inv : σ → Prop} {n : NewtonSystem σ K} {forms : List (AffineForm K)} {x : List K}
  {left done : Nat}

theorem gives_iterate_of_less {residuals : List K}
    (hresiduals : Gives inv (n.residuals x) (.ok residuals))
    (hnorm : Line.norm residuals < n.tolerance) :
    Gives inv (n.iterate left done x) (.ok (.converged x done (Line.norm residuals))) := by
  have hless : Line.less (Line.norm residuals) n.tolerance = true := decide_eq_true hnorm
  rw [iterate]
  refine hresiduals.after ?_
  simp only [Line.all_isFinite, Bool.not_true, Bool.false_eq_true, if_false, hless, if_true]
  exact gives_pure _

theorem gives_iterate_of_le {residuals : List K} {columns : List (List K)}
    {outcome : Except Error (SystemEnding K)}
    (hresiduals : Gives inv (n.residuals x) (.ok residuals))
    (hnorm : n.tolerance ≤ Line.norm residuals)
    (hcolumns : Gives inv (slopesFrom n.residuals x 0 x) (.ok columns))
    (hnext : Gives inv (match n.correction columns residuals with
      | none => Action.fail .singularJacobian
      | some step => do
        let next := List.zipWith (· + ·) x step
        n.note ⟨done + 1, next, residuals, Line.norm residuals⟩
        n.iterate left (done + 1) next) outcome) :
    Gives inv (n.iterate (left + 1) done x) outcome := by
  have hless : Line.less (Line.norm residuals) n.tolerance = false :=
    decide_eq_false (not_lt.mpr hnorm)
  rw [iterate]
  refine hresiduals.after ?_
  simp only [Line.all_isFinite, Bool.not_true, Bool.false_eq_true, if_false, hless]
  exact hcolumns.after hnext

/-- The end of an iteration on affine residuals: at the start, or one step behind it. -/
def endOfAffine (forms : List (AffineForm K)) (tolerance : K) (x : List K) :
    Except Error (SystemEnding K) :=
  let norm := Line.norm (AffineForm.values forms x)
  if norm < tolerance then .ok (.converged x 0 norm)
  else
    match AffineForm.step forms x with
    | none => .error (.of .singularJacobian)
    | some step => .ok (.converged (List.zipWith (· + ·) x step) 1 0)

theorem gives_iterate_of_affine [IsStrictOrderedRing K] {z : List K}
    (hnote : ∀ step, Gives inv (n.note step) (.ok ()))
    (hresiduals : ∀ y, y.length = x.length →
      Gives inv (n.residuals y) (.ok (AffineForm.values forms y)))
    (hover : n.overdetermined = decide (x.length < forms.length)) (htolerance : 0 < n.tolerance)
    (hwidth : ∀ f ∈ forms, f.coefficients.length = x.length) (hcount : x.length ≤ forms.length)
    (hz : z.length = x.length) (hzero : ∀ f ∈ forms, f.value z = 0) :
    Gives inv (n.iterate (left + 1) 0 x) (endOfAffine forms n.tolerance x) := by
  unfold endOfAffine
  dsimp only
  split
  case isTrue hnorm => exact gives_iterate_of_less (hresiduals x rfl) hnorm
  case isFalse hnorm =>
  have hcolumns : Gives inv (slopesFrom n.residuals x 0 x)
      (.ok (AffineForm.columns forms x.length)) := by
    rw [AffineForm.columns, List.range_eq_range']
    exact AffineForm.gives_slopesFrom hwidth hresiduals List.drop_zero
  refine gives_iterate_of_le (hresiduals x rfl) (not_lt.mp hnorm) hcolumns ?_
  rw [AffineForm.correction_eq_step hwidth hover]
  cases hstep : AffineForm.step forms x with
  | none => exact gives_ofExcept _
  | some step =>
      refine (hnote _).after ?_
      dsimp only
      rw [AffineForm.eq_of_step hwidth hcount hz hzero hstep]
      have hnone : Line.norm (AffineForm.values forms z) = 0 := by
        refine Line.norm_eq_zero ?_
        simpa only [AffineForm.values, List.forall_mem_map] using hzero
      have hlast : Gives inv (n.iterate left 1 z)
          (.ok (.converged z 1 (Line.norm (AffineForm.values forms z)))) :=
        gives_iterate_of_less (hresiduals z hz) (hnone ▸ htolerance)
      rwa [hnone] at hlast

end NewtonSystem

namespace Unknowns

variable [Arithmetic α] {u : Unknowns α} {part : RealPart α K} {forms : List (AffineForm K)}

/-- The residuals have the values of affine forms in the unknowns, wherever they are evaluated. -/
structure HasForms (u : Unknowns α) (part : RealPart α K) (forms : List (AffineForm K)) : Prop where
  width : ∀ f ∈ forms, f.coefficients.length = u.names.length
  value : ∀ x : List K, x.length = u.names.length → List.Forall₂
    (fun r f => r.evaluate (u.bind part x) = .ok (part.embed (f.value x))) u.residuals forms

/-- The values of the unknowns make every residual zero. -/
def IsSolvedBy (u : Unknowns α) (part : RealPart α K) (x : List K) : Prop :=
  x.length = u.names.length ∧
    ∀ r ∈ u.residuals, r.evaluate (u.bind part x) = .ok (part.embed 0)

theorem isSolvedBy_iff (hreal : ∀ v, part.real? (part.embed v) = some v)
    (hforms : u.HasForms part forms) {x : List K} :
    u.IsSolvedBy part x ↔ x.length = u.names.length ∧ ∀ f ∈ forms, f.value x = 0 := by
  refine and_congr_right fun hx => ?_
  have hembed : ∀ v w, part.embed v = part.embed w → v = w := fun v w h => by
    simpa only [hreal, Option.some.injEq] using congrArg part.real? h
  have hpairs := hforms.value x hx
  clear hforms
  generalize u.residuals = residuals at hpairs ⊢
  induction hpairs with
  | nil => simp
  | cons hvalue _ ih =>
      rw [List.forall_mem_cons, List.forall_mem_cons, hvalue, Except.ok.injEq]
      exact and_congr ⟨hembed _ _, congrArg part.embed⟩ ih

theorem exists_programs {bindings : Table (Binding α)} {residuals : List Expr}
    (codegen : Bool) (hvalid : ∀ r ∈ residuals, r.isValid = true)
    (hvalue : ∀ r ∈ residuals, ∃ v, r.evaluate bindings = .ok v) :
    ∃ programs : List (Program α), residuals.mapM (Program.ofExpr codegen) = .ok programs := by
  induction residuals with
  | nil => exact ⟨[], rfl⟩
  | cons r residuals ih =>
      obtain ⟨hr, hresiduals⟩ := List.forall_mem_cons.mp hvalid
      obtain ⟨⟨v, hv⟩, hvalues⟩ := List.forall_mem_cons.mp hvalue
      obtain ⟨p, hp⟩ := Program.exists_ofExpr codegen hr hv
      obtain ⟨programs, hprograms⟩ := ih hresiduals hvalues
      rw [List.mapM_cons, hp, hprograms]
      exact ⟨_, rfl⟩

theorem mapM_run {codegen : Bool} {bindings : Table (Binding α)} {residuals : List Expr}
    {programs : List (Program α)} {x : List K}
    (hprograms : residuals.mapM (Program.ofExpr codegen) = .ok programs)
    (hvalue : List.Forall₂ (fun r f => r.evaluate bindings = .ok (part.embed (f.value x)))
      residuals forms) :
    programs.mapM (fun p => p.run bindings) =
      .ok (forms.map fun f => part.embed (AffineForm.value f x)) := by
  have hpairs := forall₂_of_mapM_eq_ok hprograms
  clear hprograms
  induction hpairs generalizing forms with
  | nil => cases hvalue; rfl
  | cons hp _ ih =>
      cases hvalue with
      | cons hv hvalue =>
          rw [List.mapM_cons, Program.run_of_ofExpr hp, hv, ih hvalue]
          rfl

omit [Arithmetic α] in
theorem mapM_real (hreal : ∀ v, part.real? (part.embed v) = some v) (x : List K) :
    (forms.map fun f => part.embed (f.value x)).mapM part.real? =
      some (AffineForm.values forms x) := by
  induction forms with
  | nil => rfl
  | cons f forms ih =>
      rw [List.map_cons, List.mapM_cons, hreal, ih]
      rfl

theorem residualsAt_eq (hreal : ∀ v, part.real? (part.embed v) = some v)
    (hforms : u.HasForms part forms) {programs : List (Program α)}
    (hprograms : u.residuals.mapM (Program.ofExpr u.codegen) = .ok programs) {x : List K}
    (hx : x.length = u.names.length) :
    u.residualsAt part programs x = .ok (AffineForm.values forms x) := by
  simp only [residualsAt, mapM_run hprograms (hforms.value x hx), bind_ok, mapM_real hreal]
  rfl

/-- Affine equations that have a common solution: the iteration ends at its start if the residuals
are small enough there. Otherwise the first step, by the equations themselves or, if they are more
than the unknowns, by their normal equations, leads to the common solution, and there is no other;
or else the matrix of the step is singular. -/
theorem solve_of_affine [IsStrictOrderedRing K] {note : SystemStep K → Action σ Unit}
    {tolerance : K} {most : Int} {start : List K}
    (hnote : ∀ step, Gives (fun _ => True) (note step) (.ok ()))
    (hreal : ∀ v, part.real? (part.embed v) = some v)
    (hvalid : ∀ r ∈ u.residuals, r.isValid = true) (hforms : u.HasForms part forms)
    (hcount : u.names.length ≤ u.residuals.length) (hsolvable : ∃ z, u.IsSolvedBy part z)
    (htolerance : 0 < tolerance) (hmost : 1 ≤ most) (hstart : start.length = u.names.length)
    (s : σ) :
    (Line.norm (AffineForm.values forms start) < tolerance →
      ((u.solve part note tolerance most (.ok start)).runFrom s).1 =
        .ok (.converged start 0 (Line.norm (AffineForm.values forms start)))) ∧
    (tolerance ≤ Line.norm (AffineForm.values forms start) →
      (AffineForm.step forms start = none →
        ((u.solve part note tolerance most (.ok start)).runFrom s).1 =
          .error (.of .singularJacobian)) ∧
      ∀ step, AffineForm.step forms start = some step →
        ((u.solve part note tolerance most (.ok start)).runFrom s).1 =
          .ok (.converged (List.zipWith (· + ·) start step) 1 0) ∧
        ∀ z, u.IsSolvedBy part z ↔ z = List.zipWith (· + ·) start step) := by
  have hlength : u.residuals.length = forms.length := (hforms.value start hstart).length_eq
  have hwidth : ∀ f ∈ forms, f.coefficients.length = start.length := by
    simpa only [hstart] using hforms.width
  have hmore : start.length ≤ forms.length := by rwa [hstart, ← hlength]
  obtain ⟨z, hsolved⟩ := hsolvable
  obtain ⟨hz, hzero⟩ := (isSolvedBy_iff hreal hforms).mp hsolved
  have hvalues : ∀ r ∈ u.residuals, ∃ v, r.evaluate (u.bind part z) = .ok v :=
    fun r hr => ⟨_, hsolved.2 r hr⟩
  obtain ⟨programs, hprograms⟩ := exists_programs u.codegen hvalid hvalues
  have houtcome : ((u.solve part note tolerance most (.ok start)).runFrom s).1 =
      NewtonSystem.endOfAffine forms tolerance start := by
    obtain ⟨left, hleft⟩ : ∃ left, most.toNat = left + 1 := ⟨most.toNat - 1, by omega⟩
    suffices h : Gives (fun _ => True) (u.solve part note tolerance most (.ok start))
        (NewtonSystem.endOfAffine forms tolerance start) from (h s trivial).1
    rw [solve]
    refine (gives_of_eq hprograms).after ((gives_ofCause rfl).after ?_)
    rw [NewtonSystem.run, if_neg (by omega), hleft]
    refine NewtonSystem.gives_iterate_of_affine hnote (fun y hy => gives_of_eq ?_) ?_ htolerance
      hwidth hmore (hz.trans hstart.symm) hzero
    · exact residualsAt_eq hreal hforms hprograms (hy.trans hstart)
    · rw [hstart, ← hlength]
  rw [houtcome, NewtonSystem.endOfAffine]
  refine ⟨fun hnorm => if_pos hnorm, fun hnorm => ?_⟩
  rw [if_neg (not_lt.mpr hnorm)]
  refine ⟨fun hstep => by rw [hstep], fun step hstep => ⟨by rw [hstep], fun y => ?_⟩⟩
  rw [isSolvedBy_iff hreal hforms]
  constructor
  · rintro ⟨hy, hyzero⟩
    exact (AffineForm.eq_of_step hwidth hmore (hy.trans hstart.symm) hyzero hstep).symm
  · rintro rfl
    rw [AffineForm.eq_of_step hwidth hmore (hz.trans hstart.symm) hzero hstep]
    exact ⟨hz, hzero⟩

/-- Rational numbers with whole powers and without functions. -/
local instance : ExactNumeric ℚ :=
  rationals (fun x y => .ok (x ^ y.num)) fun f _ => .error (.unknownFunction f.name)

private theorem exact_steps : 0 < Double.exact 1e-6 ∧ 0 ≤ Double.exact 1e-12 := by
  decide +kernel

/-- Rational numbers, with the square roots of squares. -/
local instance : ExactLine ℚ where
  ofFloat := Double.exact
  sqrt q := mkRat (Nat.sqrt q.num.toNat) (Nat.sqrt q.den)
  ofFloat_zero := Double.exact_zero
  ofFloat_one := Double.exact_one
  ofFloat_two := Double.exact_two
  ofFloat_millionth := exact_steps.1
  ofFloat_trillionth := exact_steps.2
  sqrt_zero := by decide +kernel

/-- `x + y = 3`, `y = k` and `2 * x + 2 * y = 6` with a known `k`: one equation more than there are
unknowns. -/
private def crossing : Unknowns ℚ where
  residuals :=
    let x := Expr.var "x"
    let y := Expr.var "y"
    let twice (e : Expr) := Expr.binary "*" (.number 2.0) e
    [.binary "-" (.binary "+" x y) (.number 3.0), .binary "-" y (.var "k"),
      .binary "-" (.binary "+" (twice x) (twice y)) (.number 6.0)]
  names := ["x", "y"]
  bindings := [("k", .number 1)]
  codegen := true

private def crossingForms : List (AffineForm ℚ) := [⟨[1, 1], -3⟩, ⟨[0, 1], -1⟩, ⟨[2, 2], -6⟩]

private def itself : RealPart ℚ ℚ := ⟨id, some⟩

private theorem hasForms_crossing : crossing.HasForms itself crossingForms where
  width := by decide
  value x hx := by
    obtain ⟨a, b, rfl⟩ := List.length_eq_two.mp hx
    have hthree : Double.exact 3.0 = 3 := by decide +kernel
    have hsix : Double.exact 6.0 = 6 := by decide +kernel
    refine .cons ?_ (.cons ?_ (.cons ?_ .nil))
    · change Except.ok (a + b - Double.exact 3.0) = _
      simp only [itself, AffineForm.value, Line.dot_cons, Line.dot_nil, hthree, id]
      ring_nf
    · change Except.ok (b - 1) = _
      simp only [itself, AffineForm.value, Line.dot_cons, Line.dot_nil, id]
      ring_nf
    · change Except.ok (Double.exact 2.0 * a + Double.exact 2.0 * b - Double.exact 6.0) = _
      simp only [itself, AffineForm.value, Line.dot_cons, Line.dot_nil, Double.exact_two, hsix, id]
      ring_nf

theorem solve_of_affine_crossing :
    (((crossing.solve itself (fun _ => pure ()) (1 / 1000) 1 (.ok [1, 3])).runFrom ()).1 =
      .ok (.converged [2, 1] 1 0)) ∧
    ∀ z, crossing.IsSolvedBy itself z ↔ z = [2, 1] := by
  have hreal : ∀ v, itself.real? (itself.embed v) = some v := fun _ => rfl
  have hsolved : crossing.IsSolvedBy itself [2, 1] := by
    rw [isSolvedBy_iff hreal hasForms_crossing]
    decide +kernel
  have hnorm : 1 / 1000 ≤ Line.norm (AffineForm.values crossingForms [1, 3]) := by decide +kernel
  have hstep : AffineForm.step crossingForms [1, 3] = some [1, -2] := by decide +kernel
  have htolerance : (0 : ℚ) < 1 / 1000 := by norm_num
  have hmost : (1 : Int) ≤ 1 := Int.le_refl 1
  have hstart : ([1, 3] : List ℚ).length = crossing.names.length := rfl
  obtain ⟨-, hlarge⟩ := solve_of_affine (fun _ => gives_pure _) hreal (by decide)
    hasForms_crossing (by decide) ⟨_, hsolved⟩ htolerance hmost hstart ()
  obtain ⟨houtcome, honly⟩ := (hlarge hnorm).2 _ hstep
  have hnext : List.zipWith (· + ·) [1, 3] [1, -2] = ([2, 1] : List ℚ) := by decide +kernel
  rw [hnext] at houtcome honly
  exact ⟨houtcome, honly⟩

end Unknowns

end Reckoner
