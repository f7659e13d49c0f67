import Reckoner.Proofs.Solve.Exchange
import Mathlib.Data.List.Perm.Basic

/-!
# Solving over any numbers

Solving one equation, from the choice of the unknown to the answer, needs nothing of the scalars
that other numbers do not have. In exact arithmetic the sides of an equation may change places
without a change in the solution.
-/

namespace Reckoner

open Reckoner.Action

/-- An expression in place of a first estimate: what the unknown is bound to, what is said of it in
errors, and the solution if the residual is small enough there. -/
structure Opening (α β : Type) where
  binding : Binding α
  estimate : Except Error Estimate
  kind : String
  solution : String → α → Solution β

/-- The solution at the expression, if the residual is small enough there. -/
def Opening.solve {σ α β : Type} [Numeric α] (o : Opening α β) (u : Unknown α) (p : Program α) :
    Action σ (Solution β) := do
  let residual ← Action.ofExcept (p.run ((u.bindings.without [u.name]).insert u.name o.binding))
  let estimate ← Action.ofExcept o.estimate
  if !(← Action.ofFault (Numeric.isFinite residual)) then
    Action.fail (.noConvergence (.residualAt u.name estimate))
  else
    let size ← Action.ofFault (Numeric.abs residual)
    if Numeric.less size u.limits.tolerance then return o.solution u.name size
    else if u.limits.iterations ≤ 0 then Action.fail (.maxIterations estimate 0)
    else if ← Action.ofCause (u.limits.exceededBy 3) then Action.fail (.maxIterations estimate 0)
    else Action.fail (.withoutMagnitude o.kind)

/-- What solving an equation goes by if no derivative is given, and how its answers are shown. -/
structure Solver (α β : Type) where
  known : Table Datum
  bindings : Table (Binding α)
  solveFor : Datum
  codegen : Except Cause Bool
  limits : Limits α
  start : String → Except Cause α
  opening? : Option (Opening α β)
  /-- The answer to an equation without unknowns whose sides are so far apart. -/
  judge : α → Except Error (Solution β)
  present : Solution α → Solution β
  conclude : String → Ending α → Except Cause (Solution β)

namespace Solver

variable {σ α β : Type} [Numeric α]

/-- The equation in its unknown. -/
def unknown (s : Solver α β) (residual : Expr) (name : String) (codegen : Bool) : Unknown α where
  residual := residual
  name := name
  bindings := s.bindings
  codegen := codegen
  limits := s.limits
  derivative? := none
  start := s.start name

/-- The solution of an equation. -/
def solve (s : Solver α β) (observer : String → Observer σ α) (e : Equation) :
    Action σ (Solution β) := do
  match ← Action.ofExcept (Solve.unknownOf e.residual s.known s.solveFor) with
  | none =>
    let residual ← Action.ofExcept (e.residual.evaluate s.bindings)
    let size ← Action.ofFault (Numeric.abs residual)
    Action.ofExcept (s.judge size)
  | some name =>
    let codegen ← Action.ofCause s.codegen
    let u := s.unknown e.residual name codegen
    match s.opening? with
    | some opening => (·.elim s.present id) <$> u.solveOr (observer name) (opening.solve u)
    | none =>
      match ← u.solve (observer name) with
      | .inl solution => return s.present solution
      | .inr ending => Action.ofCause (s.conclude name ending)

end Solver

/-! ## Scalars -/

namespace Check

/-- The norm of one residual of a size. -/
def normOf (size : Scalar) : Except Fault Float := do
  let square ← (size.pow (.whole 2)).mapError fun _ => .squareTooLarge
  let sum ← (Scalar.whole 0).add square
  return (← sum.toComplex).re.sqrt

/-- Whether an equation holds whose sides are so far apart. -/
def judge (tolerance : Float) (size : Scalar) : Except Error (Solution Scalar) := do
  let norm ← (normOf size).mapError Fault.toError
  return ⟨[], .check, 0, .real norm, some (norm < tolerance)⟩

theorem norm_single (v : Scalar) : norm [v] = v.abs >>= normOf := by
  simp only [norm, sumOfSquares, squareSize, bind_assoc]
  rfl

theorem run_single (bindings : Table (Binding Scalar)) (residual : Expr) (tolerance : Float) :
    run bindings [residual] tolerance = (do
      let v ← residual.evaluate bindings
      let size ← v.abs.mapError Fault.toError
      judge tolerance size) := by
  rw [run, Expr.evaluateAllWith_eq_outcomesWith, Expr.outcomesWith, Expr.outcomesWith,
    ← Expr.evaluate_eq_outcomeWith]
  cases residual.evaluate bindings with
  | error err => rfl
  | ok v =>
      change (do
        let norm ← (norm [v]).mapError Fault.toError
        return _) = _
      rw [norm_single, bind_ok]
      cases v.abs <;> rfl

end Check

namespace Solve

/-- The opening that options give. -/
def openingAt (start : Datum) : Opening Scalar Datum where
  binding := start.toBinding
  estimate := Estimate.ofDatum start
  kind := start.kind
  solution name size := ⟨[(name, start)], .newton, 0, .number size, none⟩

/-- What an equation is solved by with options. -/
def solver (settings : Settings) (options : Options) (known : Table Datum) :
    Solver Scalar Datum where
  known := known
  bindings := Binding.ofData known
  solveFor := options.solveFor
  codegen := settings.codegen
  limits := {
    tolerance := .real options.tolerance
    stepTolerance := .real options.stepTolerance
    iterations := options.maxIterations
    evaluations := options.maxEvaluations }
  start := options.startValue settings
  opening? := options.opening?.map openingAt
  judge size := inData <$> Check.judge options.tolerance size
  present := inData
  conclude name := concluded name options.estimateAt

theorem solveOpened_eq {σ : Type} {u : Unknown Scalar} (h : u.derivative? = none) (start : Datum)
    (p : Program Scalar) :
    (u.solveOpened start p : Action σ (Solution Datum)) = (openingAt start).solve u p := by
  have hprogram : u.derivativeProgram = .ok none := by rw [Unknown.derivativeProgram, h]
  rw [Unknown.solveOpened, hprogram, ofExcept_ok_bind]
  rfl

/-- Without a derivative an equation is solved as over any numbers. -/
theorem parsed_eq {settings : Settings} {options : Options} (h : options.derivative = .null)
    (known : Table Datum) (e : Equation) :
    parsed settings options known e =
      (solver settings options known).solve (fun name => observer name options.estimateAt) e := by
  unfold parsed Solver.solve
  refine bind_congr fun name? => ?_
  cases name? with
  | none =>
      dsimp only
      rw [Check.run_single]
      simp only [ofExcept_bind, map_bind]
      refine bind_congr fun v => bind_congr fun size => ?_
      change inData <$> Action.ofExcept _ = Action.ofExcept (inData <$> _)
      cases Check.judge options.tolerance size <;> rfl
  | some name =>
      refine bind_congr fun codegen => ?_
      dsimp only
      rw [h]
      cases hopening : options.opening? with
      | none =>
          have hnone : (solver settings options known).opening? = none := by
            rw [solver, hopening]
            rfl
          rw [hnone]
          refine bind_congr fun answer => ?_
          cases answer <;> rfl
      | some start =>
          have hsome : (solver settings options known).opening? = some (openingAt start) := by
            rw [solver, hopening]
            rfl
          have hopened : ((solver settings options known).unknown e.residual name
                codegen).solveOpened start =
              ((openingAt start).solve ((solver settings options known).unknown e.residual name
                codegen) : Program Scalar → Solving (Solution Datum)) :=
            funext fun p => solveOpened_eq rfl start p
          rw [hsome]
          dsimp only
          rw [← hopened]
          rfl

end Solve

/-! ## Exchanged sides -/

theorem Expr.freeVariables_exchange (l r : Expr) :
    (binary "-" l r).freeVariables.Perm (binary "-" r l).freeVariables := by
  rw [List.perm_ext_iff_of_nodup (nodup_freeVariables _) (nodup_freeVariables _)]
  intro name
  rw [mem_freeVariables, mem_freeVariables, IsFree, IsFree, names, names, List.mem_append,
    List.mem_append, or_comm]

/-- The sides of an equation have the same unknown in either order. -/
theorem Solve.unknownOf_exchange {l r : Expr} {known : Table Datum} {d : Datum}
    {name? : Option String} (h : unknownOf (.binary "-" l r) known d = .ok name?) :
    unknownOf (.binary "-" r l) known d = .ok name? := by
  have hperm := Expr.freeVariables_exchange l r
  unfold unknownOf at h ⊢
  dsimp only at h ⊢
  split at h
  case h_1 =>
      have hfilter := hperm.filter (!known.holds ·)
      split at h
      case h_1 hnone =>
          rw [hnone, List.nil_perm] at hfilter
          rw [hfilter]
          exact h
      case h_2 name hsole =>
          rw [hsole, List.singleton_perm] at hfilter
          rw [← hfilter]
          exact h
      case h_3 => cases h
  case h_2 hnull =>
      cases hchecked : checked (Expr.binary "-" l r).freeVariables d with
      | error err => rw [hchecked] at h; cases h
      | ok name =>
          rw [hchecked] at h
          obtain ⟨rfl, hmem⟩ := checked_eq_ok hchecked
          have hfound : checked (Expr.binary "-" r l).freeVariables (.text name) = .ok name := by
            rw [checked, if_pos (List.contains_iff_mem.mpr (hperm.mem_iff.mp hmem))]
          rw [hfound]
          exact h

section Exchange

variable {K σ β : Type} [Field K] [Numeric K] [EvenField K] {s : Solver K β}
  {observer : String → Observer σ K} {l r : Expr} {text other : String}

theorem Opening.carries_solve (o : Opening K β) {u : Unknown K} {p q : Program K} {residual : Expr}
    (hrun : ∀ bindings y, p.run bindings = .ok y → q.run bindings = .ok (-y)) :
    Carries id (o.solve u p : Action σ (Solution β)) (o.solve (u.withResidual residual) q) := by
  unfold Opening.solve
  refine Carries.bind (carries_ofExcept (hrun _)) fun y _ => carries_same fun estimate _ => ?_
  rw [EvenField.isFinite_even, EvenField.abs_even]
  refine carries_same fun finite _ => carries_ite (fun _ => ?_) fun _ => ?_
  · exact carries_of_not_returns fun _ => not_returns_fail
  · refine carries_same fun size _ => carries_ite (fun _ => carries_pure _) fun _ => ?_
    refine carries_of_not_returns fun v hv => ?_
    split at hv
    case isTrue => exact not_returns_fail hv
    case isFalse =>
        obtain ⟨exceeded, -, hv⟩ := exists_of_returns_bind hv
        split at hv <;> exact not_returns_fail hv

omit [Field K] [EvenField K] in
theorem Opening.exists_value (o : Opening K β) {u : Unknown K} {p : Program K}
    {answer : Solution β} (hp : Program.ofExpr u.codegen u.residual = .ok p)
    (h : Returns (o.solve u p : Action σ (Solution β)) answer) :
    ∃ binding y,
      u.residual.evaluate ((u.bindings.without [u.name]).insert u.name binding) = .ok y := by
  obtain ⟨y, hy, -⟩ := exists_of_returns_bind h
  have hvalue := ok_of_returns hy
  rw [Program.run_of_ofExpr hp] at hvalue
  exact ⟨o.binding, y, hvalue⟩

/-- Exchanging the sides does not change the solution. -/
theorem Solver.carries_exchange (hobserver : ∀ name, (observer name).AcceptsAll)
    (hnumeric : AreNumeric s.bindings) :
    Carries id (s.solve observer ⟨l, r, text⟩) (s.solve observer ⟨r, l, other⟩) := by
  unfold Solver.solve
  refine (carries_ofExcept fun name? h => Solve.unknownOf_exchange h).bind fun name? _ => ?_
  cases name? with
  | none =>
      refine Carries.bind (carries_ofExcept fun v hv => Expr.evaluate_exchange hv) fun v _ => ?_
      rw [EvenField.abs_even]
      exact carries_same fun size _ => carries_ofExcept fun _ h => h
  | some name =>
      refine carries_same fun codegen _ => ?_
      dsimp only
      have hresidual : (s.unknown (Expr.binary "-" l r) name codegen).residual = .binary "-" l r :=
        rfl
      cases s.opening? with
      | some opening =>
          refine Carries.map ?_ _
          exact Unknown.carries_solveOr (hobserver name) hnumeric hresidual
            (fun p answer hp hanswer => opening.exists_value hp hanswer)
            fun p q hp hq => opening.carries_solve fun bindings y => Program.run_exchange hp hq
      | none =>
          have hcarries := Unknown.carries_solve (hobserver name) hnumeric rfl hresidual
          refine hcarries.bind fun answer _ => ?_
          cases answer with
          | inl solution => exact carries_pure _
          | inr ending => exact carries_ofCause fun _ h => h

/-- Without a derivative an equation is solved as over any numbers, and in exact arithmetic, among
known numbers, an equation that has a solution has the same one with its sides exchanged: by the
same method, with the same values, after as many iterations and with the same residual. -/
theorem Solve.solution_exchange :
    (∀ settings options known e, options.derivative = .null →
      parsed settings options known e =
        (solver settings options known).solve (fun name => Solve.observer name options.estimateAt)
          e) ∧
    ∀ (s : Solver K β) (observer : String → Observer σ K),
      (∀ name, (observer name).AcceptsAll) → AreNumeric s.bindings →
      ∀ l r text other found, Returns (s.solve observer ⟨l, r, text⟩) found →
        ∀ t, ((s.solve observer ⟨r, l, other⟩).runFrom t).1 = .ok found := by
  refine ⟨fun settings options known e h => parsed_eq h known e, ?_⟩
  intro s observer hobserver hnumeric l r text other found hfound t
  exact s.carries_exchange hobserver hnumeric found hfound t

end Exchange

/-! ## Rational numbers -/

theorem evenField_rationals {power : ℚ → ℚ → Except Cause ℚ}
    {apply : Function → List ℚ → Except Cause ℚ}
    (hpower : ∀ x y, FailsOnly (fun cause => (Error.of cause).IsFinal) (power x y))
    (happly : ∀ f xs, FailsOnly (fun cause => (Error.of cause).IsFinal) (apply f xs)) :
    @EvenField ℚ _ (rationals power apply).toNumeric :=
  let _ : ExactNumeric ℚ := rationals power apply
  { ExactNumeric.toExactField ℚ with
    operate_divide_zero := fun _ => ⟨_, if_pos rfl⟩
    div_by_zero := fun _ => ⟨_, if_pos rfl⟩
    abs_even := fun x => congrArg Except.ok (abs_neg x)
    isFinite_even := fun _ => rfl
    operate_final := fun op x y => by
      cases op with
      | add | subtract | multiply => exact failsOnly_ok _
      | divide =>
          change FailsOnly _
            (if y = 0 then .error (Cause.arithmetic .divisionByZero) else .ok (x / y))
          exact failsOnly_unless fun _ h => by cases h
      | power => exact hpower x y
    apply_final := happly }

/-- No powers. -/
private def withoutPowers (_ _ : ℚ) : Except Cause ℚ := .error (.missingName "^")

/-- No functions. -/
private def withoutFunctions (f : Function) (_ : List ℚ) : Except Cause ℚ :=
  .error (.unknownFunction f.name)

/-- Rational numbers without powers and functions. -/
local instance : ExactNumeric ℚ := rationals withoutPowers withoutFunctions

local instance : EvenField ℚ := evenField_rationals
  (fun _ _ => failsOnly_error fun _ h => by cases h)
  (fun _ _ => failsOnly_error fun _ h => by cases h)

/-- Takes notice of nothing. -/
private def unheeding : Observer Unit ℚ where
  form _ := pure ()
  rejected _ := pure ()
  root _ _ := pure ()
  step _ := pure ()

/-- From the estimate three on, where two is known by a name. -/
private def fromThree : Solver ℚ ℚ where
  known := [("k", .number (.real 2.0))]
  bindings := [("k", .number 2)]
  solveFor := .null
  codegen := .ok true
  limits := ⟨1 / 10, 1 / 1000, 50, .null⟩
  start _ := .ok 3
  opening? := none
  judge size := .ok ⟨[], .check, 0, size, some (decide (size < 1 / 10))⟩
  present s := s
  conclude name
    | .converged x steps size => .ok ⟨[(name, x)], .newton, steps, size, none⟩
    | _ => .error .noSolution

/-- The square of `x`. -/
private def squared : Expr := .binary "*" (.var "x") (.var "x")

/-- What is `k` more than `x`. -/
private def shifted : Expr := .binary "+" (.var "x") (.var "k")

/-- Options without a derivative. -/
private def underived : Options := ⟨.null, .null, 1e-9, 50, 1e-9, .null, .null⟩

theorem Solve.solution_exchange_quadratic :
    (∀ known e, parsed (.ok Settings.defaults) underived known e =
      (solver (.ok Settings.defaults) underived known).solve
        (fun name => observer name underived.estimateAt) e) ∧
    ∀ t, ((fromThree.solve (fun _ => unheeding) ⟨shifted, squared, "x + k = x * x"⟩).runFrom t).1 =
      .ok ⟨[("x", 171 / 85)], .newton, 2, 256 / 7225, none⟩ := by
  have hunheeding : unheeding.AcceptsAll :=
    ⟨⟨fun _ => gives_pure _, fun _ _ => gives_pure _⟩, fun _ => gives_pure _, fun _ => gives_pure _⟩
  have hnumeric : AreNumeric fromThree.bindings := by
    intro name binding hfind
    have hmem := Table.mem_of_find? hfind
    simp only [fromThree, List.mem_singleton, Prod.mk.injEq] at hmem
    exact ⟨2, hmem.2⟩
  have hsolved :
      (((fromThree.solve (fun _ => unheeding) ⟨squared, shifted, "x * x = x + k"⟩).runFrom
        ()).1.toOption.map fun s => (s.values, s.method, s.iterations, s.residual, s.satisfied)) =
      some ([("x", 171 / 85)], .newton, 2, 256 / 7225, none) := by decide +kernel
  obtain ⟨found, hfound, hparts⟩ := Option.map_eq_some_iff.mp hsolved
  obtain ⟨values, method, iterations, residual, satisfied⟩ := found
  simp only [Prod.mk.injEq] at hparts
  obtain ⟨rfl, rfl, rfl, rfl, rfl⟩ := hparts
  have hexchange := solution_exchange (K := ℚ) (σ := Unit) (β := ℚ)
  refine ⟨fun known e => hexchange.1 (.ok Settings.defaults) underived known e rfl, ?_⟩
  exact hexchange.2 fromThree (fun _ => unheeding) (fun _ => hunheeding) hnumeric squared shifted
    _ _ _ ⟨(), eq_ok_of_toOption hfound⟩

end Reckoner
