import Reckoner.Proofs.Solve.Position

/-!
# Where the unknown is not bound

While an equation is solved, its residual and a derivative are evaluated at values of the unknown.
The linear form alone is collected without one: parts in which the unknown does not occur are
evaluated among the known values, and these may refer to the unknown. So the unknown is called
undefined exactly if collecting the linear form comes to it, and only by way of a known value.
-/

namespace Reckoner

open Reckoner.Action

/-! ## Derivatives -/

namespace Expr

theorem isBound_misfit (why : Misfit) : (Error.of why.cause).IsBound := by
  cases why <;> exact fun _ h => by cases h

theorem isBound_misplaced (stack : List Frame) (token : Token) (position : Int) :
    (Error.located (misplaced stack token) position).IsBound := by
  unfold misplaced
  split <;> exact fun _ h => by cases h

/-- By induction on the tokens. -/
theorem isBound_readFrom (stop : Int) (stack : List Frame) (operand : Option Expr)
    (tokens : List Token) : FailsOnly Error.IsBound (readFrom stop stack operand tokens) := by
  fun_induction readFrom stop stack operand tokens
  all_goals first
    | assumption
    | exact failsOnly_ok _
    | exact failsOnly_error (isBound_misfit _)
    | exact failsOnly_error (isBound_misplaced _ _ _)
    | exact failsOnly_error fun _ h => by cases h

theorem isBound_ofText (source : String) : FailsOnly Error.IsBound (ofText source) := by
  intro err herr name hcause
  have hkind := (isRefusalOf_of_ofText herr).kind
  rw [hcause] at hkind
  rcases hkind with hkind | hkind <;> cases hkind

end Expr

theorem Program.isBound_source (d : Datum) : FailsOnly Error.IsBound (source d) := by
  cases d with
  | text s => exact Expr.isBound_ofText s
  | tokens ts => exact Expr.isBound_readFrom _ _ _ ts
  | list items =>
      cases items with
      | nil => exact Expr.isBound_readFrom _ [] none []
      | cons => exact failsOnly_ok _
  | _ => exact failsOnly_ok _

theorem Solve.isBound_derivative {d : Datum} {e : Except Error Expr}
    (h : derivative? d = some e) : FailsOnly Error.IsBound e := by
  unfold derivative? at h
  split at h
  case h_1 => cases h
  case h_2 => cases h; exact Program.isBound_source d

/-! ## First estimates -/

namespace Options

variable {settings : Settings} {stored : Table Datum}

/-- The cause is not about an undefined variable. -/
abbrev IsBoundCause (cause : Cause) : Prop := (Error.of cause).IsBound

theorem isBound_toFloat (d : Datum) : FailsOnly IsBoundCause d.toFloat := by
  unfold Datum.toFloat
  split
  case h_1 =>
      split
      case h_1 => exact failsOnly_ok _
      case h_2 => exact failsOnly_error fun _ h => by cases h
  case h_2 =>
      split
      case h_1 => exact Scalar.failsOnly_faulty (fun _ _ h => by cases h) _
      case h_2 => exact failsOnly_error fun _ h => by cases h

theorem isBound_inOrder (names : List String) {items : List (Except Cause Float)}
    (h : ∀ item ∈ items, FailsOnly IsBoundCause item) :
    FailsOnly IsBoundCause
      (if items.length = names.length then
        items.mapM fun item => do return Datum.number (.real (← item))
      else .error (.guessCount names.length items.length)) := by
  split
  case isTrue =>
      exact failsOnly_mapM fun item hitem => (h item hitem).bind fun _ _ => failsOnly_pure _
  case isFalse => exact failsOnly_error fun _ h => by cases h

theorem isBound_startValues (options : Options) (names : List String) :
    FailsOnly IsBoundCause (options.startValues (.ok stored) names) := by
  unfold startValues
  split
  case h_1 entries =>
      refine (failsOnly_ok _).bind fun standard _ => (isBound_toFloat _).bind fun x _ => ?_
      refine failsOnly_mapM fun name _ => ?_
      split
      case h_1 d _ =>
          rw [map_eq_pure_bind]
          refine FailsOnly.bind ?_ fun _ _ => failsOnly_pure _
          rw [map_eq_pure_bind]
          exact (isBound_toFloat d).bind fun _ _ => failsOnly_pure _
      case h_2 => exact failsOnly_pure _
  case h_2 items =>
      refine isBound_inOrder names fun item hitem => ?_
      obtain ⟨d, -, rfl⟩ := List.mem_map.mp hitem
      exact isBound_toFloat d
  case h_3 tokens =>
      refine isBound_inOrder names fun item hitem => ?_
      obtain ⟨t, -, rfl⟩ := List.mem_map.mp hitem
      exact failsOnly_error fun _ h => by cases h
  case h_4 => exact failsOnly_ok _

theorem isBound_startValue (options : Options) (name : String) :
    FailsOnly IsBoundCause (options.startValue (.ok stored) name) := by
  unfold startValue
  refine (isBound_startValues options [name]).bind fun values _ => ?_
  split
  case h_1 =>
      split
      case h_1 => exact failsOnly_pure _
      case h_2 => exact failsOnly_error fun _ h => by cases h
  case h_2 => exact failsOnly_error fun _ h => by cases h

/-- Options are only made of settings that there are. -/
theorem exists_of_build {given overrides : Table Datum} {options : Options}
    (h : build settings given overrides = .ok options) : ∃ stored, settings = .ok stored := by
  obtain ⟨_, -, h⟩ := exists_of_bind_eq_ok h
  obtain ⟨_, htolerance, -⟩ := exists_of_bind_eq_ok h
  obtain ⟨stored, hstored, -⟩ := exists_of_bind_eq_ok htolerance
  exact ⟨stored, hstored⟩

end Options

/-! ## Errors before Newton's iteration -/

namespace Unknown

variable {σ β : Type} {u : Unknown Scalar} {observer : Observer σ Scalar}
  {other : Program Scalar → Action σ β} {err : Error}

theorem solveOr_of_program
    (h : (Program.ofExpr u.codegen u.residual : Except Error (Program Scalar)) = .error err) :
    u.solveOr observer other = Action.ofExcept (.error err) := by
  rw [solveOr, h]
  rfl

/-- Only where the linear form is refused as such, another way is tried. -/
theorem orElseNonlinear_of_error {γ : Type} {other : String → Action σ γ}
    (h : ∀ why, err.cause ≠ .nonlinear why) :
    orElseNonlinear (Action.ofExcept (.error err)) other = Action.ofExcept (.error err) := by
  unfold orElseNonlinear
  rw [Action.tryCatch_ofExcept_error]
  split
  case h_1 why hwhy => exact absurd hwhy (h why)
  case h_2 => rfl

theorem solveOr_of_collect {code : Program Scalar}
    (hcode : Program.ofExpr u.codegen u.residual = .ok code)
    (h : u.residual.collect (u.bindings.without [u.name]) u.name = .error err)
    (hcause : ∀ why, err.cause ≠ .nonlinear why) :
    u.solveOr observer other = Action.ofExcept (.error err) := by
  have hlinear : u.solveLinear observer (u.function code) = Action.ofExcept (.error err) := by
    rw [solveLinear, h]
    rfl
  have hsolved : u.solveOr observer other =
      orElseNonlinear (Sum.inl <$> u.solveLinear observer (u.function code)) (fun message => do
        observer.rejected message
        Sum.inr <$> other code) := by
    rw [solveOr, hcode]
    rfl
  rw [hsolved, hlinear]
  exact orElseNonlinear_of_error hcause

end Unknown

namespace Solve

variable {settings : Settings} {options : Options} {known given overrides : Table Datum}
  {d : Datum} {e : Equation} {name : String} {codegen : Bool} {err : Error}

theorem parsed_of_solveOr
    (hname : unknownOf e.residual known options.solveFor = .ok (some name))
    (hcodegen : settings.codegen = .ok codegen)
    (h : ∀ {β : Type} (other : Program Scalar → Solving β),
      (unknown settings options known e name codegen).solveOr (observer name options.estimateAt)
        other = Action.ofExcept (.error err)) :
    parsed settings options known e = Action.ofExcept (.error err) := by
  unfold unknown at h
  unfold parsed
  rw [hname, hcodegen, Action.ofExcept_ok_bind]
  dsimp only
  rw [Action.ofCause_ok_bind]
  split
  case h_1 start _ => rw [h]; rfl
  case h_2 => rw [Unknown.solve, h]; rfl

/-- What is evaluated without a value for the unknown: the linear form is collected among the known
values alone. -/
def collected (known : Table Datum) (e : Equation) (name : String) :
    Except Error (LinearForm Scalar) :=
  e.residual.collect ((Binding.ofData known).without [name]) name

/-- The outcome is an error about the variable being undefined. -/
def CallsUndefined {β : Type} (name : String) (outcome : Except Error β) : Prop :=
  ∃ err, outcome = .error err ∧ err.cause = .undefinedVariable name

theorem callsUndefined_equation_iff
    (hoptions : Options.build settings given overrides = .ok options)
    (he : Equation.ofDatum d = .ok e) (events : List SolveEvent) :
    CallsUndefined name ((equation settings d known given overrides).runFrom events).1 ↔
      CallsUndefined name ((parsed settings options known e).runFrom events).1 := by
  have hparsed : (do parsed settings options known (← Action.ofExcept (Equation.ofDatum d))) =
      parsed settings options known e := by
    rw [he]
    rfl
  have hequation : equation settings d known given overrides =
      equationWith settings options known d := by
    rw [equation, hoptions]
    rfl
  rw [hequation, equationWith, hparsed]
  split
  case h_2 => rfl
  case h_1 text _ =>
      change CallsUndefined name
        (((parsed settings options known e).runFrom events).1.mapError (·.within text)) ↔ _
      cases ((parsed settings options known e).runFrom events).1 with
      | ok s =>
          constructor
          · rintro ⟨_, ⟨⟩, -⟩
          · rintro ⟨_, ⟨⟩, -⟩
      | error err =>
          constructor
          · rintro ⟨_, ⟨⟩, hcause⟩
            exact ⟨err, rfl, (err.cause_within text).symm.trans hcause⟩
          · rintro ⟨_, ⟨⟩, hcause⟩
            exact ⟨_, rfl, (err.cause_within text).trans hcause⟩

/-- The error is one of the linear form's if it is about the unknown being undefined. -/
def IsOfForm (known : Table Datum) (e : Equation) (name : String) (err : Error) : Prop :=
  err.cause = .undefinedVariable name → collected known e name = .error err

theorem hasOwn_isOfForm : HasOwn (IsOfForm known e name) :=
  fun _ hbound hcause => absurd hcause (hbound name)

theorem isOfForm_of_isBound {err : Error} (h : err.IsBound) : IsOfForm known e name err :=
  fun hcause => absurd hcause (h name)

/-- The equation, the derivative and an expression in place of a first estimate are evaluated where
the unknown is bound. -/
theorem partsFailOnly_isOfForm (hoptions : Options.build settings given overrides = .ok options)
    (hname : unknownOf e.residual known options.solveFor = .ok (some name)) :
    PartsFailOnly (IsOfForm known e name) settings options known e := by
  obtain ⟨stored, rfl⟩ := Options.exists_of_build hoptions
  have hbound {bindings : Table (Binding Scalar)} {binding : Binding Scalar}
      (h : (bindings.insert name binding).find? name = some binding) (e' : Expr) :
      FailsOnly (IsOfForm known e name) (e'.evaluate (bindings.insert name binding)) :=
    (e'.failsOnly_evaluate_of_bound h).mono fun _ hcause hmissing => absurd hmissing hcause
  exact {
    name := by
      rw [hname]
      exact failsOnly_ok _
    check := fun hnone => by rw [hname] at hnone; cases hnone
    codegen := failsOnly_ok _
    parts := fun {found} hfound codegen => by
      obtain rfl : name = found := by rw [hname] at hfound; cases hfound; rfl
      exact {
        program := hasOwn_isOfForm.failsOnly_ofExpr _ _
        form := fun err herr _ => herr
        value := fun e' x => hbound (by rw [Table.find?_insert, if_pos rfl]) e'
        derivative := Unknown.failsOnly_derivativeProgram hasOwn_isOfForm
          fun _ hsource => (isBound_derivative hsource).mono fun _ h => isOfForm_of_isBound h
        start := (options.isBound_startValue name).mono fun _ h => isOfForm_of_isBound h }
    opening := fun {found} hfound codegen => by
      obtain rfl : name = found := by rw [hname] at hfound; cases hfound; rfl
      exact {
        value := fun e' => hbound (by rw [Table.find?_insert, if_pos rfl]) e'
        estimate := hasOwn_isOfForm.failsOnly_estimate _ } }

/-- The other names in the equation come to the unknown only by way of known values. -/
theorem exists_needs_of_collected (h : CallsUndefined name (collected known e name)) :
    ∃ other, other ≠ name ∧ e.residual.IsFree other ∧
      Relation.ReflTransGen (Needs ((Binding.ofData known).without [name])) other name := by
  by_contra hnone
  have hown : HasOwn fun err => err.cause ≠ .undefinedVariable name := fun _ hbound => hbound name
  obtain ⟨err, herr, hcause⟩ := h
  refine Expr.failsOnly_collect hown (fun other hmem hfree hne => ?_) err herr hcause
  refine (misses_meaning other).mono fun err hmisses hcause => hnone ?_
  exact ⟨other, hne, ⟨hmem, hfree⟩, (hmisses name hcause).2⟩

/-- If an equation is solved for a variable, then the error is that the variable is undefined
exactly if the equation has a program and its linear form cannot be collected for this reason. Then
another variable in the equation is bound to what needs the unknown. -/
theorem callsUndefined_iff (hoptions : Options.build settings given overrides = .ok options)
    (he : Equation.ofDatum d = .ok e)
    (hname : unknownOf e.residual known options.solveFor = .ok (some name))
    (events : List SolveEvent) :
    (CallsUndefined name ((equation settings d known given overrides).runFrom events).1 ↔
      (∃ codegen code, settings.codegen = .ok codegen ∧
        Program.ofExpr codegen e.residual = .ok (code : Program Scalar)) ∧
      CallsUndefined name (collected known e name)) ∧
    (CallsUndefined name (collected known e name) →
      ∃ other, other ≠ name ∧ e.residual.IsFree other ∧
        Relation.ReflTransGen (Needs ((Binding.ofData known).without [name])) other name) := by
  refine ⟨?_, exists_needs_of_collected⟩
  rw [callsUndefined_equation_iff hoptions he events]
  obtain ⟨stored, rfl⟩ := Options.exists_of_build hoptions
  obtain ⟨codegen, hcodegen⟩ : ∃ codegen, Settings.codegen (.ok stored) = .ok codegen := ⟨_, rfl⟩
  constructor
  · rintro ⟨err, herr, hcause⟩
    have hparts : PartsFailOnly (IsOfForm known e name) _ _ known e :=
      partsFailOnly_isOfForm hoptions hname
    have hform := (errs_parsed hasOwn_isOfForm hparts events trivial).2.failsOnly err herr hcause
    refine ⟨⟨codegen, ?_⟩, err, hform, hcause⟩
    cases hcode : (Program.ofExpr codegen e.residual : Except Error (Program Scalar)) with
    | ok code => exact ⟨code, hcodegen, rfl⟩
    | error found =>
        rw [parsed_of_solveOr hname hcodegen fun _ => Unknown.solveOr_of_program hcode] at herr
        cases herr
        have hbound : HasOwn Error.IsBound := fun _ h => h
        exact absurd hcause (hbound.failsOnly_ofExpr codegen e.residual err hcode name)
  · rintro ⟨⟨found, code, hfound, hcode⟩, err, herr, hcause⟩
    have hunknown (why : Nonlinearity) : err.cause ≠ .nonlinear why := by
      rw [hcause]
      exact fun h => by cases h
    rw [parsed_of_solveOr hname hfound fun _ => Unknown.solveOr_of_collect hcode herr hunknown]
    exact ⟨err, rfl, hcause⟩

/-- `x + y = 3`, where `y` is bound to an expression in `x`. -/
private def hidden : Equation :=
  ⟨.binary "+" (.var "x") (.var "y"), .number 3.0, "x + y = 3"⟩

private def referring : Table Datum := [("y", .text "x + 1")]

private theorem callsUndefined_collected :
    CallsUndefined "x" (collected referring hidden "x") := by
  have hmissing : (match collected referring hidden "x" with
      | .error err =>
        match err.cause with
        | .undefinedVariable missing => some missing
        | _ => none
      | .ok _ => none) = some "x" := by decide +kernel
  split at hmissing
  case h_2 => cases hmissing
  case h_1 err herr =>
      split at hmissing
      case h_2 => cases hmissing
      case h_1 missing hcause =>
          cases hmissing
          exact ⟨err, herr, hcause⟩

theorem callsUndefined_iff_hidden :
    CallsUndefined "x"
      ((equation (.ok Settings.defaults) (.equation hidden) referring [] []).runFrom []).1 ∧
    ∃ other, other ≠ "x" ∧ hidden.residual.IsFree other ∧
      Relation.ReflTransGen (Needs ((Binding.ofData referring).without ["x"])) other "x" := by
  have hunknown : ((Options.build (.ok Settings.defaults) [] []).toOption.bind fun options =>
      (unknownOf hidden.residual referring options.solveFor).toOption) = some (some "x") := by
    decide +kernel
  have hprogram : (Program.ofExpr true hidden.residual :
      Except Error (Program Scalar)).toOption.isSome = true := by decide +kernel
  obtain ⟨options, hoptions, hname⟩ := Option.bind_eq_some_iff.mp hunknown
  obtain ⟨code, hcode⟩ := Option.isSome_iff_exists.mp hprogram
  have hequation : Equation.ofDatum (.equation hidden) = .ok hidden := rfl
  obtain ⟨hiff, hneeds⟩ := callsUndefined_iff (eq_ok_of_toOption hoptions) hequation
    (eq_ok_of_toOption hname) []
  have hprogram := eq_ok_of_toOption hcode
  exact ⟨hiff.mpr ⟨⟨true, code, rfl, hprogram⟩, callsUndefined_collected⟩,
    hneeds callsUndefined_collected⟩

end Solve

end Reckoner
