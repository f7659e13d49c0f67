import Reckoner.Calculation
import Reckoner.Proofs.Expr.Position
import Reckoner.Proofs.Program.Following
import Reckoner.Proofs.Scope.Failure
import Reckoner.Proofs.Trace.Reductions

/-!
# Numbers in normal form

Values are in normal form, and so are all operands and arguments on the way: numbers that refuse
operations in any other form give every expression and every program the outcome that it has with
scalars. A complex value always has an imaginary part that matters, and just these values are
refused where a real number is expected.
-/

namespace Reckoner

/-! ## Operands and arguments -/

/-- A scalar that refuses to be an operand or an argument unless it is in normal form. What has no
normal form and is negated nevertheless is spoiled. -/
inductive Checked (refusal : Cause) where
  | sound (a : Scalar)
  | spoiled

namespace Checked

variable {refusal : Cause}

/-- The scalar, if it is in normal form. -/
def normal? : Checked refusal → Option Scalar
  | sound a => if a.IsNormal then some a else none
  | spoiled => none

theorem normal?_sound {a : Scalar} (h : a.IsNormal) :
    (sound a : Checked refusal).normal? = some a := if_pos h

instance : Arithmetic (Checked refusal) where
  number x := sound (Arithmetic.number x)
  imaginary x := sound (Arithmetic.imaginary x)
  constant c := sound (Arithmetic.constant c)
  negate a :=
    match a.normal? with
    | some a => sound (Arithmetic.negate a)
    | none => spoiled
  operate op a b :=
    match a.normal?, b.normal? with
    | some a, some b => sound <$> Arithmetic.operate op a b
    | _, _ => .error refusal
  apply f args :=
    match args.mapM normal? with
    | some args => sound <$> Arithmetic.apply f args
    | none => .error refusal
  adopt
    | sound a => sound <$> Arithmetic.adopt a
    | spoiled => .error refusal

theorem mapM_normal? {args : List Scalar} (h : ∀ a ∈ args, a.IsNormal) :
    (args.map (sound : Scalar → Checked refusal)).mapM normal? = some args := by
  induction args with
  | nil => rfl
  | cons a args ih =>
      obtain ⟨ha, hargs⟩ := List.forall_mem_cons.mp h
      rw [List.map_cons, List.mapM_cons, normal?_sound ha, ih hargs]
      rfl

theorem follows_sound : Follows (sound : Scalar → Checked refusal) where
  number _ := rfl
  imaginary _ := rfl
  constant _ := rfl
  adopt _ := rfl
  negate a ha := by
    change (match (sound a : Checked refusal).normal? with
      | some a => sound (Arithmetic.negate a)
      | none => spoiled) = _
    rw [normal?_sound ha]
  operate op a b ha hb := by
    change (match (sound a : Checked refusal).normal?, (sound b : Checked refusal).normal? with
      | some a, some b => sound <$> Arithmetic.operate op a b
      | _, _ => .error refusal) = _
    rw [normal?_sound ha, normal?_sound hb]
  apply f args hargs := by
    change (match (args.map sound).mapM normal? with
      | some args => sound <$> Arithmetic.apply f args
      | none => .error refusal) = _
    rw [mapM_normal? hargs]

end Checked

/-- The operands or arguments and the result are in normal form. -/
def Reduction.IsNormal : Reduction Scalar → Prop
  | .binary _ a b v => a.IsNormal ∧ b.IsNormal ∧ v.IsNormal
  | .call _ args v => (∀ a ∈ args, a.IsNormal) ∧ v.IsNormal

theorem Reduces.isNormal {values : String → Except Error Scalar}
    (hvalues : ∀ {name v}, values name = .ok v → v.IsSettled) {e : Expr} {r : Reduction Scalar}
    (h : Reduces values e r) : r.IsNormal := by
  have hresult := (Expr.isSettled_outcomeWith hvalues h.outcome).isNormal
  cases h with
  | binary ha hb _ =>
      exact ⟨(Expr.isSettled_outcomeWith hvalues ha).isNormal,
        (Expr.isSettled_outcomeWith hvalues hb).isNormal, hresult⟩
  | call hargs _ =>
      exact ⟨fun a ha => (Expr.isSettled_outcomesWith hvalues hargs a ha).isNormal, hresult⟩

theorem Passes.isNormal {values : String → Except Error Scalar}
    (hvalues : ∀ {name v}, values name = .ok v → v.IsSettled) {nodes : List Expr}
    {reductions : List (Reduction Scalar)} {outcome : Except Error Unit}
    (h : Passes values nodes reductions outcome) : ∀ r ∈ reductions, r.IsNormal := by
  induction h with
  | nil | failure => exact List.forall_mem_nil _
  | leaf _ _ _ ih => exact ih
  | operation hreduces _ ih => exact List.forall_mem_cons.mpr ⟨hreduces.isNormal hvalues, ih⟩

/-! ## Real values -/

/-- The error is not the one about a complex value. -/
def Error.IsOther (err : Error) : Prop := ∀ shown, err.cause ≠ .complexResult shown

/-- The code belongs to this error alone. -/
theorem Cause.code?_eq_iff {cause : Cause} :
    cause.code? = some "3103" ↔ ∃ shown, cause = .complexResult shown := by
  constructor
  · intro hcode
    cases cause with
    | complexResult shown => exact ⟨shown, rfl⟩
    | _ => simp [code?] at hcode
  · rintro ⟨shown, rfl⟩
    rfl

theorem isOther_of_isSyntactic {err : Error} (h : err.cause.kind.IsSyntactic) : err.IsOther := by
  intro shown hcause
  rw [hcause] at h
  rcases h with h | h <;> cases h

theorem isOther_of_isOfEvaluation {err : Error} (h : err.IsOfEvaluation) : err.IsOther := by
  obtain ⟨cause, place, text⟩ := err
  cases h with
  | node hnode => rintro shown rfl; exact hnode
  | syntactic hkind => exact isOther_of_isSyntactic hkind
  | undefined | circular | invalid => exact nofun

namespace Calculation

theorem failsOnly_located {β : Type} {outcome : Except Error β}
    (h : FailsOnly Error.IsOther outcome) (problem : Datum) :
    FailsOnly Error.IsOther (located problem outcome) := by
  cases problem with
  | text s =>
      refine FailsOnly.mapError (h.mono fun err hother shown => ?_)
      rw [Error.cause_within]
      exact hother shown
  | _ => exact h

theorem isOther_value (problem : Datum) (known : Table Datum) :
    FailsOnly Error.IsOther (value problem known) := by
  refine failsOnly_located (FailsOnly.bind ?_ fun e _ =>
    (e.isOfEvaluation_evaluate _).mono fun _ => isOther_of_isOfEvaluation) problem
  cases problem with
  | text source =>
      exact fun err herr => isOther_of_isSyntactic (Expr.isRefusalOf_of_ofText herr).kind
  | tree e => exact failsOnly_ok e
  | _ => exact failsOnly_error nofun

theorem isNormal_value {problem : Datum} {known : Table Datum} {v : Scalar}
    (h : value problem known = .ok v) : v.IsNormal := by
  have hvalue : (Expr.ofDatum problem >>= fun e => e.evaluate (Binding.ofData known)) = .ok v := by
    cases problem with
    | text s => exact mapError_eq_ok h
    | _ => exact h
  obtain ⟨e, -, he⟩ := exists_of_bind_eq_ok hvalue
  exact (Expr.isSettled_evaluate he).isNormal

theorem code_located {β : Type} (problem : Datum) (cause : Cause) :
    ∃ err, located problem (.error (.of cause) : Except Error β) = .error err ∧
      err.cause = cause := by
  cases problem with
  | text s => exact ⟨_, rfl, Error.cause_within _ _⟩
  | _ => exact ⟨_, rfl, rfl⟩

/-- A value is refused for being complex exactly if it is. -/
theorem code_realValue_iff (problem : Datum) (known : Table Datum) :
    (∃ err, realValue problem known = .error err ∧ err.cause.code? = some "3103") ↔
      ∃ z : Complex, value problem known = .ok (.complex z) := by
  rw [realValue]
  cases hvalue : value problem known with
  | error err =>
      refine iff_of_false ?_ (by rintro ⟨z, hz⟩; cases hz)
      rintro ⟨other, hother, hcode⟩
      cases hother
      obtain ⟨shown, hcause⟩ := Cause.code?_eq_iff.mp hcode
      exact isOther_value problem known err hvalue shown hcause
  | ok v =>
      cases v with
      | whole | real =>
          refine iff_of_false ?_ (by rintro ⟨z, hz⟩; cases hz)
          rintro ⟨err, herr, -⟩
          cases herr
      | complex z =>
          refine iff_of_true ?_ ⟨z, rfl⟩
          obtain ⟨err, herr, hcause⟩ := code_located (β := Scalar) problem
            (.complexResult (Scalar.complex z).text)
          exact ⟨err, herr, Cause.code?_eq_iff.mpr ⟨_, hcause⟩⟩

end Calculation

/-! ## Values -/

/-- Whatever an expression or a program comes to is in normal form: a double, or a complex number
whose imaginary part is no number or large enough to matter. All operands and arguments on the way
are in normal form too. Numbers that refuse operations in any other form have the same outcomes,
whatever the refusal, and everything that is noted is in normal form. So exactly the values with an
imaginary part that matters are refused where a real number is expected. -/
theorem Expr.evaluate_normal :
    (∀ (bindings : Table (Binding Scalar)) (e : Expr),
      (∀ v, e.evaluate bindings = .ok v → v.IsNormal) ∧
      (∀ codegen v, Program.outcome codegen e bindings = .ok v → v.IsNormal) ∧
      (∀ refusal, e.evaluate (bindings.mapValues (.map Checked.sound)) =
        (Checked.sound : Scalar → Checked refusal) <$> e.evaluate bindings) ∧
      (∀ refusal codegen, Program.outcome codegen e (bindings.mapValues (.map Checked.sound)) =
        (Checked.sound : Scalar → Checked refusal) <$> Program.outcome codegen e bindings) ∧
      ∀ r ∈ (e.evaluateTraced bindings).2, r.IsNormal) ∧
    ∀ (problem : Datum) (known : Table Datum),
      (∃ err, Calculation.realValue problem known = .error err ∧ err.cause.code? = some "3103") ↔
        ∃ z : Complex, Calculation.value problem known = .ok (.complex z) ∧
          (z.im.isNaN = true ∨ 1e-14 ≤ z.im.abs) := by
  refine ⟨fun bindings e => ⟨fun v hv => (isSettled_evaluate hv).isNormal, fun codegen v hv => ?_,
    fun refusal => Checked.follows_sound.evaluate bindings e,
    fun refusal codegen => Checked.follows_sound.outcome codegen bindings e, ?_⟩,
    fun problem known => ?_⟩
  · rw [Program.outcome_eq] at hv
    obtain ⟨_, -, hv⟩ := exists_of_bind_eq_ok hv
    exact (isSettled_evaluate hv).isNormal
  · obtain ⟨reductions, htraced, hpasses⟩ := exists_evaluateTraced bindings e
    rw [htraced]
    exact hpasses.isNormal isSettled_meaningWithin
  · rw [Calculation.code_realValue_iff]
    constructor
    · rintro ⟨z, hz⟩
      exact ⟨z, hz, Calculation.isNormal_value hz⟩
    · rintro ⟨z, hz, -⟩
      exact ⟨z, hz⟩

end Reckoner
