import Reckoner.Proofs.Double.Bits
import Reckoner.Proofs.Scope.Memory

/-!
# Values in normal form

Whatever an expression comes to is a double, or a complex number whose imaginary part matters:
literals and constants are, and every operation ends in the normal form. So no value of an
expression is a whole number, and bringing a value to normal form once more changes nothing.
-/

namespace Reckoner

namespace Scalar

/-- A number in normal form. -/
def IsSettled : Scalar → Prop
  | .whole _ => False
  | .real _ => True
  | .complex z => ¬z.im.abs < negligible

/-- A number made of doubles, in normal form or not. -/
def IsFloating : Scalar → Prop
  | .whole _ => False
  | .real _ | .complex _ => True

theorem IsSettled.isFloating {a : Scalar} (h : a.IsSettled) : a.IsFloating := by
  cases a with
  | whole => exact h
  | real | complex => trivial

/-- A number that doubles can be made of. -/
def IsConvertible (a : Scalar) : Prop := ∃ z, a.toComplex = .ok z

theorem isConvertible_of_settle {a v : Scalar} (h : a.settle = .ok v) : a.IsConvertible := by
  cases a with
  | whole n =>
      rw [settle] at h
      cases hn : wholeToFloat n with
      | error fault => rw [hn] at h; cases h
      | ok x => exact ⟨.ofFloat x, by rw [toComplex, hn]; rfl⟩
  | real x => exact ⟨.ofFloat x, rfl⟩
  | complex z => exact ⟨z, rfl⟩

/-- An operation takes place among doubles if one of the numbers is made of doubles. -/
theorem isFloating_of_lift {whole : Int → Int → Except Fault Scalar}
    {real : Float → Float → Except Fault Scalar}
    {complex : Complex → Complex → Except Fault Scalar}
    (hreal : ∀ {x y v}, real x y = .ok v → v.IsFloating)
    (hcomplex : ∀ {z w v}, complex z w = .ok v → v.IsFloating) {a b v : Scalar}
    (hab : a.IsFloating ∨ b.IsFloating) (h : lift whole real complex a b = .ok v) :
    v.IsFloating := by
  cases a with
  | whole m =>
      cases b with
      | whole n => exact hab.elim False.elim False.elim
      | real y => obtain ⟨_, -, h⟩ := exists_of_bind_eq_ok h; exact hreal h
      | complex w => obtain ⟨_, -, h⟩ := exists_of_bind_eq_ok h; exact hcomplex h
  | real x =>
      cases b with
      | whole n => obtain ⟨_, -, h⟩ := exists_of_bind_eq_ok h; exact hreal h
      | real y => exact hreal h
      | complex w => obtain ⟨_, -, h⟩ := exists_of_bind_eq_ok h; exact hcomplex h
  | complex z => obtain ⟨_, -, h⟩ := exists_of_bind_eq_ok h; exact hcomplex h

theorem isFloating_of_sub {a b v : Scalar} (hab : a.IsFloating ∨ b.IsFloating)
    (h : a.sub b = .ok v) : v.IsFloating :=
  isFloating_of_lift (fun h => by cases h; trivial) (fun h => by cases h; trivial) hab h

theorem isFloating_of_mul {a b v : Scalar} (hab : a.IsFloating ∨ b.IsFloating)
    (h : a.mul b = .ok v) : v.IsFloating :=
  isFloating_of_lift (fun h => by cases h; trivial) (fun h => by cases h; trivial) hab h

theorem isFloating_of_div {a b v : Scalar} (hab : a.IsFloating ∨ b.IsFloating)
    (h : a.div b = .ok v) : v.IsFloating := by
  refine isFloating_of_lift (fun h => ?_) (fun {z w v} h => ?_) hab h
  · split at h <;> cases h
    trivial
  · cases hquotient : z.divide w with
    | error => rw [hquotient] at h; cases h
    | ok quotient => rw [hquotient] at h; cases h; trivial

theorem isSettled_settle {a v : Scalar} (h : a.settle = .ok v) : v.IsSettled := by
  cases a with
  | whole n =>
      rw [settle] at h
      cases hn : wholeToFloat n with
      | error fault => rw [hn] at h; cases h
      | ok x => rw [hn] at h; cases h; trivial
  | real x => cases h; trivial
  | complex z =>
      rw [settle] at h
      split at h
      case isTrue => cases h; trivial
      case isFalse hz => cases h; exact hz

theorem IsSettled.neg {a : Scalar} (h : a.IsSettled) : a.neg.IsSettled := by
  cases a with
  | whole => exact h.elim
  | real x => trivial
  | complex z =>
      change ¬(-z.im).abs < negligible
      rw [Double.abs_neg]
      exact h

theorem isSettled_overflowedPower {a b v : Scalar} (h : overflowedPower a b = .ok v) :
    v.IsSettled := by
  unfold overflowedPower at h
  split at h
  case h_1 n =>
      split at h
      case isTrue =>
          obtain ⟨x, -, hx⟩ := exists_of_bind_eq_ok h
          cases hx
          trivial
      case isFalse => cases h; trivial
  case h_2 => cases h; trivial

theorem isSettled_power {a b v : Scalar} (h : power a b = .ok v) : v.IsSettled := by
  unfold power at h
  split at h
  case h_1 p hp =>
      cases h
      obtain ⟨_, -, hsettle⟩ := exists_of_bind_eq_ok hp
      exact isSettled_settle hsettle
  case h_2 => cases h; trivial
  case h_3 => exact isSettled_overflowedPower h

theorem isSettled_onScalars {op : Operator} {a b v : Scalar} (h : op.onScalars a b = .ok v) :
    v.IsSettled := by
  cases op with
  | power => exact isSettled_power h
  | add | subtract | multiply | divide =>
      obtain ⟨_, -, hsettle⟩ := exists_of_bind_eq_ok h
      exact isSettled_settle hsettle

theorem isSettled_applyFunction {f : Function} {args : List Scalar} {v : Scalar}
    (h : applyFunction f args = .ok v) : v.IsSettled := by
  unfold applyFunction at h
  split at h
  case isTrue => cases h
  case isFalse =>
      obtain ⟨_, -, hsettle⟩ := exists_of_bind_eq_ok (mapError_eq_ok h)
      exact isSettled_settle hsettle

theorem isSettled_imaginary (x : Float) : (Arithmetic.imaginary x : Scalar).IsSettled := by
  change IsSettled (if x.abs < negligible then .real 0.0 else .complex ⟨0.0, x⟩)
  split
  case isTrue => trivial
  case isFalse hx => exact hx

theorem isSettled_evaluateOperator {op : String} {a b v : Scalar}
    (h : Operator.evaluate op a b = .ok v) : v.IsSettled := by
  unfold Operator.evaluate at h
  split at h
  case h_1 => exact isSettled_onScalars (mapError_eq_ok h)
  case h_2 => cases h

theorem isSettled_evaluateNamed {name : String} {args : List Scalar} {v : Scalar}
    (h : Function.evaluateNamed name args = .ok v) : v.IsSettled := by
  unfold Function.evaluateNamed at h
  split at h
  case h_1 f hf =>
      unfold Function.evaluate at h
      split at h
      case isTrue => exact isSettled_applyFunction h
      case isFalse => cases h
  case h_2 => cases h

end Scalar

namespace Expr

/-- Names with settled values give settled values. -/
theorem isSettled_outcomeWith {values : String → Except Error Scalar}
    (hvalues : ∀ {name v}, values name = .ok v → v.IsSettled) :
    ∀ {e : Expr} {v : Scalar}, e.outcomeWith values = .ok v → v.IsSettled
  | .number _, _, h => by cases h; trivial
  | .imaginary x, _, h => by cases h; exact Scalar.isSettled_imaginary x
  | .constant name, _, h => by
      rw [outcomeWith] at h
      split at h <;> cases h
      trivial
  | .var name, _, h => by
      rw [outcomeWith] at h
      split at h
      case h_1 => cases h; trivial
      case h_2 => exact hvalues h
  | .negate e, _, h => by
      rw [outcomeWith] at h
      obtain ⟨a, ha, hv⟩ := exists_of_bind_eq_ok h
      cases hv
      exact (isSettled_outcomeWith hvalues ha).neg
  | .binary op l r, _, h => by
      rw [outcomeWith] at h
      obtain ⟨_, -, h⟩ := exists_of_bind_eq_ok h
      obtain ⟨_, -, h⟩ := exists_of_bind_eq_ok h
      exact Scalar.isSettled_evaluateOperator (mapError_eq_ok h)
  | .call name args, _, h => by
      rw [outcomeWith] at h
      obtain ⟨_, -, h⟩ := exists_of_bind_eq_ok h
      exact Scalar.isSettled_evaluateNamed (mapError_eq_ok h)
  | .blank, _, h | .foreign .., _, h => by cases h

theorem isSettled_outcomesWith {values : String → Except Error Scalar}
    (hvalues : ∀ {name v}, values name = .ok v → v.IsSettled) {es : List Expr} {vs : List Scalar}
    (h : outcomesWith values es = .ok vs) : ∀ v ∈ vs, v.IsSettled := by
  induction es generalizing vs with
  | nil => cases h; exact List.forall_mem_nil _
  | cons e es ih =>
      rw [outcomesWith] at h
      obtain ⟨v, hv, h⟩ := exists_of_bind_eq_ok h
      obtain ⟨vs, hvs, h⟩ := exists_of_bind_eq_ok h
      cases h
      exact List.forall_mem_cons.mpr ⟨isSettled_outcomeWith hvalues hv, ih hvs⟩

end Expr

variable {bindings : Table (Binding Scalar)}

theorem isSettled_meaningWithin {depth : Nat} {path : List String} {name : String} {v : Scalar}
    (h : meaningWithin bindings depth path name = .ok v) : v.IsSettled := by
  induction depth generalizing path name v with
  | zero => cases h
  | succ depth ih =>
      rw [meaningWithin] at h
      split at h
      case h_1 => cases h
      case h_2 value _ => exact Scalar.isSettled_settle (mapError_eq_ok (mapError_eq_ok h))
      case h_3 binding _ _ =>
          split at h
          case isTrue => cases h
          case isFalse =>
              obtain ⟨e, -, he⟩ := exists_of_bind_eq_ok h
              exact Expr.isSettled_outcomeWith ih he

/-- The value of an expression is in normal form. -/
theorem Expr.isSettled_evaluate {e : Expr} {v : Scalar} (h : e.evaluate bindings = .ok v) :
    v.IsSettled := by
  rw [Expr.evaluate_eq_outcomeWith] at h
  exact isSettled_outcomeWith isSettled_meaningWithin h

theorem Expr.isSettled_of_forall₂ {args : List Expr} {values : List Scalar}
    (h : List.Forall₂ (fun arg value => arg.evaluate bindings = .ok value) args values) :
    ∀ value ∈ values, value.IsSettled := by
  induction h with
  | nil => exact List.forall_mem_nil _
  | cons harg _ ih => exact List.forall_mem_cons.mpr ⟨isSettled_evaluate harg, ih⟩

end Reckoner
