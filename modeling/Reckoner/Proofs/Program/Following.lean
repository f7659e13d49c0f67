import Reckoner.Proofs.Double.Magnitude
import Reckoner.Proofs.Program.Compilation
import Reckoner.Proofs.Scalar.Settled

/-!
# Numbers that stand for scalars

Evaluation applies operations to numbers in normal form only, since operands and arguments are
values of expressions themselves. So it makes no difference what becomes of operations on other
numbers, on whole numbers or on complex ones with a negligible imaginary part: with numbers that
follow scalars as long as these are in normal form, every expression and every program has the
outcome that it has with scalars.
-/

namespace Reckoner

namespace Scalar

/-- A double, or a complex number whose imaginary part is no number or at least as large as those
that matter. -/
def IsNormal : Scalar → Prop
  | whole _ => False
  | real _ => True
  | complex z => z.im.isNaN = true ∨ negligible ≤ z.im.abs

instance : DecidablePred IsNormal
  | whole _ => inferInstanceAs (Decidable False)
  | real _ => inferInstanceAs (Decidable True)
  | complex z => inferInstanceAs (Decidable (z.im.isNaN = true ∨ negligible ≤ z.im.abs))

theorem isNaN_abs (x : Float) : x.abs.isNaN = x.isNaN := by
  change x.abs.toModel.unpack.isNaN = x.toModel.unpack.isNaN
  rw [Double.unpack_abs]
  cases x.toModel.unpack <;> rfl

theorem IsSettled.isNormal {a : Scalar} (h : a.IsSettled) : a.IsNormal := by
  cases a with
  | whole => exact h
  | real => trivial
  | complex z =>
      cases hnan : z.im.isNaN with
      | true => exact .inl hnan
      | false =>
          have habs : z.im.abs.isNaN = false := (isNaN_abs z.im).trans hnan
          exact .inr (Double.le_of_not_lt habs rfl h)

end Scalar

/-! ## Failures -/

/-- Both come to an answer, or to the same error. -/
def SameFailure {ε β γ : Type} (x : Except ε β) (y : Except ε γ) : Prop :=
  (fun _ => ()) <$> x = (fun _ => ()) <$> y

section SameFailure

variable {ε β γ β' γ' : Type} {x : Except ε β} {y : Except ε γ}

theorem SameFailure.bind {f : β → Except ε β'} {g : γ → Except ε γ'} (h : SameFailure x y)
    (hf : ∀ b c, SameFailure (f b) (g c)) : SameFailure (x >>= f) (y >>= g) := by
  cases x with
  | error err =>
      cases y with
      | error other => cases h; rfl
      | ok c => cases h
  | ok b =>
      cases y with
      | error other => cases h
      | ok c => exact hf b c

end SameFailure

/-! ## Expressions -/

/-- What the same variable is bound to among other numbers. -/
def Binding.map {α β : Type} (f : α → β) : Binding α → Binding β
  | number value => .number (f value)
  | text source => .text source
  | tree e => .tree e
  | other shown => .other shown

/-- The numbers stand for scalars, and operations on them do with scalars in normal form what they
do with these themselves. -/
structure Follows {β : Type} [Arithmetic β] (f : Scalar → β) : Prop where
  number : ∀ x, Arithmetic.number x = f (Arithmetic.number x)
  imaginary : ∀ x, Arithmetic.imaginary x = f (Arithmetic.imaginary x)
  constant : ∀ c, Arithmetic.constant c = f (Arithmetic.constant c)
  adopt : ∀ a, Arithmetic.adopt (f a) = f <$> Arithmetic.adopt a
  negate : ∀ a : Scalar, a.IsNormal → Arithmetic.negate (f a) = f (Arithmetic.negate a)
  operate : ∀ op (a b : Scalar), a.IsNormal → b.IsNormal →
    Arithmetic.operate op (f a) (f b) = f <$> Arithmetic.operate op a b
  apply : ∀ g (args : List Scalar), (∀ a ∈ args, a.IsNormal) →
    Arithmetic.apply g (args.map f) = f <$> Arithmetic.apply g args

namespace Follows

variable {β : Type} [Arithmetic β] {f : Scalar → β}

theorem evaluateOperator (h : Follows f) (op : String) {a b : Scalar} (ha : a.IsNormal)
    (hb : b.IsNormal) :
    Operator.evaluate op (f a) (f b) = f <$> Operator.evaluate op a b := by
  unfold Operator.evaluate
  split
  case h_1 => exact h.operate _ a b ha hb
  case h_2 => rfl

theorem evaluateNamed (h : Follows f) (name : String) {args : List Scalar}
    (hargs : ∀ a ∈ args, a.IsNormal) :
    Function.evaluateNamed name (args.map f) = f <$> Function.evaluateNamed name args := by
  unfold Function.evaluateNamed Function.evaluate
  rw [List.length_map]
  split
  case h_1 g _ =>
      split
      case isTrue => exact h.apply g args hargs
      case isFalse => rfl
  case h_2 => rfl

omit [Arithmetic β] in
theorem mapError_map (outcome : Except Cause Scalar) :
    (f <$> outcome).mapError Error.of = f <$> outcome.mapError Error.of := by
  cases outcome <;> rfl

section Outcome

variable {values : String → Except Error Scalar}

mutual

/-- By induction on the tree: the numbers that an operation is applied to are in normal form. -/
theorem outcomeWith (h : Follows f) (hvalues : ∀ {name v}, values name = .ok v → v.IsSettled) :
    ∀ e : Expr,
    e.outcomeWith (fun name => f <$> values name) = f <$> e.outcomeWith values
  | .number x => congrArg Except.ok (h.number x)
  | .imaginary x => congrArg Except.ok (h.imaginary x)
  | .constant name => by
      rw [Expr.outcomeWith, Expr.outcomeWith]
      split
      case h_1 c _ => exact congrArg Except.ok (h.constant c)
      case h_2 => rfl
  | .var name => by
      rw [Expr.outcomeWith, Expr.outcomeWith]
      split
      case h_1 c _ => exact congrArg Except.ok (h.constant c)
      case h_2 => rfl
  | .negate e => by
      rw [Expr.outcomeWith, Expr.outcomeWith, outcomeWith h hvalues e]
      cases he : e.outcomeWith values with
      | error err => rfl
      | ok a =>
          have ha : a.IsNormal := (Expr.isSettled_outcomeWith hvalues he).isNormal
          exact congrArg Except.ok (h.negate a ha)
  | .binary op l r => by
      rw [Expr.outcomeWith, Expr.outcomeWith, outcomeWith h hvalues l, outcomeWith h hvalues r]
      cases hl : l.outcomeWith values with
      | error err => rfl
      | ok a =>
          cases hr : r.outcomeWith values with
          | error err => rfl
          | ok b =>
              have ha : a.IsNormal := (Expr.isSettled_outcomeWith hvalues hl).isNormal
              have hb : b.IsNormal := (Expr.isSettled_outcomeWith hvalues hr).isNormal
              change (Operator.evaluate op (f a) (f b)).mapError Error.of =
                f <$> (Operator.evaluate op a b).mapError Error.of
              rw [h.evaluateOperator op ha hb, mapError_map]
  | .call name args => by
      rw [Expr.outcomeWith, Expr.outcomeWith, outcomesWith h hvalues args]
      cases hargs : Expr.outcomesWith values args with
      | error err => rfl
      | ok vs =>
          have hvs : ∀ a ∈ vs, a.IsNormal := fun a ha =>
            (Expr.isSettled_outcomesWith hvalues hargs a ha).isNormal
          change (Function.evaluateNamed name (vs.map f)).mapError Error.of =
            f <$> (Function.evaluateNamed name vs).mapError Error.of
          rw [h.evaluateNamed name hvs, mapError_map]
  | .blank | .foreign .. => rfl

theorem outcomesWith (h : Follows f) (hvalues : ∀ {name v}, values name = .ok v → v.IsSettled) :
    ∀ es : List Expr,
    Expr.outcomesWith (fun name => f <$> values name) es =
      List.map f <$> Expr.outcomesWith values es
  | [] => rfl
  | e :: rest => by
      rw [Expr.outcomesWith, Expr.outcomesWith, outcomeWith h hvalues e,
        outcomesWith h hvalues rest]
      cases e.outcomeWith values with
      | error err => rfl
      | ok v => cases Expr.outcomesWith values rest <;> rfl

end

end Outcome

omit [Arithmetic β] in
theorem expression_map (binding : Binding Scalar) (name : String) :
    (binding.map f).expression name = binding.expression name := by
  cases binding <;> rfl

theorem meaningWithin (h : Follows f) (bindings : Table (Binding Scalar)) (depth : Nat)
    (path : List String) (name : String) :
    Reckoner.meaningWithin (bindings.mapValues (.map f)) depth path name =
      f <$> Reckoner.meaningWithin bindings depth path name := by
  induction depth generalizing path name with
  | zero => rfl
  | succ depth ih =>
      have hfind := Table.find?_mapValues (Binding.map f) bindings name
      cases hbinding : bindings.find? name with
      | none =>
          rw [hbinding] at hfind
          rw [meaningWithin_none hbinding, meaningWithin_none hfind]
          rfl
      | some binding =>
          rw [hbinding] at hfind
          cases binding with
          | number value =>
              rw [meaningWithin_number hbinding, meaningWithin_number hfind, h.adopt, mapError_map]
          | text | tree | other =>
              rw [meaningWithin_expression hbinding trivial, meaningWithin_expression hfind trivial,
                expression_map]
              split
              case isTrue => rfl
              case isFalse =>
                  have hnames : Reckoner.meaningWithin (bindings.mapValues (.map f)) depth
                      (name :: path) = fun next =>
                        f <$> Reckoner.meaningWithin bindings depth (name :: path) next :=
                    funext fun next => ih (name :: path) next
                  rw [hnames]
                  cases Binding.expression name _ with
                  | error err => rfl
                  | ok e => exact h.outcomeWith isSettled_meaningWithin e

theorem evaluate (h : Follows f) (bindings : Table (Binding Scalar)) (e : Expr) :
    e.evaluate (bindings.mapValues (.map f)) = f <$> e.evaluate bindings := by
  have hnames : meaning (bindings.mapValues (.map f)) =
      fun name => f <$> meaning bindings name := by
    funext name
    have hlength : (bindings.mapValues (Binding.map f)).length = bindings.length :=
      List.length_map _
    rw [meaning, hlength]
    exact h.meaningWithin bindings _ _ name
  rw [Expr.evaluate_eq_outcomeWith, Expr.evaluate_eq_outcomeWith, hnames]
  exact h.outcomeWith isSettled_meaningWithin e

/-! ## Programs -/

theorem folding (h : Follows f) (e : Expr) {parts : Unit → Except Error (Code β)}
    {others : Unit → Except Error (Code Scalar)} (hparts : SameFailure (parts ()) (others ())) :
    SameFailure (Code.folding e parts) (Code.folding e others) := by
  have hvalue : e.evaluate ([] : Table (Binding β)) = f <$> e.evaluate [] := h.evaluate [] e
  unfold Code.folding
  rw [hvalue]
  split
  case isFalse => exact hparts
  case isTrue =>
      cases e.evaluate ([] : Table (Binding Scalar)) with
      | ok v => rfl
      | error err =>
          change SameFailure (if err.cause.kind.isEvaluation then parts () else .error err)
            (if err.cause.kind.isEvaluation then others () else .error err)
          split
          case isTrue => exact hparts
          case isFalse => rfl

mutual

theorem ofExpr (h : Follows f) : ∀ e : Expr, SameFailure (Code.ofExpr e : Except Error (Code β))
    (Code.ofExpr e : Except Error (Code Scalar))
  | .number _ | .imaginary _ | .blank | .foreign .. => rfl
  | .constant name => by
      rw [Code.ofExpr, Code.ofExpr]
      split <;> rfl
  | .var name => by
      rw [Code.ofExpr, Code.ofExpr]
      split <;> rfl
  | .negate e => by
      rw [Code.ofExpr, Code.ofExpr]
      exact h.folding _ ((ofExpr h e).bind fun _ _ => rfl)
  | .binary op l r => by
      rw [Code.ofExpr, Code.ofExpr]
      refine h.folding _ ?_
      cases Operator.ofSymbol? op with
      | none => rfl
      | some known => exact (ofExpr h l).bind fun _ _ => (ofExpr h r).bind fun _ _ => rfl
  | .call name args => by
      rw [Code.ofExpr, Code.ofExpr]
      exact h.folding _ ((ofAll h args).bind fun _ _ => rfl)

theorem ofAll (h : Follows f) : ∀ es : List Expr,
    SameFailure (Code.ofAll es : Except Error (List (Code β)))
      (Code.ofAll es : Except Error (List (Code Scalar)))
  | [] => rfl
  | e :: rest => by
      rw [Code.ofAll, Code.ofAll]
      exact (ofExpr h e).bind fun _ _ => (ofAll h rest).bind fun _ _ => rfl

end

theorem outcome (h : Follows f) (codegen : Bool) (bindings : Table (Binding Scalar)) (e : Expr) :
    Program.outcome codegen e (bindings.mapValues (.map f)) =
      f <$> Program.outcome codegen e bindings := by
  have hprogram : SameFailure (Program.ofExpr codegen e : Except Error (Program β))
      (Program.ofExpr codegen e : Except Error (Program Scalar)) := by
    refine SameFailure.bind rfl fun _ _ => ?_
    cases codegen with
    | false => rfl
    | true => exact (h.ofExpr e).bind fun _ _ => rfl
  rw [Program.outcome_eq, Program.outcome_eq, h.evaluate]
  cases hβ : (Program.ofExpr codegen e : Except Error (Program β)) with
  | error err =>
      rw [hβ] at hprogram
      cases hscalar : (Program.ofExpr codegen e : Except Error (Program Scalar)) with
      | error other => rw [hscalar] at hprogram; cases hprogram; rfl
      | ok => rw [hscalar] at hprogram; cases hprogram
  | ok =>
      rw [hβ] at hprogram
      cases hscalar : (Program.ofExpr codegen e : Except Error (Program Scalar)) with
      | error other => rw [hscalar] at hprogram; cases hprogram
      | ok => rfl

end Follows

end Reckoner
