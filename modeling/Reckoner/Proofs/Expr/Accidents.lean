import Reckoner.Proofs.Expr.Refusal
import Reckoner.Proofs.Program.Compilation
import Reckoner.Proofs.Scalar.Faults

/-!
# Accidents of expressions

The value of an expression that has been read is missing for a reason with a code, or because of a
fault of one of the functions that the expression calls, or that an expression calls which one of
its variables stands for. Code for the expression is missing for no other reasons.
-/

namespace Reckoner

/-- A fault of one of certain functions. -/
inductive FaultOf (allowed : Function → Prop) : Cause → Prop
  | fault {f : Function} {fault : Fault} : allowed f → fault ∈ f.faults →
    FaultOf allowed (.arithmetic fault)

variable {allowed : Function → Prop} {accident : Cause → Prop}

/-! ## Operations -/

namespace Scalar

variable {a b : Scalar}

theorem meets_evaluateOperator {op : String} (hop : (Operator.ofSymbol? op).isSome = true)
    (ha : a.IsFloating) (hb : b.IsFloating) :
    Meets IsSettled (Cause.IsCodedOr accident) (Operator.evaluate op a b) := by
  obtain ⟨known, hknown⟩ := Option.isSome_iff_exists.mp hop
  rw [Operator.evaluate, hknown]
  exact (meets_onScalars known ha hb).mapError

theorem meets_applyFunction {f : Function} {args : List Scalar} (hf : allowed f)
    (hargs : ∀ a ∈ args, a.IsSettled) (hadmits : f.arity.admits args.length = true) :
    Meets IsSettled (Cause.IsCodedOr (FaultOf allowed)) (applyFunction f args) := by
  unfold applyFunction
  split
  case isTrue => exact .inl rfl
  case isFalse =>
      refine Meets.mapError ?_
      refine Meets.bind ?_ fun _ => meets_settle
      exact (Function.meets_onScalars hargs hadmits).mono_error
        fun _ h => .inr (.fault hf h)

theorem meets_evaluateNamed {name : String} {args : List Scalar}
    (hname : ∀ f, Function.ofName? name = some f → allowed f) (hargs : ∀ a ∈ args, a.IsSettled) :
    Meets IsSettled (Cause.IsCodedOr (FaultOf allowed)) (Function.evaluateNamed name args) := by
  unfold Function.evaluateNamed
  split
  case h_1 f hf =>
      unfold Function.evaluate
      split
      case isTrue hadmits => exact meets_applyFunction (hname f hf) hargs hadmits
      case isFalse => exact .inl rfl
  case h_2 => exact .inl rfl

end Scalar

/-! ## Trees -/

namespace Expr

open Scalar

mutual

/-- The names of all calls in a tree. -/
def called : Expr → List String
  | negate e => called e
  | binary _ l r => called l ++ called r
  | call name args => name :: calledAll args
  | _ => []

/-- The names of all calls in arguments. -/
def calledAll : List Expr → List String
  | [] => []
  | e :: rest => called e ++ calledAll rest

end

/-- A node that has a meaning, and that calls none but certain functions. -/
def IsRegular (allowed : Function → Prop) : Expr → Prop
  | constant name => Constant.isName name = true
  | binary op _ _ => (Operator.ofSymbol? op).isSome = true
  | call name _ => ∀ f, Function.ofName? name = some f → allowed f
  | blank | foreign .. => False
  | _ => True

mutual

theorem isRegular_of_valid : ∀ e : Expr, e.Everywhere (fun e => e.nodeDefect? = none) →
    (∀ name ∈ e.called, ∀ f, Function.ofName? name = some f → allowed f) →
    e.Everywhere (IsRegular allowed)
  | .number _, _, _ | .imaginary _, _, _ | .var _, _, _ => trivial
  | .constant _, h, _ => nodeDefect?_constant.mp h
  | .negate e, h, hcalls => ⟨trivial, isRegular_of_valid e h.2 hcalls⟩
  | .binary op l r, h, hcalls => by
      rw [called, List.forall_mem_append] at hcalls
      exact ⟨nodeDefect?_binary.mp h.1, isRegular_of_valid l h.2.1 hcalls.1,
        isRegular_of_valid r h.2.2 hcalls.2⟩
  | .call name args, h, hcalls => by
      rw [called, List.forall_mem_cons] at hcalls
      exact ⟨hcalls.1, isRegularAll_of_valid args h.2 hcalls.2⟩
  | .blank, h, _ | .foreign .., h, _ => by cases h

theorem isRegularAll_of_valid : ∀ es : List Expr,
    EverywhereAll (fun e => e.nodeDefect? = none) es →
    (∀ name ∈ calledAll es, ∀ f, Function.ofName? name = some f → allowed f) →
    EverywhereAll (IsRegular allowed) es
  | [], _, _ => trivial
  | e :: rest, h, hcalls => by
      rw [calledAll, List.forall_mem_append] at hcalls
      exact ⟨isRegular_of_valid e h.1 hcalls.1, isRegularAll_of_valid rest h.2 hcalls.2⟩

end

theorem isRegular_of_isRead (e : Expr) (h : e.Everywhere IsRead)
    (hcalls : ∀ name ∈ e.called, ∀ f, Function.ofName? name = some f → allowed f) :
    e.Everywhere (IsRegular allowed) :=
  isRegular_of_valid e (h.mono fun _ => nodeDefect?_of_isRead) hcalls

variable {values : String → Except Error Scalar}

mutual

/-- By induction on the tree, one case for each node. -/
theorem meets_outcomeWith
    (hvalues : ∀ name, Meets IsSettled (Error.IsCodedOr (FaultOf allowed)) (values name)) :
    ∀ e : Expr, e.Everywhere (IsRegular allowed) →
      Meets IsSettled (Error.IsCodedOr (FaultOf allowed)) (e.outcomeWith values)
  | .number _, _ => trivial
  | .imaginary x, _ => isSettled_imaginary x
  | .constant name, h => by
      cases hconstant : Constant.ofName? name with
      | none =>
          have hname : Constant.isName name = true := h
          rw [Constant.isName, hconstant] at hname
          cases hname
      | some c => simp only [outcomeWith, hconstant]; trivial
  | .var name, _ => by
      rw [outcomeWith]
      split
      case h_1 => trivial
      case h_2 => exact hvalues name
  | .negate e, h => by
      rw [outcomeWith]
      exact (meets_outcomeWith hvalues e h.2).bind fun _ ha => ha.neg
  | .binary op l r, h => by
      rw [outcomeWith]
      refine (meets_outcomeWith hvalues l h.2.1).bind fun a ha => ?_
      refine (meets_outcomeWith hvalues r h.2.2).bind fun b hb => ?_
      exact (meets_evaluateOperator h.1 ha.isFloating hb.isFloating).ofCause
  | .call name args, h => by
      rw [outcomeWith]
      exact (meets_outcomesWith hvalues args h.2).bind fun vs hvs =>
        (meets_evaluateNamed h.1 hvs).ofCause
  | .blank, h | .foreign .., h => h.elim

theorem meets_outcomesWith
    (hvalues : ∀ name, Meets IsSettled (Error.IsCodedOr (FaultOf allowed)) (values name)) :
    ∀ es : List Expr, EverywhereAll (IsRegular allowed) es →
      Meets (fun vs => ∀ v ∈ vs, v.IsSettled) (Error.IsCodedOr (FaultOf allowed))
        (outcomesWith values es)
  | [], _ => List.forall_mem_nil _
  | e :: rest, h => by
      rw [outcomesWith]
      exact (meets_outcomeWith hvalues e h.1).bind fun v hv =>
        (meets_outcomesWith hvalues rest h.2).bind fun vs hvs => List.forall_mem_cons.mpr ⟨hv, hvs⟩

end

end Expr

/-! ## Bindings -/

namespace Binding

/-- A number made of doubles, or an expression that calls none but certain functions. -/
def IsRegular (allowed : Function → Prop) : Binding Scalar → Prop
  | .number value => value.IsFloating
  | .text source => ∀ e, Expr.ofText source = .ok e → e.Everywhere (Expr.IsRegular allowed)
  | .tree e => e.Everywhere (Expr.IsRegular allowed)
  | .other _ => True

theorem meets_expression {binding : Binding Scalar} (h : binding.IsRegular allowed)
    (name : String) : Meets (fun e => e.Everywhere (Expr.IsRegular allowed))
      (Error.IsCodedOr accident) (binding.expression name) := by
  cases binding with
  | number | other => exact .inl rfl
  | text source => exact (Expr.failsOnly_ofText source).meets h
  | tree e => exact h

end Binding

/-- All bindings are numbers made of doubles or expressions that call none but certain functions. -/
def AreRegular (allowed : Function → Prop) (bindings : Table (Binding Scalar)) : Prop :=
  ∀ name binding, bindings.find? name = some binding → binding.IsRegular allowed

variable {bindings : Table (Binding Scalar)}

theorem areRegular_nil : AreRegular allowed [] := fun _ _ h => by cases h

open Scalar

theorem meets_meaningWithin (h : AreRegular allowed bindings) (depth : Nat) (path : List String)
    (name : String) :
    Meets IsSettled (Error.IsCodedOr (FaultOf allowed))
      (meaningWithin bindings depth path name) := by
  induction depth generalizing path name with
  | zero => exact .inl rfl
  | succ depth ih =>
      rw [meaningWithin]
      split
      case h_1 => exact .inl rfl
      case h_2 value hfind => exact ((meets_settle (h name _ hfind)).mapError).ofCause
      case h_3 binding _ hfind =>
          split
          case isTrue => exact .inl rfl
          case isFalse =>
              exact (Binding.meets_expression (h name _ hfind) name).bind fun e he =>
                Expr.meets_outcomeWith (ih _) e he

theorem meets_meaning (h : AreRegular allowed bindings) (name : String) :
    Meets IsSettled (Error.IsCodedOr (FaultOf allowed)) (meaning bindings name) :=
  meets_meaningWithin h _ _ name

namespace Expr

/-- An expression has a value in normal form, or it has none for a reason with a code or because of
a fault of a function that is called. -/
theorem meets_evaluate (h : AreRegular allowed bindings) {e : Expr}
    (he : e.Everywhere (IsRegular allowed)) :
    Meets IsSettled (Error.IsCodedOr (FaultOf allowed)) (e.evaluate bindings) := by
  rw [evaluate_eq_outcomeWith]
  exact meets_outcomeWith (meets_meaning h) e he

end Expr

/-! ## Programs -/

namespace Code

theorem failsOnly_folding {e : Expr} {parts : Unit → Except Error (Code Scalar)}
    (he : e.Everywhere (Expr.IsRegular allowed))
    (hparts : FailsOnly (Error.IsCodedOr (FaultOf allowed)) (parts ())) :
    FailsOnly (Error.IsCodedOr (FaultOf allowed)) (folding e parts) := by
  unfold folding
  split
  case isFalse => exact hparts
  case isTrue =>
      split
      case h_1 => exact failsOnly_ok _
      case h_2 err herr =>
          split
          case isTrue => exact hparts
          case isFalse =>
              have hregular : AreRegular allowed [] := areRegular_nil
              have hmeets := Expr.meets_evaluate hregular he
              rw [herr] at hmeets
              exact failsOnly_error hmeets

mutual

theorem failsOnly_ofExpr : ∀ e : Expr, e.Everywhere (Expr.IsRegular allowed) →
    FailsOnly (Error.IsCodedOr (FaultOf allowed)) (ofExpr e : Except Error (Code Scalar))
  | .number _, _ | .imaginary _, _ => failsOnly_ok _
  | .constant name, h => by
      rw [ofExpr]
      split
      case h_1 => exact failsOnly_ok _
      case h_2 hconstant =>
          have hname : Constant.isName name = true := h
          rw [Constant.isName, hconstant] at hname
          cases hname
  | .var name, _ => by
      rw [ofExpr]
      split <;> exact failsOnly_ok _
  | .negate e, h => by
      rw [ofExpr]
      exact failsOnly_folding h ((failsOnly_ofExpr e h.2).bind fun _ _ => failsOnly_pure _)
  | .binary op l r, h => by
      rw [ofExpr]
      refine failsOnly_folding h ?_
      obtain ⟨known, hknown⟩ := Option.isSome_iff_exists.mp h.1
      rw [hknown]
      exact (failsOnly_ofExpr l h.2.1).bind fun _ _ =>
        (failsOnly_ofExpr r h.2.2).bind fun _ _ => failsOnly_pure _
  | .call name args, h => by
      rw [ofExpr]
      exact failsOnly_folding h ((failsOnly_ofAll args h.2).bind fun _ _ => failsOnly_pure _)
  | .blank, h | .foreign .., h => h.elim

theorem failsOnly_ofAll : ∀ es : List Expr, Expr.EverywhereAll (Expr.IsRegular allowed) es →
    FailsOnly (Error.IsCodedOr (FaultOf allowed)) (ofAll es : Except Error (List (Code Scalar)))
  | [], _ => failsOnly_ok _
  | e :: rest, h => by
      rw [ofAll]
      exact (failsOnly_ofExpr e h.1).bind fun _ _ =>
        (failsOnly_ofAll rest h.2).bind fun _ _ => failsOnly_pure _

end

end Code

namespace Program

theorem failsOnly_ofExpr (codegen : Bool) {e : Expr} (he : e.Everywhere (Expr.IsRegular allowed)) :
    FailsOnly (Error.IsCodedOr (FaultOf allowed))
      (ofExpr codegen e : Except Error (Program Scalar)) := by
  have hvalidate : FailsOnly (Error.IsCodedOr (FaultOf allowed)) e.validate := by
    unfold Expr.validate
    split
    case h_1 => exact failsOnly_error (.inl rfl)
    case h_2 => exact failsOnly_ok _
  refine hvalidate.bind fun _ _ => ?_
  split
  case isTrue => exact (Code.failsOnly_ofExpr e he).bind fun _ _ => failsOnly_pure _
  case isFalse => exact failsOnly_pure _

end Program

end Reckoner
