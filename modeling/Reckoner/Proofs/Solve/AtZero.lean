import Reckoner.Proofs.Scope.Requests
import Reckoner.Proofs.Solve.Collection

/-!
# The constant of a collected form

The constant of a form is the value of the expression where the unknown is zero, whatever the
operators and functions do: at each node the constants of the operands go into the very operation
that evaluation applies there, so nothing is assumed of the arithmetic but that a zero that is bound
is found as it is. Operators that have a form are the four of a field; what stands below any other
node is evaluated, while the unknown has no value, and so does not need it.
-/

namespace Reckoner

open Reckoner.Action

variable {α : Type} [Numeric α]

namespace LinearForm

variable {f g form : LinearForm α}

omit [Numeric α] in
/-- Whatever the factor of a form comes from, its constant is what the operator gives. -/
theorem constant_of_factor {factor constant : Except Cause α}
    (h : (factor >>= fun k => constant >>= fun c => pure (LinearForm.mk k c)) = .ok form) :
    constant = .ok form.constant := by
  obtain ⟨k, -, h⟩ := exists_of_bind_eq_ok h
  obtain ⟨c, hconstant, h⟩ := exists_of_bind_eq_ok h
  cases h
  exact hconstant

theorem constant_of_multiply (h : multiply f g = .ok form) :
    Arithmetic.operate .multiply f.constant g.constant = .ok form.constant := by
  unfold multiply at h
  split at h
  case isTrue => cases h
  case isFalse =>
      dsimp only at h
      split at h
      case isTrue => exact constant_of_factor h
      case isFalse => exact constant_of_factor h

theorem constant_of_divide (h : divide f g = .ok form) :
    Arithmetic.operate .divide f.constant g.constant = .ok form.constant := by
  unfold divide at h
  split at h
  case isTrue => cases h
  case isFalse => exact constant_of_factor h

/-- An operator on forms is the operator on their constants. -/
theorem constant_of_combine {op : String} (h : combine op f g = .ok form) :
    Operator.evaluate op f.constant g.constant = .ok form.constant := by
  unfold combine at h
  rw [Operator.evaluate]
  cases hop : Operator.ofSymbol? op with
  | none => rw [hop] at h; cases h
  | some known =>
      rw [hop] at h
      cases known with
      | add | subtract => exact constant_of_factor h
      | multiply => exact constant_of_multiply h
      | divide => exact constant_of_divide h
      | power => cases h

end LinearForm

namespace Expr

variable {bound : Table (Binding α)} {name : String}

/-- Where the unknown is bound to zero the expression has the constant of the form. -/
def HasConstant (bound : Table (Binding α)) (name : String) (e : Expr) (form : LinearForm α) :
    Prop :=
  e.evaluate (bound.insert name (.number (Arithmetic.number 0.0))) = .ok form.constant

theorem hasConstant_of_constantFormWith (hunbound : bound.find? name = none) {e : Expr}
    {form : LinearForm α} (h : e.constantFormWith (meaning bound) = .ok form) :
    e.HasConstant bound name form := by
  obtain ⟨value, rfl, hvalue⟩ := exists_value_of_constantFormWith hunbound h
  exact hvalue _

theorem hasConstant_of_negate {e : Expr} {f : LinearForm α} (h : e.HasConstant bound name f) :
    (negate e).HasConstant bound name f.negate := by
  unfold HasConstant at h ⊢
  rw [evaluate_eq_outcomeWith] at h ⊢
  rw [outcomeWith, h, bind_ok]
  rfl

theorem hasConstant_of_combine {op : String} {l r : Expr} {f g form : LinearForm α}
    (hl : l.HasConstant bound name f) (hr : r.HasConstant bound name g)
    (h : LinearForm.combine op f g = .ok form) : (binary op l r).HasConstant bound name form := by
  unfold HasConstant at hl hr ⊢
  rw [evaluate_eq_outcomeWith] at hl hr ⊢
  rw [outcomeWith, hl, bind_ok, hr, bind_ok, LinearForm.constant_of_combine h]
  rfl

/-- The constant of the form that is collected of an expression is its value at zero. -/
theorem hasConstant_of_collect (hunbound : bound.find? name = none)
    (hname : Constant.isName name = false)
    (hzero : Arithmetic.adopt (Arithmetic.number 0.0 : α) = .ok (Arithmetic.number 0.0))
    {e : Expr} {form : LinearForm α} (h : e.collect bound name = .ok form) :
    e.HasConstant bound name form := by
  rw [collect_eq_formWith] at h
  have hunknown : (var name).HasConstant bound name LinearForm.unknown :=
    evaluate_var hname ((Table.find?_insert ..).trans (if_pos rfl)) hzero
  exact of_formWith (fun _ _ => hasConstant_of_constantFormWith hunbound) hunknown
    (fun _ _ => hasConstant_of_negate) (fun _ _ _ _ _ _ => hasConstant_of_combine) e h

end Expr

/-! ## Scopes that are asked for forms -/

namespace Scope

/-- The linear form of an expression in a scope. -/
def collect (s : Scope α) (name : String) (e : Expr) : Except Error (LinearForm α) × Scope α :=
  s.advance (e.collectWith (Reckoner.lookup s.bindings) name)

/-- The scope has come from the bindings by requests for values and for forms. -/
inductive Serves (bindings : Table (Binding α)) : Scope α → Prop
  | fresh : Serves bindings (ofTable bindings)
  | answer {s : Scope α} (h : Serves bindings s) (r : Request) : Serves bindings (s.answer r).2
  | collect {s : Scope α} (h : Serves bindings s) (name : String) (e : Expr) :
      Serves bindings (s.collect name e).2

variable {bindings : Table (Binding α)} {s t : Scope α}

/-- Asking for a form does not depend on what is remembered either, and keeps it sound. -/
theorem collect_of_sound (hbindings : s.bindings = bindings) (hsound : Sound bindings [] s.memory)
    (name : String) (e : Expr) :
    (s.collect name e).1 = e.collect bindings name ∧
      (s.collect name e).2.bindings = bindings ∧ Sound bindings [] (s.collect name e).2.memory := by
  subst hbindings
  obtain ⟨hform, hkept⟩ := @Expr.gives_collectWith _ _ _ name e s.memory hsound
  rw [collect, advance_fst, advance_snd, Expr.collect_eq_formWith]
  exact ⟨hform, rfl, hkept⟩

theorem Serves.sound (h : Serves bindings s) :
    s.bindings = bindings ∧ Sound bindings [] s.memory := by
  induction h with
  | fresh => exact ⟨rfl, sound_fresh⟩
  | answer _ r ih => exact (answer_of_sound ih.1 ih.2 r).2
  | collect _ name e ih => exact (collect_of_sound ih.1 ih.2 name e).2

/-- The constant of a form is the very value that the expression has where the unknown is bound to
zero, in any arithmetic in which a zero that is bound is found as it is, and in scopes that may have
been used before. -/
theorem evaluate_zero_of_collect {name : String} {e : Expr} {form : LinearForm α}
    (hname : Constant.isName name = false) (hunbound : bindings.find? name = none)
    (hzero : Arithmetic.adopt (Arithmetic.number 0.0 : α) = .ok (Arithmetic.number 0.0))
    (hs : s.Serves bindings)
    (ht : t.Serves (bindings.insert name (.number (Arithmetic.number 0.0))))
    (hform : (s.collect name e).1 = .ok form) : (t.evaluate e).1 = .ok form.constant := by
  have hcollect : e.collect bindings name = .ok form :=
    (collect_of_sound hs.sound.1 hs.sound.2 name e).1.symm.trans hform
  have hvalue : (t.evaluate e).1 =
      e.outcomeWith (meaning (bindings.insert name (.number (Arithmetic.number 0.0)))) :=
    (answer_of_sound ht.sound.1 ht.sound.2 (.evaluate e)).1
  rw [hvalue, ← Expr.evaluate_eq_outcomeWith]
  exact Expr.hasConstant_of_collect hunbound hname hzero hcollect

/-- Bindings for `k`, which stands for `w + 2`, and `w`. -/
private def shifts : Table (Binding Scalar) :=
  [("k", .text "w + 2"), ("w", .number (.real 1.5))]

/-- The tree of `-x * k / inf`, whose constant is the negative zero. -/
private def vanishing : Expr :=
  .binary "/" (.binary "*" (.negate (.var "x")) (.var "k")) (.constant "inf")

theorem evaluate_zero_of_collect_vanishing :
    Constant.isName "x" = false ∧ Table.find? shifts "x" = none ∧
      (Arithmetic.adopt (.real 0.0) : Except Cause Scalar) = .ok (.real 0.0) ∧
      ∃ form : LinearForm Scalar,
        (((ofTable shifts).lookup "k").2.collect "x" vanishing).1 = .ok form ∧
        form.constant = .real (-0.0) ∧
        ((ofTable (shifts.insert "x" (.number (.real 0.0)))).evaluate vanishing).1 =
          .ok form.constant := by
  have hname : Constant.isName "x" = false := by decide
  have hfound : ((((ofTable shifts).lookup "k").2.collect "x" vanishing).1.toOption.map
      (·.constant)) = some (.real (-0.0)) := by decide +kernel
  obtain ⟨form, hform, hconstant⟩ := Option.map_eq_some_iff.mp hfound
  have hserves : Serves shifts ((ofTable shifts).lookup "k").2 := .answer .fresh (.lookup "k")
  exact ⟨hname, rfl, rfl, form, eq_ok_of_toOption hform, hconstant,
    evaluate_zero_of_collect hname rfl rfl hserves .fresh (eq_ok_of_toOption hform)⟩

end Scope

end Reckoner
