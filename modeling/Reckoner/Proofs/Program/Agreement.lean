import Reckoner.Program.Basic
import Reckoner.Proofs.Outcome

/-!
# Compiled and interpreted programs

Code that was made from an expression runs like the expression is evaluated, whatever looks the
names up: by induction on the expression, where a part without variables may have been replaced by
its value. Such a part has one outcome, whatever names stand for, `evaluateWith_of_closed`.
`run_eq_evaluate` is the statement for programs.
-/

namespace Reckoner

/-! ## Closed expressions -/

theorem Run.note_false {α : Type} (r : Reduction α) : Run.note false r = pure () := rfl

variable {α : Type} [Arithmetic α]

namespace Expr

mutual

/-- The outcome of a closed expression does not depend on what looks the names up. -/
theorem evaluateWith_closed : ∀ e : Expr, e.isClosed = true →
    ∃ outcome : Except Error α, ∀ lookup : String → Run α α,
      evaluateWith lookup false e = Action.ofExcept outcome
  | .number x, _ => ⟨.ok (Arithmetic.number x), fun _ => rfl⟩
  | .imaginary x, _ => ⟨.ok (Arithmetic.imaginary x), fun _ => rfl⟩
  | .constant name, _ => by
      cases h : Constant.ofName? name with
      | none =>
          refine ⟨.error (.of (.missingName name)), fun _ => ?_⟩
          simp only [evaluateWith, h]
          rfl
      | some c =>
          refine ⟨.ok (Arithmetic.constant c), fun _ => ?_⟩
          simp only [evaluateWith, h]
          rfl
  | .var name, hclosed => by
      obtain ⟨c, hc⟩ := Option.isSome_iff_exists.mp hclosed
      refine ⟨.ok (Arithmetic.constant c), fun _ => ?_⟩
      simp only [evaluateWith, hc]
      rfl
  | .negate e, hclosed => by
      obtain ⟨outcome, he⟩ := evaluateWith_closed e hclosed
      refine ⟨outcome >>= fun v => .ok (Arithmetic.negate v), fun lookup => ?_⟩
      rw [evaluateWith, he, Action.ofExcept_bind]
      rfl
  | .binary op l r, hclosed => by
      have hboth : l.isClosed = true ∧ r.isClosed = true := by
        simpa [isClosed] using hclosed
      obtain ⟨left, hl⟩ := evaluateWith_closed l hboth.1
      obtain ⟨right, hr⟩ := evaluateWith_closed r hboth.2
      refine ⟨left >>= fun a => right >>= fun b => (Operator.evaluate op a b).mapError .of,
        fun lookup => ?_⟩
      simp only [evaluateWith, hl, hr, Action.ofExcept_bind, Run.note_false, pure_bind, bind_pure]
      rfl
  | .call name args, hclosed => by
      obtain ⟨values, hvalues⟩ := evaluateAllWith_closed args hclosed
      refine ⟨values >>= fun vs => (Function.evaluateNamed name vs).mapError .of,
        fun lookup => ?_⟩
      simp only [evaluateWith, hvalues, Action.ofExcept_bind, Run.note_false, pure_bind, bind_pure]
      rfl
  | .blank, _ => ⟨.error (.of .blankOperation), fun _ => rfl⟩
  | .foreign type _, _ => ⟨.error (.of (.notANode type "evaluate")), fun _ => rfl⟩

theorem evaluateAllWith_closed : ∀ es : List Expr, areClosed es = true →
    ∃ outcome : Except Error (List α), ∀ lookup : String → Run α α,
      evaluateAllWith lookup false es = Action.ofExcept outcome
  | [], _ => ⟨.ok [], fun _ => rfl⟩
  | e :: rest, hclosed => by
      have hboth : e.isClosed = true ∧ areClosed rest = true := by
        simpa [areClosed] using hclosed
      obtain ⟨value, he⟩ := evaluateWith_closed e hboth.1
      obtain ⟨values, hrest⟩ := evaluateAllWith_closed rest hboth.2
      refine ⟨value >>= fun v => values >>= fun vs => .ok (v :: vs), fun lookup => ?_⟩
      simp only [evaluateAllWith, he, hrest, Action.ofExcept_bind]
      rfl

end

theorem evaluateWith_of_closed {e : Expr} (hclosed : e.isClosed = true)
    (lookup : String → Run α α) :
    evaluateWith lookup false e = Action.ofExcept (Expr.evaluate [] e) := by
  obtain ⟨outcome, h⟩ := evaluateWith_closed (α := α) e hclosed
  rw [h lookup]
  unfold Expr.evaluate evaluateIn
  rw [h, Action.runFrom_ofExcept]

end Expr

/-! ## Code -/

namespace Code

theorem runAllWith_bind_congr {β : Type} (lookup : String → Run α α) (codes : List (Code α))
    {f g : List α → Run α β} (h : ∀ values, values.length = codes.length → f values = g values) :
    runAllWith lookup codes >>= f = runAllWith lookup codes >>= g := by
  induction codes generalizing f g with
  | nil => simpa [runAllWith] using h [] rfl
  | cons code codes ih =>
      simp only [runAllWith, bind_assoc, pure_bind]
      congr 1
      funext value
      exact ih fun values hlength => h (value :: values) (by simp [hlength])

theorem runWith_ofCall (lookup : String → Run α α) (name : String) (codes : List (Code α)) :
    runWith lookup (ofCall name codes) =
      runAllWith lookup codes >>= fun values =>
        Action.ofCause (Function.evaluateNamed name values) := by
  unfold ofCall
  cases hname : Function.ofName? name with
  | none => rfl
  | some f =>
      by_cases hadmits : f.arity.admits codes.length
      · simp only [hadmits, if_true, runWith]
        apply runAllWith_bind_congr
        intro values hlength
        simp [Function.evaluateNamed, hname, Function.evaluate, hlength, hadmits]
      · simp only [hadmits]
        rfl

variable {lookup : String → Run α α}

/-- Folding keeps what a run gives: the value of a closed expression is the one it has here. -/
theorem runWith_folding {e : Expr} {parts : Unit → Except Error (Code α)} {code : Code α}
    (h : folding e parts = .ok code)
    (hparts : parts () = .ok code → runWith lookup code = Expr.evaluateWith lookup false e) :
    runWith lookup code = Expr.evaluateWith lookup false e := by
  unfold folding at h
  split at h
  case isTrue hclosed =>
    split at h
    case h_1 v hv =>
      cases h
      rw [Expr.evaluateWith_of_closed hclosed, hv]
      rfl
    case h_2 error herror =>
      split at h
      case isTrue => exact hparts h
      case isFalse => cases h
  case isFalse => exact hparts h

mutual

theorem runWith_ofExpr : ∀ (e : Expr) {code : Code α}, ofExpr e = .ok code →
    runWith lookup code = Expr.evaluateWith lookup false e
  | .number x, _, h => by cases h; rfl
  | .imaginary x, _, h => by cases h; rfl
  | .constant name, code, h => by
      cases hc : Constant.ofName? name with
      | none => simp [ofExpr, hc] at h
      | some c =>
          simp only [ofExpr, hc, Except.ok.injEq] at h
          subst h
          simp [runWith, Expr.evaluateWith, hc]
  | .var name, code, h => by
      cases hc : Constant.ofName? name with
      | none =>
          simp only [ofExpr, hc, Except.ok.injEq] at h
          subst h
          simp [runWith, Expr.evaluateWith, hc]
      | some c =>
          simp only [ofExpr, hc, Except.ok.injEq] at h
          subst h
          simp [runWith, Expr.evaluateWith, hc]
  | .negate e, code, h => by
      rw [ofExpr] at h
      refine runWith_folding h fun hparts => ?_
      obtain ⟨operand, he, hcode⟩ := exists_of_bind_eq_ok hparts
      cases hcode
      rw [runWith, Expr.evaluateWith, runWith_ofExpr e he]
  | .binary op l r, code, h => by
      rw [ofExpr] at h
      refine runWith_folding h fun hparts => ?_
      cases hop : Operator.ofSymbol? op with
      | none => simp [hop] at hparts
      | some known =>
          simp only [hop] at hparts
          obtain ⟨left, hl, hparts⟩ := exists_of_bind_eq_ok hparts
          obtain ⟨right, hr, hcode⟩ := exists_of_bind_eq_ok hparts
          cases hcode
          simp only [runWith, Expr.evaluateWith, runWith_ofExpr l hl, runWith_ofExpr r hr,
            Operator.evaluate, hop, Run.note_false, pure_bind, bind_pure]
  | .call name args, code, h => by
      rw [ofExpr] at h
      refine runWith_folding h fun hparts => ?_
      obtain ⟨codes, hargs, hcode⟩ := exists_of_bind_eq_ok hparts
      cases hcode
      simp only [runWith_ofCall, Expr.evaluateWith, runAllWith_ofAll args hargs, Run.note_false,
        pure_bind, bind_pure]
  | .blank, _, h => by cases h
  | .foreign type _, _, h => by cases h

theorem runAllWith_ofAll : ∀ (es : List Expr) {codes : List (Code α)}, ofAll es = .ok codes →
    runAllWith lookup codes = Expr.evaluateAllWith lookup false es
  | [], _, h => by cases h; rfl
  | e :: rest, codes, h => by
      rw [ofAll] at h
      obtain ⟨code, he, h⟩ := exists_of_bind_eq_ok h
      obtain ⟨others, hrest, hcodes⟩ := exists_of_bind_eq_ok h
      cases hcodes
      simp only [runAllWith, Expr.evaluateAllWith, runWith_ofExpr e he,
        runAllWith_ofAll rest hrest]

end

end Code

namespace Program

/-- A program has the values of its expression, whether it has code or not. -/
theorem run_of_ofExpr {codegen : Bool} {e : Expr} {p : Program α} (h : ofExpr codegen e = .ok p)
    (bindings : Table (Binding α)) : p.run bindings = e.evaluate bindings := by
  obtain ⟨_, -, h⟩ := exists_of_bind_eq_ok h
  cases codegen with
  | false => cases h; rfl
  | true =>
      obtain ⟨code, hcode, hprogram⟩ := exists_of_bind_eq_ok h
      cases hprogram
      simp only [Program.run, Expr.evaluate, Expr.evaluateIn, Code.runWith_ofExpr e hcode]

/-- The outcome of preparing an expression and running the program. -/
def outcome (codegen : Bool) (e : Expr) (bindings : Table (Binding α)) : Except Error α := do
  (← ofExpr codegen e).run bindings

theorem outcome_eq (codegen : Bool) (e : Expr) (bindings : Table (Binding α)) :
    outcome codegen e bindings =
      (ofExpr codegen e : Except Error (Program α)) >>= fun _ => e.evaluate bindings := by
  rw [outcome]
  cases hprogram : (ofExpr codegen e : Except Error (Program α)) with
  | error err => rfl
  | ok p => exact run_of_ofExpr hprogram bindings

/-- A compiled program, the interpreted one and the evaluator have the same outcome for all
bindings. -/
theorem run_eq_evaluate {e : Expr} {compiled : Program α}
    (h : ofExpr true e = .ok compiled) (bindings : Table (Binding α)) :
    ∃ interpreted : Program α, ofExpr false e = .ok interpreted ∧
      compiled.run bindings = interpreted.run bindings ∧
      compiled.run bindings = e.evaluate bindings := by
  obtain ⟨_, hvalid, hbody⟩ := exists_of_bind_eq_ok h
  obtain ⟨code, hcode, hprogram⟩ := exists_of_bind_eq_ok hbody
  cases hprogram
  have hrun : Program.run ⟨e, some code⟩ bindings = e.evaluate bindings := by
    simp only [Program.run, Expr.evaluate, Expr.evaluateIn, Code.runWith_ofExpr e hcode]
  refine ⟨⟨e, none⟩, ?_, hrun, hrun⟩
  simp only [ofExpr, hvalid]
  rfl

/-- A sum of a product that is not folded and of a call that nothing can evaluate. -/
private def unfoldable : Expr :=
  .binary "+" (.binary "*" (.var "x") (.negate (.number 2.0))) (.call "foo" [.number 1.0])

theorem run_eq_evaluate_unfoldable :
    ∃ compiled interpreted : Program Scalar,
      ofExpr true unfoldable = .ok compiled ∧ ofExpr false unfoldable = .ok interpreted ∧
      compiled.run [("x", .text "y + 1")] = interpreted.run [("x", .text "y + 1")] ∧
      compiled.run [("x", .text "y + 1")] = unfoldable.evaluate [("x", .text "y + 1")] := by
  obtain ⟨compiled, hcompiled⟩ : ∃ p : Program Scalar, ofExpr true unfoldable = .ok p := ⟨_, rfl⟩
  obtain ⟨interpreted, hinterpreted, hruns⟩ :=
    run_eq_evaluate hcompiled [("x", .text "y + 1")]
  exact ⟨compiled, interpreted, hcompiled, hinterpreted, hruns⟩

end Program

end Reckoner
