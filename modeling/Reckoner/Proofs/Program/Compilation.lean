import Reckoner.Proofs.Expr.Everywhere
import Reckoner.Proofs.Program.Agreement
import Reckoner.Proofs.Scope.Memory

/-!
# Expressions that have programs

A valid expression that has a value among some bindings has a program, with code or without: what
is folded has its value, and everything else is only put together.
-/

namespace Reckoner

variable {α : Type} [Arithmetic α] {bindings : Table (Binding α)}

theorem Expr.evaluate_of_closed {e : Expr} (hclosed : e.isClosed = true) :
    e.evaluate bindings = e.evaluate [] := by
  rw [evaluate, evaluateIn, evaluateWith_of_closed hclosed]
  rfl

namespace Code

theorem exists_folding {e : Expr} {v : α} {parts : Unit → Except Error (Code α)}
    (hvalue : e.outcomeWith (meaning bindings) = .ok v) (hparts : ∃ code, parts () = .ok code) :
    ∃ code, folding e parts = .ok code := by
  unfold folding
  split
  case isTrue hclosed =>
      rw [← Expr.evaluate_eq_outcomeWith, Expr.evaluate_of_closed hclosed] at hvalue
      rw [hvalue]
      exact ⟨_, rfl⟩
  case isFalse => exact hparts

mutual

theorem exists_ofExpr : ∀ (e : Expr) {v : α}, e.Everywhere (fun e => e.nodeDefect? = none) →
    e.outcomeWith (meaning bindings) = .ok v → ∃ code : Code α, ofExpr e = .ok code
  | .number x, _, _, _ => ⟨_, rfl⟩
  | .imaginary x, _, _, _ => ⟨_, rfl⟩
  | .constant name, _, _, hvalue => by
      cases hconstant : Constant.ofName? name with
      | none => rw [Expr.outcomeWith, hconstant] at hvalue; cases hvalue
      | some c => rw [ofExpr, hconstant]; exact ⟨_, rfl⟩
  | .var name, _, _, _ => by
      rw [ofExpr]
      split
      case h_1 => exact ⟨_, rfl⟩
      case h_2 => exact ⟨_, rfl⟩
  | .negate e, _, hvalid, hvalue => by
      rw [ofExpr]
      refine exists_folding hvalue ?_
      rw [Expr.outcomeWith] at hvalue
      obtain ⟨_, he, -⟩ := exists_of_bind_eq_ok hvalue
      obtain ⟨code, hcode⟩ := exists_ofExpr e hvalid.2 he
      rw [hcode]
      exact ⟨_, rfl⟩
  | .binary op l r, _, hvalid, hvalue => by
      rw [ofExpr]
      refine exists_folding hvalue ?_
      rw [Expr.outcomeWith] at hvalue
      obtain ⟨_, hl, hvalue⟩ := exists_of_bind_eq_ok hvalue
      obtain ⟨_, hr, hvalue⟩ := exists_of_bind_eq_ok hvalue
      obtain ⟨left, hleft⟩ := exists_ofExpr l hvalid.2.1 hl
      obtain ⟨right, hright⟩ := exists_ofExpr r hvalid.2.2 hr
      cases hop : Operator.ofSymbol? op with
      | none => rw [Operator.evaluate, hop] at hvalue; cases hvalue
      | some known =>
          dsimp only
          rw [hleft, hright]
          exact ⟨_, rfl⟩
  | .call name args, _, hvalid, hvalue => by
      rw [ofExpr]
      refine exists_folding hvalue ?_
      rw [Expr.outcomeWith] at hvalue
      obtain ⟨_, hargs, -⟩ := exists_of_bind_eq_ok hvalue
      obtain ⟨codes, hcodes⟩ := exists_ofAll args hvalid.2 hargs
      rw [hcodes]
      exact ⟨_, rfl⟩
  | .blank, _, _, hvalue => by cases hvalue
  | .foreign .., _, _, hvalue => by cases hvalue

theorem exists_ofAll : ∀ (es : List Expr) {vs : List α},
    Expr.EverywhereAll (fun e => e.nodeDefect? = none) es →
    Expr.outcomesWith (meaning bindings) es = .ok vs → ∃ codes : List (Code α), ofAll es = .ok codes
  | [], _, _, _ => ⟨_, rfl⟩
  | e :: rest, _, hvalid, hvalues => by
      rw [Expr.outcomesWith] at hvalues
      obtain ⟨_, he, hvalues⟩ := exists_of_bind_eq_ok hvalues
      obtain ⟨_, hrest, -⟩ := exists_of_bind_eq_ok hvalues
      obtain ⟨code, hcode⟩ := exists_ofExpr e hvalid.1 he
      obtain ⟨codes, hcodes⟩ := exists_ofAll rest hvalid.2 hrest
      rw [ofAll, hcode, hcodes]
      exact ⟨_, rfl⟩

end

end Code

/-- A valid expression with a value has a program. -/
theorem Program.exists_ofExpr {e : Expr} {v : α} (codegen : Bool) (hvalid : e.isValid = true)
    (hvalue : e.evaluate bindings = .ok v) : ∃ p : Program α, ofExpr codegen e = .ok p := by
  rw [ofExpr, Expr.validate_of_isValid hvalid]
  cases codegen with
  | false => exact ⟨_, rfl⟩
  | true =>
      rw [Expr.evaluate_eq_outcomeWith] at hvalue
      obtain ⟨code, hcode⟩ := Code.exists_ofExpr e (Expr.isValid_iff.mp hvalid) hvalue
      rw [hcode]
      exact ⟨_, rfl⟩

end Reckoner
