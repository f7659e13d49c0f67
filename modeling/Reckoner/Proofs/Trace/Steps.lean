import Reckoner.Proofs.Trace.Display
import Reckoner.Proofs.Trace.Reductions
import Reckoner.Trace.Basic

/-!
# Traces of evaluations

A traced evaluation appends one step for each operator and each call of the tree, in post-order,
with the values of the operands and what the operation makes of them. If a node has no value, the
steps are those of the operations before it. The outcome is the one that there is without a trace,
unless a step comes up that cannot be shown with the digits of the trace: then the evaluation ends
there.
-/

namespace Reckoner

open Reckoner.Action Display

variable {digits : Datum} {count : Option Int} {bindings : Table (Binding Scalar)}

namespace Trace

/-- The step of an operation holds the values of its operands and what they come to. -/
inductive Records (digits : Datum) (bindings : Table (Binding Scalar)) : Expr → Step → Prop
  | binary {op : String} {l r : Expr} {a b v : Scalar} {step : Step} :
    l.evaluate bindings = .ok a → r.evaluate bindings = .ok b →
    Operator.evaluate op a b = .ok v →
    step.operands = [.number a, .number b] → step.result = .ofScalar v →
    Step.ofOperation digits op (.number a) (.number b) (.number v) = .ok step →
    Records digits bindings (.binary op l r) step
  | call {name : String} {args : List Expr} {values : List Scalar} {v : Scalar} {step : Step} :
    List.Forall₂ (fun arg value => arg.evaluate bindings = .ok value) args values →
    Function.evaluateNamed name values = .ok v →
    step.operands = values.map .number → step.result = .ofScalar v →
    Step.ofCall digits name (values.map .number) (.number v) = .ok step →
    Records digits bindings (.call name args) step

/-- All of the nodes have values, and the steps are those of the operations among them. -/
structure Completes (digits : Datum) (bindings : Table (Binding Scalar)) (nodes : List Expr)
    (steps : List Step) : Prop where
  values : ∀ node ∈ nodes, ∃ v, node.evaluate bindings = .ok v
  records : List.Forall₂ (Records digits bindings) (nodes.filter Expr.isOperation) steps

/-- The steps of an evaluation, by the outcome that it has. -/
inductive Accounts (digits : Datum) (bindings : Table (Binding Scalar)) (e : Expr)
    (steps : List Step) : Except Error Scalar → Prop
  /-- All operations are recorded, the whole tree last. -/
  | value {v : Scalar} : Completes digits bindings e.postorder steps →
    (e.isOperation = true → ∃ step, steps.getLast? = some step ∧ step.result = .ofScalar v) →
    Accounts digits bindings e steps (.ok v)
  /-- The operations before the node that fails are recorded. -/
  | failure {before after : List Expr} {failing : Expr} {err : Error} :
    e.postorder = before ++ failing :: after → Completes digits bindings before steps →
    failing.evaluate bindings = .error err → Accounts digits bindings e steps (.error err)

/-- The operations before the first one are recorded that has a value, but whose step cannot be
shown with so many digits. -/
inductive Interrupts (count : Option Int) (bindings : Table (Binding Scalar)) (e : Expr)
    (steps : List Step) : Except Error Scalar → Prop
  | unshown {before after : List Expr} {node : Expr} {v : Scalar} {n : Int} {cause : Cause} :
    e.postorder = before ++ node :: after → Completes (Digits count) bindings before steps →
    node.isOperation = true → node.evaluate bindings = .ok v →
    count = some n → Refusal n cause →
    Interrupts count bindings e steps (.error (.of cause))

/-! ## Steps of nodes -/

theorem ofOperation_eq_ok {op : String} {left right result : Datum} {step : Step}
    (h : Step.ofOperation digits op left right result = .ok step) :
    step.operands = [left, right] ∧ step.result = .datum result := by
  unfold Step.ofOperation at h
  obtain ⟨_, -, h⟩ := exists_of_bind_eq_ok h
  obtain ⟨_, -, h⟩ := exists_of_bind_eq_ok h
  split at h
  case h_1 => cases h
  case h_2 =>
      obtain ⟨_, -, h⟩ := exists_of_bind_eq_ok h
      cases h
      exact ⟨rfl, rfl⟩

theorem ofCall_eq_ok {name : String} {args : List Datum} {result : Datum} {step : Step}
    (h : Step.ofCall digits name args result = .ok step) :
    step.operands = args ∧ step.result = .datum result := by
  unfold Step.ofCall at h
  obtain ⟨_, -, h⟩ := exists_of_bind_eq_ok h
  obtain ⟨_, -, h⟩ := exists_of_bind_eq_ok h
  cases h
  exact ⟨rfl, rfl⟩

theorem records_of_reduces {e : Expr} {r : Reduction Scalar} {step : Step}
    (h : Reduces (meaning bindings) e r) (hstep : Step.ofReduction digits r = .ok step) :
    Records digits bindings e step := by
  cases h with
  | binary ha hb hv =>
      obtain ⟨hoperands, hresult⟩ := ofOperation_eq_ok hstep
      rw [← Expr.evaluate_eq_outcomeWith] at ha hb
      exact .binary ha hb hv hoperands hresult hstep
  | call hvs hv =>
      obtain ⟨hoperands, hresult⟩ := ofCall_eq_ok hstep
      exact .call (Expr.outcomesWith_meaning_eq_ok_iff.mp hvs) hv hoperands hresult hstep

theorem Records.exists_reduction {e : Expr} {step : Step} (h : Records digits bindings e step) :
    ∃ r, Reduces (meaning bindings) e r ∧ step.result = .ofScalar r.result := by
  cases h with
  | binary ha hb hv _ hresult _ =>
      rw [Expr.evaluate_eq_outcomeWith] at ha hb
      exact ⟨_, .binary ha hb hv, hresult⟩
  | call hvalues hv _ hresult _ =>
      exact ⟨_, .call (Expr.outcomesWith_meaning_eq_ok_iff.mpr hvalues) hv, hresult⟩

theorem evaluate_of_reduces {e : Expr} {r : Reduction Scalar}
    (h : Reduces (meaning bindings) e r) : e.evaluate bindings = .ok r.result :=
  e.evaluate_eq_outcomeWith.trans h.outcome

theorem isSettled_of_reduces {e : Expr} {r : Reduction Scalar}
    (h : Reduces (meaning bindings) e r) : r.IsSettled := by
  cases h with
  | @binary op l r a b v ha hb hv =>
      rw [← Expr.evaluate_eq_outcomeWith] at ha hb
      have hop : (Operator.ofSymbol? op).isSome := by
        cases hsymbol : Operator.ofSymbol? op with
        | none => rw [Operator.evaluate, hsymbol] at hv; cases hv
        | some => rfl
      exact ⟨hop, Expr.isSettled_evaluate ha, Expr.isSettled_evaluate hb,
        Scalar.isSettled_evaluateOperator hv⟩
  | @call name args vs v hvs hv =>
      exact ⟨Expr.isSettled_of_forall₂ (Expr.outcomesWith_meaning_eq_ok_iff.mp hvs),
        Scalar.isSettled_evaluateNamed hv⟩

/-- The reductions of nodes with values become the steps of the operations among them. -/
theorem completes_of_passes {nodes : List Expr} {reductions : List (Reduction Scalar)}
    {steps : List Step} (h : Passes (meaning bindings) nodes reductions (.ok ()))
    (hsteps : List.Forall₂ (fun r step => Step.ofReduction digits r = .ok step) reductions steps) :
    Completes digits bindings nodes steps := by
  generalize hdone : (.ok () : Except Error Unit) = done at h
  induction h generalizing steps with
  | nil =>
      cases hsteps
      exact ⟨List.forall_mem_nil _, .nil⟩
  | leaf hleaf hvalue _ ih =>
      obtain ⟨hvalues, hrecords⟩ := ih hsteps hdone
      rw [← Expr.evaluate_eq_outcomeWith] at hvalue
      refine ⟨List.forall_mem_cons.mpr ⟨⟨_, hvalue⟩, hvalues⟩, ?_⟩
      rwa [List.filter_cons_of_neg (by rw [hleaf]; exact Bool.false_ne_true)]
  | operation hreduces _ ih =>
      cases hsteps with
      | cons hstep hsteps =>
          obtain ⟨hvalues, hrecords⟩ := ih hsteps hdone
          refine ⟨List.forall_mem_cons.mpr ⟨⟨_, evaluate_of_reduces hreduces⟩, hvalues⟩, ?_⟩
          rw [List.filter_cons_of_pos hreduces.isOperation]
          exact .cons (records_of_reduces hreduces hstep) hrecords
  | failure => cases hdone

/-! ## Recording -/

/-- Each of the reductions has its step. -/
def Shown (digits : Datum) : List (Reduction Scalar) → List Step → Prop :=
  List.Forall₂ fun r step => Step.ofReduction digits r = .ok step

theorem runFrom_addShown (step : Datum → Except Cause Step) (past : List Step) :
    (addShown step).runFrom ⟨digits, past⟩ =
      match step digits with
      | .ok known => (.ok (), ⟨digits, past ++ [known]⟩)
      | .error cause => (.error (.of cause), ⟨digits, past⟩) := by
  change (Action.ofCause (step digits) >>= add).runFrom ⟨digits, past⟩ = _
  cases step digits <;> rfl

theorem runFrom_addReductions {reductions : List (Reduction Scalar)} {steps : List Step}
    (h : Shown digits reductions steps) (more : List (Reduction Scalar)) (past : List Step) :
    (addReductions (reductions ++ more)).runFrom ⟨digits, past⟩ =
      (addReductions more).runFrom ⟨digits, past ++ steps⟩ := by
  induction h generalizing past with
  | nil => rw [List.append_nil, List.nil_append]
  | @cons r step reductions steps hstep _ ih =>
      rw [List.cons_append, addReductions, runFrom_bind, runFrom_addShown, hstep]
      dsimp only
      rw [ih, List.append_assoc, List.singleton_append]

/-- Either all of the reductions have steps, or one behind some that have steps has none. -/
theorem exists_shown (digits : Datum) (reductions : List (Reduction Scalar)) :
    ∃ before steps, Shown digits before steps ∧
      (reductions = before ∨ ∃ r after cause, reductions = before ++ r :: after ∧
        Step.ofReduction digits r = .error cause) := by
  induction reductions with
  | nil => exact ⟨[], [], .nil, .inl rfl⟩
  | cons r reductions ih =>
      cases hstep : Step.ofReduction digits r with
      | error cause => exact ⟨[], [], .nil, .inr ⟨r, reductions, cause, rfl, hstep⟩⟩
      | ok step =>
          obtain ⟨before, steps, hshown, rfl | ⟨last, after, cause, rfl, hlast⟩⟩ := ih
          · exact ⟨r :: reductions, step :: steps, .cons hstep hshown, .inl rfl⟩
          · exact ⟨r :: before, step :: steps, .cons hstep hshown,
              .inr ⟨last, after, cause, rfl, hlast⟩⟩

theorem exists_getLast? {β γ : Type} {R : β → γ → Prop} {front : List β} {last : β} {items : List γ}
    (h : List.Forall₂ R (front ++ [last]) items) :
    ∃ item, items.getLast? = some item ∧ R last item := by
  have hreverse := List.forall₂_reverse_iff.mpr h
  rw [List.reverse_append, List.reverse_singleton, List.singleton_append,
    List.forall₂_cons_left_iff] at hreverse
  obtain ⟨item, _, hitem, -, hitems⟩ := hreverse
  refine ⟨item, ?_, hitem⟩
  rw [← List.head?_reverse, hitems]
  rfl

/-- Steps that tell of all the reductions account for the outcome. -/
theorem accounts_of_passes {e : Expr} {reductions : List (Reduction Scalar)} {steps : List Step}
    (h : Passes (meaning bindings) e.postorder reductions ((e.evaluate bindings).map fun _ => ()))
    (hshown : Shown digits reductions steps) :
    Accounts digits bindings e steps (e.evaluate bindings) := by
  cases hvalue : e.evaluate bindings with
  | error err =>
      rw [hvalue] at h
      obtain ⟨before, failing, after, hnodes, hbefore, hfailing⟩ := h.failing
      rw [← Expr.evaluate_eq_outcomeWith] at hfailing
      exact .failure hnodes (completes_of_passes hbefore hshown) hfailing
  | ok v =>
      rw [hvalue] at h
      have hcompletes := completes_of_passes h hshown
      refine .value hcompletes fun hoperation => ?_
      -- the tree itself is the last of the operations
      obtain ⟨below, hbelow⟩ := e.exists_postorder
      have hrecords := hcompletes.records
      rw [hbelow, List.filter_append, List.filter_cons_of_pos hoperation,
        List.filter_nil] at hrecords
      obtain ⟨last, hlast, hrecord⟩ := exists_getLast? hrecords
      obtain ⟨r, hr, hresult⟩ := hrecord.exists_reduction
      have hroot : v = r.result := Except.ok.inj (hvalue.symm.trans (evaluate_of_reduces hr))
      exact ⟨last, hlast, hroot ▸ hresult⟩

/-- A traced evaluation has the outcome of the evaluation without a trace and appends the steps
that account for it; with a number of digits that is refused it may end at a step that cannot be
shown. -/
theorem evaluate_accounts (bindings : Table (Binding Scalar)) (e : Expr) (count : Option Int)
    (past : List Step) :
    ∃ steps outcome, (evaluate bindings e).runFrom ⟨Digits count, past⟩ =
        (outcome, ⟨Digits count, past ++ steps⟩) ∧
      (outcome = e.evaluate bindings ∧ Accounts (Digits count) bindings e steps outcome ∨
        Interrupts count bindings e steps outcome) := by
  obtain ⟨reductions, htraced, hpasses⟩ := exists_evaluateTraced bindings e
  have hrun : (evaluate bindings e).runFrom ⟨Digits count, past⟩ =
      (addReductions reductions >>= fun _ => Action.ofExcept (e.evaluate bindings)).runFrom
        ⟨Digits count, past⟩ := by
    unfold evaluate
    rw [htraced]
  obtain ⟨before, steps, hshown, rfl | ⟨r, after, cause, rfl, hr⟩⟩ :=
    exists_shown (Digits count) reductions
  · refine ⟨steps, e.evaluate bindings, ?_, .inl ⟨rfl, accounts_of_passes hpasses hshown⟩⟩
    have hall := runFrom_addReductions hshown [] past
    rw [List.append_nil] at hall
    rw [hrun, runFrom_bind, hall]
    rfl
  · obtain ⟨nodes, node, behind, hnodes, hbefore, hnode⟩ := hpasses.reducing
    obtain ⟨n, hn, hrefusal⟩ := Step.failsOnly_ofReduction (isSettled_of_reduces hnode) _ hr
    refine ⟨steps, .error (.of cause), ?_, .inr ?_⟩
    · rw [hrun, runFrom_bind, runFrom_addReductions hshown, addReductions, runFrom_bind,
        runFrom_addShown, hr]
    · exact .unshown hnodes (completes_of_passes hbefore hshown) hnode.isOperation
        (evaluate_of_reduces hnode) hn hrefusal

example : (evaluate [] (.binary "+" (.number 1.0) (.number 2.0))).runFrom
    ⟨.number (.whole 2147483648), []⟩ =
      (.error (.of .precisionTooBig), ⟨.number (.whole 2147483648), []⟩) := rfl

end Trace

end Reckoner
