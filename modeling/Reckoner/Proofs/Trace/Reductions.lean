import Reckoner.Proofs.Scope.Memory

/-!
# What evaluation notes

Evaluation goes through the nodes of a tree in post-order. It notes one reduction for each operator
and each call that gets a value, and ends at the first node without one. The expressions that
variables stand for are evaluated on the way, but nothing of them is noted.
-/

namespace Reckoner

open Reckoner.Action

variable {α : Type} [Arithmetic α]

namespace Expr

mutual

/-- The nodes of a tree, each behind those below it. -/
def postorder : Expr → List Expr
  | negate e => postorder e ++ [negate e]
  | binary op l r => postorder l ++ (postorder r ++ [binary op l r])
  | call name args => postorderAll args ++ [call name args]
  | e => [e]

/-- The nodes of arguments. -/
def postorderAll : List Expr → List Expr
  | [] => []
  | e :: rest => postorder e ++ postorderAll rest

end

/-- Operators and calls. -/
def isOperation : Expr → Bool
  | binary .. | call .. => true
  | _ => false

/-- A tree is the last of its nodes. -/
theorem exists_postorder (e : Expr) : ∃ below, e.postorder = below ++ [e] := by
  cases e with
  | binary op l r => exact ⟨_, (List.append_assoc ..).symm⟩
  | negate e => exact ⟨_, rfl⟩
  | call name args => exact ⟨_, rfl⟩
  | _ => exact ⟨[], rfl⟩

end Expr

/-- The reduction of an operation whose operands have values. -/
inductive Reduces (values : String → Except Error α) : Expr → Reduction α → Prop
  | binary {op : String} {l r : Expr} {a b v : α} :
    l.outcomeWith values = .ok a → r.outcomeWith values = .ok b →
    Operator.evaluate op a b = .ok v → Reduces values (.binary op l r) (.binary op a b v)
  | call {name : String} {args : List Expr} {vs : List α} {v : α} :
    Expr.outcomesWith values args = .ok vs → Function.evaluateNamed name vs = .ok v →
    Reduces values (.call name args) (.call name vs v)

theorem Reduces.isOperation {values : String → Except Error α} {e : Expr} {r : Reduction α}
    (h : Reduces values e r) : e.isOperation = true := by
  cases h <;> rfl

/-- What an operation comes to. -/
def Reduction.result : Reduction α → α
  | .binary _ _ _ v | .call _ _ v => v

theorem Reduces.outcome {values : String → Except Error α} {e : Expr} {r : Reduction α}
    (h : Reduces values e r) : e.outcomeWith values = .ok r.result := by
  cases h with
  | binary ha hb hv =>
      rw [Expr.outcomeWith, ha, bind_ok, hb, bind_ok, hv]
      rfl
  | call hvs hv =>
      rw [Expr.outcomeWith, hvs, bind_ok, hv]
      rfl

/-- The reductions of nodes that get values one after another, and the error of the first one that
gets none. -/
inductive Passes (values : String → Except Error α) :
    List Expr → List (Reduction α) → Except Error Unit → Prop
  | nil : Passes values [] [] (.ok ())
  | leaf {e : Expr} {v : α} {rest : List Expr} {reductions : List (Reduction α)}
    {outcome : Except Error Unit} : e.isOperation = false → e.outcomeWith values = .ok v →
    Passes values rest reductions outcome → Passes values (e :: rest) reductions outcome
  | operation {e : Expr} {r : Reduction α} {rest : List Expr} {reductions : List (Reduction α)}
    {outcome : Except Error Unit} : Reduces values e r →
    Passes values rest reductions outcome → Passes values (e :: rest) (r :: reductions) outcome
  | failure {e : Expr} {err : Error} {rest : List Expr} : e.outcomeWith values = .error err →
    Passes values (e :: rest) [] (.error err)

section Passes

variable {values : String → Except Error α} {nodes others : List Expr}
  {reductions more : List (Reduction α)} {outcome : Except Error Unit} {err : Error}

theorem Passes.append (h : Passes values nodes reductions (.ok ()))
    (hmore : Passes values others more outcome) :
    Passes values (nodes ++ others) (reductions ++ more) outcome := by
  generalize hdone : (.ok () : Except Error Unit) = done at h
  induction h with
  | nil => exact hmore
  | leaf hleaf hvalue _ ih => exact .leaf hleaf hvalue (ih hdone)
  | operation hreduces _ ih => exact .operation hreduces (ih hdone)
  | failure => cases hdone

theorem Passes.stop (h : Passes values nodes reductions (.error err)) (others : List Expr) :
    Passes values (nodes ++ others) reductions (.error err) := by
  generalize hdone : (.error err : Except Error Unit) = done at h ⊢
  induction h with
  | nil => cases hdone
  | leaf hleaf hvalue _ ih => exact .leaf hleaf hvalue (ih hdone)
  | operation hreduces _ ih => exact .operation hreduces (ih hdone)
  | failure herr => exact .failure herr

/-- Behind the nodes that got values comes the one that fails. -/
theorem Passes.failing (h : Passes values nodes reductions (.error err)) :
    ∃ before failing after, nodes = before ++ failing :: after ∧
      Passes values before reductions (.ok ()) ∧ failing.outcomeWith values = .error err := by
  generalize hdone : (.error err : Except Error Unit) = done at h
  induction h with
  | nil => cases hdone
  | leaf hleaf hvalue _ ih =>
      obtain ⟨before, failing, after, rfl, hbefore, hfailing⟩ := ih hdone
      exact ⟨_ :: before, failing, after, rfl, .leaf hleaf hvalue hbefore, hfailing⟩
  | operation hreduces _ ih =>
      obtain ⟨before, failing, after, rfl, hbefore, hfailing⟩ := ih hdone
      exact ⟨_ :: before, failing, after, rfl, .operation hreduces hbefore, hfailing⟩
  | failure herr =>
      cases hdone
      exact ⟨[], _, _, rfl, .nil, herr⟩

/-- Behind the nodes whose reductions come first stands the one that the next reduction is of. -/
theorem Passes.reducing {r : Reduction α}
    (h : Passes values nodes (reductions ++ r :: more) outcome) :
    ∃ before node after, nodes = before ++ node :: after ∧
      Passes values before reductions (.ok ()) ∧ Reduces values node r := by
  generalize hall : reductions ++ r :: more = all at h
  induction h generalizing reductions with
  | nil => cases reductions <;> cases hall
  | leaf hleaf hvalue _ ih =>
      obtain ⟨before, node, after, rfl, hbefore, hnode⟩ := ih hall
      exact ⟨_ :: before, node, after, rfl, .leaf hleaf hvalue hbefore, hnode⟩
  | operation hreduces _ ih =>
      cases reductions with
      | nil =>
          cases hall
          exact ⟨[], _, _, rfl, .nil, hreduces⟩
      | cons first reductions =>
          rw [List.cons_append] at hall
          injection hall with hfirst hrest
          subst hfirst
          obtain ⟨before, node, after, rfl, hbefore, hnode⟩ := ih hrest
          exact ⟨_ :: before, node, after, rfl, .operation hreduces hbefore, hnode⟩
  | failure => cases reductions <;> cases hall

end Passes

/-! ## Computations that note nothing -/

section Keeps

variable {β γ : Type}

/-- The computation notes nothing, whether it answers or fails. -/
def Keeps (a : Run α β) : Prop := ∀ m, (a.runFrom m).2.reductions = m.reductions

omit [Arithmetic α] in
theorem keeps_ofExcept (outcome : Except Error β) : Keeps (Action.ofExcept outcome : Run α β) :=
  fun _ => rfl

omit [Arithmetic α] in
theorem keeps_pure (v : β) : Keeps (pure v : Run α β) := fun _ => rfl

omit [Arithmetic α] in
theorem Keeps.bind {a : Run α β} {f : β → Run α γ} (h : Keeps a) (hf : ∀ v, Keeps (f v)) :
    Keeps (a >>= f) := by
  intro m
  have hm := h m
  rw [runFrom_bind]
  cases hrun : a.runFrom m with
  | mk outcome t =>
      rw [hrun] at hm
      cases outcome with
      | error => exact hm
      | ok v => exact (hf v t).trans hm

omit [Arithmetic α] in
theorem Keeps.whilePending {name : String} {a : Run α β} (h : Keeps a) :
    Keeps (Run.whilePending name a) := fun m => h { m with pending := name :: m.pending }

omit [Arithmetic α] in
theorem keeps_resolve {name : String} {expression : Unit → Except Error Expr}
    {evaluate : Expr → Run α α} (h : ∀ e, Keeps (evaluate e)) :
    Keeps (Run.resolve name expression evaluate) := by
  intro m
  rw [runFrom_resolve]
  cases m.resolved.find? name with
  | some v => rfl
  | none =>
      dsimp only
      split
      case isTrue => rfl
      case isFalse =>
          have hremember : ∀ v : α, Keeps (Run.remember name v) := fun _ _ => rfl
          exact ((keeps_ofExcept _).bind fun e => (h e).whilePending.bind fun v =>
            (hremember v).bind fun _ => keeps_pure v) m

mutual

/-- Evaluation that is not to be noted notes nothing. -/
theorem keeps_evaluateWith {lookup : String → Run α α} (h : ∀ name, Keeps (lookup name)) :
    ∀ e : Expr, Keeps (e.evaluateWith lookup false)
  | .number _ | .imaginary _ => keeps_pure _
  | .constant name => by
      rw [Expr.evaluateWith]
      split
      case h_1 => exact keeps_pure _
      case h_2 => exact keeps_ofExcept _
  | .var name => by
      rw [Expr.evaluateWith]
      split
      case h_1 => exact keeps_pure _
      case h_2 => exact h name
  | .negate e => by
      rw [Expr.evaluateWith]
      exact (keeps_evaluateWith h e).bind fun _ => keeps_pure _
  | .binary op l r => by
      rw [Expr.evaluateWith]
      exact (keeps_evaluateWith h l).bind fun _ => (keeps_evaluateWith h r).bind fun _ =>
        (keeps_ofExcept _).bind fun _ => keeps_pure _
  | .call name args => by
      rw [Expr.evaluateWith]
      exact (keeps_evaluateAllWith h args).bind fun _ =>
        (keeps_ofExcept _).bind fun _ => keeps_pure _
  | .blank | .foreign .. => keeps_ofExcept _

theorem keeps_evaluateAllWith {lookup : String → Run α α} (h : ∀ name, Keeps (lookup name)) :
    ∀ es : List Expr, Keeps (Expr.evaluateAllWith lookup false es)
  | [] => keeps_pure _
  | e :: rest => by
      rw [Expr.evaluateAllWith]
      exact (keeps_evaluateWith h e).bind fun _ =>
        (keeps_evaluateAllWith h rest).bind fun _ => keeps_pure _

end

theorem keeps_lookupWithin (bindings : Table (Binding α)) (depth : Nat) (name : String) :
    Keeps (lookupWithin bindings depth name) := by
  induction depth generalizing name with
  | zero => exact keeps_ofExcept _
  | succ depth ih =>
      rw [lookupWithin]
      split
      case h_1 => exact keeps_ofExcept _
      case h_2 => exact keeps_ofExcept _
      case h_3 => exact keeps_resolve fun e => keeps_evaluateWith ih e

end Keeps

/-! ## Walking through a tree -/

section Walks

variable {inv : Memory α → Prop} {values : String → Except Error α} {β γ : Type}

/-- From every memory that meets the condition the computation has the outcome and passes the
nodes: it notes what they reduce to, on top of what was noted before. -/
def Walks (inv : Memory α → Prop) (values : String → Except Error α) (a : Run α β)
    (nodes : List Expr) (outcome : Except Error β) : Prop :=
  ∃ reductions, Passes values nodes reductions (outcome.map fun _ => ()) ∧
    ∀ m, inv m → (a.runFrom m).1 = outcome ∧ inv (a.runFrom m).2 ∧
      (a.runFrom m).2.reductions = reductions.reverse ++ m.reductions

theorem walks_nothing (v : β) : Walks inv values (pure v : Run α β) [] (.ok v) :=
  ⟨[], .nil, fun _ hm => ⟨rfl, hm, rfl⟩⟩

theorem Walks.bind {a : Run α β} {f : β → Run α γ} {g : β → Except Error γ}
    {nodes others : List Expr} {outcome : Except Error β} (h : Walks inv values a nodes outcome)
    (hf : ∀ v, outcome = .ok v → Walks inv values (f v) others (g v)) :
    Walks inv values (a >>= f) (nodes ++ others) (outcome >>= g) := by
  obtain ⟨reductions, hpasses, hrun⟩ := h
  cases outcome with
  | error err =>
      refine ⟨reductions, hpasses.stop others, fun m hm => ?_⟩
      obtain ⟨houtcome, hinv, hnoted⟩ := hrun m hm
      rw [runFrom_bind]
      cases hresult : a.runFrom m with
      | mk found t =>
          rw [hresult] at houtcome hinv hnoted
          subst houtcome
          exact ⟨rfl, hinv, hnoted⟩
  | ok v =>
      obtain ⟨more, hmore, hnext⟩ := hf v rfl
      refine ⟨reductions ++ more, hpasses.append hmore, fun m hm => ?_⟩
      obtain ⟨houtcome, hinv, hnoted⟩ := hrun m hm
      rw [runFrom_bind]
      cases hresult : a.runFrom m with
      | mk found t =>
          rw [hresult] at houtcome hinv hnoted
          subst houtcome
          obtain ⟨hlast, hinv, hall⟩ := hnext t hinv
          refine ⟨hlast, hinv, hall.trans ?_⟩
          change t.reductions = _ at hnoted
          rw [hnoted, List.reverse_append, List.append_assoc]

/-- A node that is no operation is passed without a note. -/
theorem walks_leaf {a : Run α α} {e : Expr} {outcome : Except Error α}
    (hgives : Gives inv a outcome) (hkeeps : Keeps a) (hleaf : e.isOperation = false)
    (houtcome : e.outcomeWith values = outcome) : Walks inv values a [e] outcome := by
  refine ⟨[], ?_, fun m hm => ⟨(hgives m hm).1, (hgives m hm).2, hkeeps m⟩⟩
  cases outcome with
  | error err => exact .failure houtcome
  | ok v => exact .leaf hleaf houtcome .nil

/-- An operation whose operands have values is noted with its own value. -/
theorem walks_operation (hnote : ∀ m reductions, inv m → inv { m with reductions }) {e : Expr}
    {result : Except Cause α} {reduction : α → Reduction α}
    (houtcome : e.outcomeWith values = result.mapError .of)
    (hreduces : ∀ v, result = .ok v → Reduces values e (reduction v)) :
    Walks inv values (do
      let v ← Action.ofCause result
      Run.note true (reduction v)
      return v) [e] (result.mapError .of) := by
  cases result with
  | error cause => exact ⟨[], .failure houtcome, fun m hm => ⟨rfl, hm, rfl⟩⟩
  | ok v =>
      exact ⟨[reduction v], .operation (hreduces v rfl) .nil,
        fun m hm => ⟨rfl, hnote m _ hm, rfl⟩⟩

variable {lookup : String → Run α α}

mutual

/-- Evaluation passes the nodes of the tree in post-order. -/
theorem walks_evaluateWith (hnote : ∀ m reductions, inv m → inv { m with reductions })
    (hkeeps : ∀ name, Keeps (lookup name))
    (hlookup : ∀ name, Gives inv (lookup name) (values name)) :
    ∀ e : Expr, Walks inv values (e.evaluateWith lookup true) e.postorder (e.outcomeWith values)
  | .number x => walks_leaf (gives_pure _) (keeps_pure _) rfl rfl
  | .imaginary x => walks_leaf (gives_pure _) (keeps_pure _) rfl rfl
  | .constant name => by
      cases hconstant : Constant.ofName? name with
      | some c =>
          simp only [Expr.evaluateWith, Expr.outcomeWith, hconstant]
          refine walks_leaf (gives_pure _) (keeps_pure _) rfl ?_
          simp only [Expr.outcomeWith, hconstant]
      | none =>
          simp only [Expr.evaluateWith, Expr.outcomeWith, hconstant]
          refine walks_leaf (gives_ofExcept _) (keeps_ofExcept _) rfl ?_
          simp only [Expr.outcomeWith, hconstant]
  | .var name => by
      cases hconstant : Constant.ofName? name with
      | some c =>
          simp only [Expr.evaluateWith, Expr.outcomeWith, hconstant]
          refine walks_leaf (gives_pure _) (keeps_pure _) rfl ?_
          simp only [Expr.outcomeWith, hconstant]
      | none =>
          simp only [Expr.evaluateWith, Expr.outcomeWith, hconstant]
          refine walks_leaf (hlookup name) (hkeeps name) rfl ?_
          simp only [Expr.outcomeWith, hconstant]
  | .negate e => by
      rw [Expr.evaluateWith, Expr.postorder, Expr.outcomeWith]
      refine (walks_evaluateWith hnote hkeeps hlookup e).bind fun v hv => ?_
      refine walks_leaf (gives_pure _) (keeps_pure _) rfl ?_
      rw [Expr.outcomeWith, hv, bind_ok]
  | .binary op l r => by
      rw [Expr.evaluateWith, Expr.postorder, Expr.outcomeWith]
      refine (walks_evaluateWith hnote hkeeps hlookup l).bind fun a ha =>
        (walks_evaluateWith hnote hkeeps hlookup r).bind fun b hb => ?_
      refine walks_operation hnote ?_ fun v hv => .binary ha hb hv
      rw [Expr.outcomeWith, ha, bind_ok, hb, bind_ok]
  | .call name args => by
      rw [Expr.evaluateWith, Expr.postorder, Expr.outcomeWith]
      refine (walks_evaluateAllWith hnote hkeeps hlookup args).bind fun vs hvs => ?_
      refine walks_operation hnote ?_ fun v hv => .call hvs hv
      rw [Expr.outcomeWith, hvs, bind_ok]
  | .blank => walks_leaf (gives_ofExcept _) (keeps_ofExcept _) rfl rfl
  | .foreign .. => walks_leaf (gives_ofExcept _) (keeps_ofExcept _) rfl rfl

theorem walks_evaluateAllWith (hnote : ∀ m reductions, inv m → inv { m with reductions })
    (hkeeps : ∀ name, Keeps (lookup name))
    (hlookup : ∀ name, Gives inv (lookup name) (values name)) :
    ∀ es : List Expr, Walks inv values (Expr.evaluateAllWith lookup true es)
      (Expr.postorderAll es) (Expr.outcomesWith values es)
  | [] => walks_nothing _
  | e :: rest => by
      rw [Expr.evaluateAllWith, Expr.postorderAll, Expr.outcomesWith]
      refine (walks_evaluateWith hnote hkeeps hlookup e).bind fun v _ => ?_
      rw [← List.append_nil (Expr.postorderAll rest)]
      exact (walks_evaluateAllWith hnote hkeeps hlookup rest).bind fun vs _ => walks_nothing _

end

end Walks

/-- Noting changes no outcome, and the reductions that are noted are those of the nodes in
post-order. -/
theorem exists_evaluateTraced (bindings : Table (Binding α)) (e : Expr) :
    ∃ reductions, e.evaluateTraced bindings = (e.evaluate bindings, reductions) ∧
      Passes (meaning bindings) e.postorder reductions ((e.evaluate bindings).map fun _ => ()) := by
  rw [e.evaluate_eq_outcomeWith]
  obtain ⟨reductions, hpasses, hrun⟩ :=
    walks_evaluateWith (fun _ r hm => hm.note r) (fun _ => keeps_lookupWithin bindings _ _)
      (gives_lookup bindings) e
  obtain ⟨houtcome, -, hnoted⟩ := hrun _ sound_fresh
  refine ⟨reductions, ?_, hpasses⟩
  change ((e.evaluateIn bindings true).runFrom Memory.fresh).1 = _ at houtcome
  change ((e.evaluateIn bindings true).runFrom Memory.fresh).2.reductions = _ at hnoted
  refine Prod.ext houtcome ?_
  change ((e.evaluateIn bindings true).runFrom Memory.fresh).2.reductions.reverse = _
  rw [hnoted, Memory.fresh, List.append_nil, List.reverse_reverse]

end Reckoner
