import Reckoner.Proofs.Expr.Search
import Reckoner.Proofs.Program.Folding
import Reckoner.Proofs.Scope.Circularity
import Mathlib.Order.Bounds.Defs

/-!
# Names that matter

The names that an expression reaches are the least set that has its free variables and, with each
name that stands for an expression, the free variables of that one. Nothing else in the bindings
matters: bindings that agree on these names give the same outcome, and an undefined variable is one
of these names. Preparing a program looks no name up, so all of this goes for programs as well.
-/

namespace Reckoner

/-! ## The names that are reached -/

section Reached

variable {α : Type} {bindings : Table (Binding α)} {e : Expr}

/-- A set of names that has the free variables of an expression and, with each name that stands for
an expression, those of that one. -/
structure Expr.IsCoveredBy (bindings : Table (Binding α)) (e : Expr) (names : Set String) :
    Prop where
  free : ∀ name ∈ e.freeVariables, name ∈ names
  bound : ∀ owner ∈ names, ∀ binding tree, bindings.find? owner = some binding →
    binding.expression owner = .ok tree → ∀ name ∈ tree.freeVariables, name ∈ names

theorem Expr.Reaches.needs {owner name : String} (h : e.Reaches bindings owner)
    (hneeds : Needs bindings owner name) : e.Reaches bindings name := by
  obtain ⟨free, hfree, hpath⟩ := h
  exact ⟨free, hfree, hpath.tail hneeds⟩

theorem Expr.isLeast_reaches (bindings : Table (Binding α)) (e : Expr) :
    IsLeast {names | e.IsCoveredBy bindings names} {name | e.Reaches bindings name} := by
  constructor
  · constructor
    · exact fun name hname => ⟨name, mem_freeVariables.mp hname, .refl⟩
    · intro owner howner binding tree hfind htree name hname
      exact howner.needs ⟨binding, tree, hfind, htree, mem_freeVariables.mp hname⟩
  · rintro names hcovered name ⟨free, hfree, hpath⟩
    induction hpath with
    | refl => exact hcovered.free free (mem_freeVariables.mpr hfree)
    | tail _ hneeds ih =>
        obtain ⟨binding, tree, hfind, htree, hnext⟩ := hneeds
        exact hcovered.bound _ ih binding tree hfind htree _ (mem_freeVariables.mpr hnext)

variable [Arithmetic α]

theorem Expr.evaluate_of_reached {others : Table (Binding α)}
    (h : ∀ name, e.Reaches bindings name → bindings.find? name = others.find? name) :
    e.evaluate bindings = e.evaluate others := by
  rw [evaluate_eq_outcomeWith, evaluate_eq_outcomeWith]
  refine outcomeWith_congr e fun name hname hfree => ?_
  exact meaningWithin_congr h (fun _ _ howner hneeds => howner.needs hneeds) (fun _ _ => Iff.rfl)
    room_nil room_nil ⟨name, ⟨hname, hfree⟩, .refl⟩

end Reached

/-! ## Undefined variables -/

variable {bindings : Table (Binding Scalar)}

/-- An undefined variable that the error is about is reached by the expression and not bound. -/
def Error.MissesFrom (bindings : Table (Binding Scalar)) (e : Expr) (err : Error) : Prop :=
  ∀ name, err.cause = .undefinedVariable name →
    e.Reaches bindings name ∧ bindings.find? name = none

theorem Expr.missesFrom_evaluate (e : Expr) :
    FailsOnly (Error.MissesFrom bindings e) (e.evaluate bindings) := by
  have hbound (err : Error) (h : err.IsBound) : err.MissesFrom bindings e :=
    fun name hcause => absurd hcause (h name)
  rw [evaluate_eq_outcomeWith]
  refine failsOnly_outcomeWith_of_free
    (Scalar.nodesFailOnly fun _ h => hbound _ (isBound_of_isOfNode h)) e fun free hname hfree => ?_
  refine (misses_meaning free).mono fun err hmisses name hcause => ?_
  obtain ⟨hnone, hpath⟩ := hmisses name hcause
  exact ⟨⟨free, ⟨hname, hfree⟩, hpath⟩, hnone⟩

/-! ## Programs -/

namespace Program

theorem missesFrom_outcome (codegen : Bool) (e : Expr) :
    FailsOnly (Error.MissesFrom bindings e) (outcome codegen e bindings) := by
  rw [outcome_eq]
  have hown : HasOwn Error.IsBound := fun _ h => h
  refine ((hown.failsOnly_ofExpr codegen e).mono fun err h name hcause => ?_).bind fun _ _ =>
    e.missesFrom_evaluate
  exact absurd hcause (h name)

end Program

/-- Only the names matter that an expression reaches: the least set with its free variables and,
with each name that stands for an expression, the free variables of that one. Bindings that agree
on them give the expression and its programs the same outcome. An undefined variable is one of them
that is not bound, so nothing is called undefined if all of them are bound. The free variables are
those that the search with a stack notes: each one once, in the order in which they first occur from
left to right. -/
theorem Expr.evaluate_relevant (bindings : Table (Binding Scalar)) (e : Expr) :
    IsLeast {names | e.IsCoveredBy bindings names} {name | e.Reaches bindings name} ∧
    (∀ others : Table (Binding Scalar),
      (∀ name, e.Reaches bindings name → bindings.find? name = others.find? name) →
        e.evaluate bindings = e.evaluate others ∧
        ∀ codegen, Program.outcome codegen e bindings = Program.outcome codegen e others) ∧
    (FailsOnly (Error.MissesFrom bindings e) (e.evaluate bindings) ∧
      ∀ codegen, FailsOnly (Error.MissesFrom bindings e) (Program.outcome codegen e bindings)) ∧
    ((∀ name, e.Reaches bindings name → bindings.find? name ≠ none) →
      FailsOnly Error.IsBound (e.evaluate bindings) ∧
      ∀ codegen, FailsOnly Error.IsBound (Program.outcome codegen e bindings)) ∧
    (search [] [e]).mapError Error.of = e.freeVariables? ∧
    e.freeVariables.Nodup ∧
    (∀ name, name ∈ e.freeVariables ↔ name ∈ e.names ∧ Constant.isName name = false) ∧
    e.freeVariables.Pairwise fun a b => e.names.idxOf a < e.names.idxOf b := by
  refine ⟨e.isLeast_reaches bindings, fun others hagree => ?_,
    ⟨e.missesFrom_evaluate, fun codegen => Program.missesFrom_outcome codegen e⟩,
    fun hbound => ?_, e.search_eq_freeVariables?, e.nodup_freeVariables,
    fun _ => mem_freeVariables, e.pairwise_freeVariables⟩
  · have hevaluate : e.evaluate bindings = e.evaluate others := evaluate_of_reached hagree
    refine ⟨hevaluate, fun codegen => ?_⟩
    rw [Program.outcome_eq, Program.outcome_eq, hevaluate]
  · have hnone (err : Error) (h : err.MissesFrom bindings e) : err.IsBound := fun name hcause =>
      hbound name (h name hcause).1 (h name hcause).2
    exact ⟨e.missesFrom_evaluate.mono hnone,
      fun codegen => (Program.missesFrom_outcome codegen e).mono hnone⟩

end Reckoner
