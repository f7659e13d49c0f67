import Reckoner.Proofs.Expr.Position
import Reckoner.Proofs.Scope.Unfolding

/-!
# Circular definitions

A name is called circular only if it is needed for its own value: it lies on a cycle of names that
need each other, and the expression leads to it. Where an expression leads to such a cycle it has no
value, since names that have values rest on each other without cycles. So evaluation ends, it calls a
name circular exactly where unfolding never ends, and everything else comes out as unfolding has it.
-/

namespace Reckoner

/-! ## Other errors -/

theorem not_isCircular_of_isOfNode {cause : Cause} (h : cause.IsOfNode) :
    ¬ (Error.of cause).IsCircular := by
  cases cause with
  | arithmetic fault => cases fault <;> exact fun hcircular => by cases hcircular
  | _ => first | exact h.elim | exact fun hcircular => by cases hcircular

section Others

variable {p : Error → Prop} (hp : ∀ err : Error, ¬ err.IsCircular → p err)

include hp

theorem failsOnly_adopt (value : Scalar) :
    FailsOnly p ((Arithmetic.adopt value : Except Cause Scalar).mapError .of) := by
  have hfault (fault : Fault) : ¬ (Error.of (.arithmetic fault)).IsCircular :=
    not_isCircular_of_isOfNode trivial
  exact FailsOnly.mapError (Scalar.failsOnly_faulty (fun fault => hp _ (hfault fault)) _)

theorem nodesFailOnly_of_not_isCircular : Expr.NodesFailOnly Scalar p :=
  Scalar.nodesFailOnly fun _ hcause => hp _ (not_isCircular_of_isOfNode hcause)

theorem failsOnly_expression {α : Type} (binding : Binding α) (name : String) :
    FailsOnly p (binding.expression name) := by
  cases binding with
  | number | other => exact failsOnly_error (hp _ fun h => by cases h)
  | tree e => exact failsOnly_ok e
  | text source =>
      intro err herr
      have hkind := (Expr.isRefusalOf_of_ofText herr).kind
      refine hp err fun hcircular => ?_
      rw [Error.IsCircular] at hcircular
      rw [hcircular] at hkind
      rcases hkind with h | h <;> cases h

end Others

variable {bindings : Table (Binding Scalar)}

/-- Unfolding that ends calls nothing circular, whatever would happen beyond its depth. -/
theorem failsOnly_unfoldOr {beyond : String → Except Error Scalar}
    (hbeyond : ∀ name, FailsOnly (fun err => ¬ err.IsCircular) (beyond name)) (depth : Nat)
    (name : String) :
    FailsOnly (fun err => ¬ err.IsCircular) (unfoldOr beyond bindings depth name) := by
  induction depth generalizing name with
  | zero => exact hbeyond name
  | succ depth ih =>
      rw [unfoldOr]
      split
      case h_1 => exact failsOnly_error fun h => by cases h
      case h_2 => exact failsOnly_adopt (fun _ h => h) _
      case h_3 binding _ _ =>
          exact (failsOnly_expression (fun _ h => h) binding name).bind fun e _ =>
            Expr.failsOnly_outcomeWith (nodesFailOnly_of_not_isCircular fun _ h => h) ih e

theorem Expr.UnfoldsTo.failsOnly {e : Expr} {outcome : Except Error Scalar}
    (h : e.UnfoldsTo bindings outcome) : FailsOnly (fun err => ¬ err.IsCircular) outcome := by
  obtain ⟨depth, hdepth⟩ := h
  rw [← hdepth fun _ => .error (.of .blankOperation)]
  have hblank : ¬ (Error.of .blankOperation).IsCircular := fun h => by cases h
  exact failsOnly_outcomeWith (nodesFailOnly_of_not_isCircular fun _ h => h)
    (failsOnly_unfoldOr (fun _ => failsOnly_error hblank) depth) e

/-- Unfolding ends where evaluation calls nothing circular, with the same outcome. -/
theorem Expr.unfoldsTo_iff {e : Expr} {outcome : Except Error Scalar} :
    e.UnfoldsTo bindings outcome ↔
      e.evaluate bindings = outcome ∧ FailsOnly (fun err => ¬ err.IsCircular) outcome := by
  constructor
  · exact fun h => ⟨h.evaluate_eq h.failsOnly, h.failsOnly⟩
  · rintro ⟨rfl, h⟩
    exact unfoldsTo_of_evaluate h

/-! ## Cycles -/

/-- The name is needed for its own value. -/
def IsCyclic {α : Type} (bindings : Table (Binding α)) (name : String) : Prop :=
  Relation.TransGen (Needs bindings) name name

/-- The value of the expression needs the name, by way of any number of others. -/
def Expr.Reaches {α : Type} (bindings : Table (Binding α)) (e : Expr) (name : String) : Prop :=
  ∃ free, e.IsFree free ∧ Relation.ReflTransGen (Needs bindings) free name

/-- By induction on the depth: all names that are marked wait for the name, so a name that is
needed while it is marked is needed for its own value. -/
theorem isCyclic_of_meaningWithin {depth : Nat} {path : List String} {name : String}
    (hroom : Room bindings depth path) (hawait : Await bindings path name) :
    FailsOnly (fun err => err.IsCircular → ∃ other, Relation.ReflTransGen (Needs bindings) name other ∧
      IsCyclic bindings other ∧ err = .of (.circularDefinition other))
      (meaningWithin bindings depth path name) := by
  induction depth generalizing path name with
  | zero =>
      obtain ⟨depth, hdepth⟩ := hroom.exists_succ
      cases hdepth
  | succ depth ih =>
      have hothers : ∀ {p : Error → Prop} (err : Error), ¬ err.IsCircular → err.IsCircular → p err :=
        fun err hnot h => absurd h hnot
      cases hfind : bindings.find? name with
      | none =>
          rw [meaningWithin_none hfind]
          exact failsOnly_error fun h => by cases h
      | some binding =>
          by_cases hexpression : binding.IsExpression
          · rw [meaningWithin_expression hfind hexpression]
            split
            case isTrue hpath =>
                have hmarked : name ∈ path := by simpa using hpath
                exact failsOnly_error fun _ => ⟨name, .refl, hawait name hmarked, rfl⟩
            case isFalse hpath =>
                have hmarked : name ∉ path := by simpa using hpath
                refine (failsOnly_expression hothers binding name).bind fun e he => ?_
                refine Expr.failsOnly_outcomeWith_of_free (nodesFailOnly_of_not_isCircular hothers) e
                  fun next hmem hfree => ?_
                have hneeds : Needs bindings name next := ⟨binding, e, hfind, he, hmem, hfree⟩
                refine (ih (hroom.cons hmarked hfind) (hawait.cons hneeds)).mono
                  fun err hcyclic hcircular => ?_
                obtain ⟨other, hreached, hother⟩ := hcyclic hcircular
                exact ⟨other, hreached.head hneeds, hother⟩
          · cases binding with
            | number value =>
                rw [meaningWithin_number hfind]
                exact failsOnly_adopt hothers value
            | _ => exact absurd trivial hexpression

theorem Expr.isCyclic_of_evaluate (e : Expr) :
    FailsOnly (fun err => err.IsCircular → ∃ name, e.Reaches bindings name ∧
      IsCyclic bindings name ∧ err = .of (.circularDefinition name)) (e.evaluate bindings) := by
  rw [evaluate_eq_outcomeWith]
  refine failsOnly_outcomeWith_of_free (nodesFailOnly_of_not_isCircular fun err hnot h => absurd h hnot) e
    fun free hmem hfree => ?_
  refine (isCyclic_of_meaningWithin room_nil (await_nil free)).mono fun err h hcircular => ?_
  obtain ⟨name, hreached, hname⟩ := h hcircular
  exact ⟨name, ⟨free, ⟨hmem, hfree⟩, hreached⟩, hname⟩

theorem Grounded.exists_of_needs {name other : String} {v : Scalar}
    (h : Grounded bindings name v) (hneeds : Needs bindings name other) :
    ∃ w, Grounded bindings other w := by
  obtain ⟨binding, e, hfind, he, hfree⟩ := hneeds
  cases h with
  | number hfind' _ =>
      rw [hfind] at hfind'
      cases hfind'
      cases he
  | expression hfind' he' hnames _ =>
      rw [hfind] at hfind'
      cases hfind'
      rw [he] at he'
      cases he'
      exact ⟨_, hnames other hfree⟩

/-- An expression that has a value needs no name for its own value. -/
theorem Expr.not_isCyclic_of_evaluate {e : Expr} {v : Scalar} (h : e.evaluate bindings = .ok v)
    {name : String} (hreached : e.Reaches bindings name) : ¬ IsCyclic bindings name := by
  obtain ⟨free, hfree, hpath⟩ := hreached
  rw [evaluate_eq_outcomeWith] at h
  obtain ⟨w, hw⟩ := exists_of_outcomeWith e h free hfree.1 hfree.2
  have hgrounded : ∃ value, Grounded bindings name value := by
    induction hpath with
    | refl => exact ⟨w, grounded_of_meaningWithin hw⟩
    | tail _ hneeds ih =>
        obtain ⟨value, hvalue⟩ := ih
        exact hvalue.exists_of_needs hneeds
  obtain ⟨value, hvalue⟩ := hgrounded
  exact hvalue.not_needs_self

/-- Evaluation ends within a depth that the number of bindings gives. If the expression reaches no
name that is needed for its own value, no name is called circular. If it reaches one, there is no
value: such a name is called circular, or there is another error, which unfolding comes to as well.
Altogether unfolding ends just where nothing is called circular. -/
theorem Expr.evaluate_circularity (bindings : Table (Binding Scalar)) (e : Expr) :
    (∀ beyond depth, bindings.length < depth →
      ((e.evaluateWith (lookupOr beyond bindings depth) false).runFrom .fresh).1 =
        e.evaluate bindings) ∧
    ((∀ name, e.Reaches bindings name → ¬ IsCyclic bindings name) →
      FailsOnly (fun err => ¬ err.IsCircular) (e.evaluate bindings)) ∧
    ((∃ name, e.Reaches bindings name ∧ IsCyclic bindings name) →
      ∃ err, e.evaluate bindings = .error err ∧
        ((∃ name, e.Reaches bindings name ∧ IsCyclic bindings name ∧
            err = .of (.circularDefinition name)) ∨
          ¬ err.IsCircular ∧ e.UnfoldsTo bindings (.error err))) ∧
    ∀ outcome, e.UnfoldsTo bindings outcome ↔
      e.evaluate bindings = outcome ∧ FailsOnly (fun err => ¬ err.IsCircular) outcome := by
  refine ⟨fun beyond depth hdepth => e.evaluateWith_lookupOr beyond hdepth, ?_, ?_,
    fun outcome => unfoldsTo_iff⟩
  · intro hacyclic err herr hcircular
    obtain ⟨name, hreached, hcyclic, -⟩ := e.isCyclic_of_evaluate err herr hcircular
    exact hacyclic name hreached hcyclic
  · rintro ⟨name, hreached, hcyclic⟩
    cases houtcome : e.evaluate bindings with
    | ok v => exact absurd hcyclic (not_isCyclic_of_evaluate houtcome hreached)
    | error err =>
        refine ⟨err, rfl, ?_⟩
        by_cases hcircular : err.IsCircular
        · exact .inl (e.isCyclic_of_evaluate err houtcome hcircular)
        · exact .inr ⟨hcircular, unfoldsTo_iff.mpr ⟨houtcome, failsOnly_error hcircular⟩⟩

end Reckoner
