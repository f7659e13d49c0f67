import Reckoner.Proofs.Expr.Outcome
import Reckoner.Proofs.Table
import Mathlib.Data.List.Nodup
import Mathlib.Data.List.Lattice
import Mathlib.Logic.Relation

/-!
# The meaning of names

What a variable comes to among bindings if nothing is ever remembered: the names that wait for the
value of another one form a path, and a name that is needed again on its own path has no value.

A name that has a value in this way is grounded: it rests on finitely many other names, none of
which rests on it. So its value does not depend on the path on which it is needed. The depth is
never used up, since the names on a path are distinct names of the table.
-/

namespace Reckoner

variable {α : Type} [Arithmetic α] {bindings : Table (Binding α)}

/-- The outcome of a variable for which the names on a path wait. -/
def meaningWithin (bindings : Table (Binding α)) : Nat → List String → String → Except Error α
  | 0, _, name => .error (.of (.circularDefinition name))
  | depth + 1, path, name =>
    match bindings.find? name with
    | none => .error (.of (.undefinedVariable name))
    | some (.number value) => (Arithmetic.adopt value).mapError .of
    | some binding =>
      if path.contains name then .error (.of (.circularDefinition name))
      else binding.expression name >>= Expr.outcomeWith (meaningWithin bindings depth (name :: path))

/-- The outcome of a variable for which no other one waits. -/
def meaning (bindings : Table (Binding α)) (name : String) : Except Error α :=
  meaningWithin bindings (bindings.length + 1) [] name

theorem meaningWithin_none {name : String} (h : bindings.find? name = none) (depth : Nat)
    (path : List String) :
    meaningWithin bindings (depth + 1) path name = .error (.of (.undefinedVariable name)) := by
  simp only [meaningWithin, h]

theorem meaningWithin_number {name : String} {value : α}
    (h : bindings.find? name = some (.number value)) (depth : Nat) (path : List String) :
    meaningWithin bindings (depth + 1) path name = (Arithmetic.adopt value).mapError .of := by
  simp only [meaningWithin, h]

/-- A binding that is evaluated. -/
def Binding.IsExpression : Binding α → Prop
  | .number _ => False
  | _ => True

omit [Arithmetic α] in
theorem Binding.isExpression_of_expression {binding : Binding α} {name : String} {e : Expr}
    (h : binding.expression name = .ok e) : binding.IsExpression := by
  cases binding with
  | number => cases h
  | _ => trivial

theorem meaningWithin_expression {name : String} {binding : Binding α}
    (h : bindings.find? name = some binding) (hexpression : binding.IsExpression) (depth : Nat)
    (path : List String) :
    meaningWithin bindings (depth + 1) path name =
      if path.contains name then .error (.of (.circularDefinition name))
      else binding.expression name >>=
        Expr.outcomeWith (meaningWithin bindings depth (name :: path)) := by
  cases binding with
  | number => exact hexpression.elim
  | _ => simp only [meaningWithin, h]

/-! ## Paths -/

/-- The expression that the first name stands for has the second one free. -/
def Needs (bindings : Table (Binding α)) (owner name : String) : Prop :=
  ∃ binding e, bindings.find? owner = some binding ∧ binding.expression owner = .ok e ∧
    e.IsFree name

/-- The depth suffices for the names that are not on the path. -/
structure Room (bindings : Table (Binding α)) (depth : Nat) (path : List String) : Prop where
  nodup : path.Nodup
  bound : path ⊆ bindings.names
  room : bindings.length < depth + path.length

omit [Arithmetic α] in
theorem room_nil : Room bindings (bindings.length + 1) [] :=
  ⟨List.nodup_nil, List.nil_subset _, by simp⟩

omit [Arithmetic α] in
theorem Room.exists_succ {depth : Nat} {path : List String} (h : Room bindings depth path) :
    ∃ d, depth = d + 1 := by
  have hlength := h.nodup.length_le_of_subset h.bound
  have hroom := h.room
  rw [Table.names, List.length_map] at hlength
  exact ⟨depth - 1, by omega⟩

omit [Arithmetic α] in
theorem Room.cons {depth : Nat} {path : List String} {name : String} {binding : Binding α}
    (h : Room bindings (depth + 1) path) (hname : name ∉ path)
    (hfind : bindings.find? name = some binding) : Room bindings depth (name :: path) where
  nodup := List.nodup_cons.mpr ⟨hname, h.nodup⟩
  bound := by
    have hbound : name ∈ bindings.names := by
      by_contra hnot
      rw [Table.find?_eq_none_iff.mpr hnot] at hfind
      cases hfind
    exact List.cons_subset.mpr ⟨hbound, h.bound⟩
  room := by
    have hroom := h.room
    rw [List.length_cons]
    omega

/-- All names on the path wait for the name. -/
def Await (bindings : Table (Binding α)) (path : List String) (name : String) : Prop :=
  ∀ p ∈ path, Relation.TransGen (Needs bindings) p name

omit [Arithmetic α] in
theorem await_nil (name : String) : Await bindings [] name := fun _ h => by cases h

omit [Arithmetic α] in
theorem Await.cons {path : List String} {name other : String} (h : Await bindings path name)
    (hneeds : Needs bindings name other) : Await bindings (name :: path) other :=
  List.forall_mem_cons.mpr ⟨.single hneeds, fun p hp => (h p hp).tail hneeds⟩

/-! ## Tables that agree -/

/-- What a name means depends on nothing but the names that it can need: two tables that agree on
them give it the same outcome, on paths that agree on them. -/
theorem meaningWithin_congr {others : Table (Binding α)} {p : String → Prop}
    (hfind : ∀ name, p name → bindings.find? name = others.find? name)
    (hneeds : ∀ owner name, p owner → Needs bindings owner name → p name)
    {depth otherDepth : Nat} {path otherPath : List String}
    (hpath : ∀ name, p name → (name ∈ path ↔ name ∈ otherPath))
    (hroom : Room bindings depth path) (hotherRoom : Room others otherDepth otherPath)
    {name : String} (hname : p name) :
    meaningWithin bindings depth path name = meaningWithin others otherDepth otherPath name := by
  induction depth generalizing otherDepth path otherPath name with
  | zero =>
      obtain ⟨depth, hdepth⟩ := hroom.exists_succ
      cases hdepth
  | succ depth ih =>
      obtain ⟨otherDepth, rfl⟩ := hotherRoom.exists_succ
      have hsame := hfind name hname
      cases hbinding : bindings.find? name with
      | none =>
          rw [meaningWithin_none hbinding, meaningWithin_none (hsame ▸ hbinding)]
      | some binding =>
          have hother : others.find? name = some binding := hsame ▸ hbinding
          by_cases hexpression : binding.IsExpression
          · rw [meaningWithin_expression hbinding hexpression,
              meaningWithin_expression hother hexpression]
            have hcontains : path.contains name = otherPath.contains name := by
              rw [Bool.eq_iff_iff, List.contains_iff_mem, List.contains_iff_mem]
              exact hpath name hname
            rw [hcontains]
            split
            case isTrue => rfl
            case isFalse hnot =>
                have hnotOther : name ∉ otherPath := by simpa using hnot
                have hnotPath : name ∉ path := fun h => hnotOther ((hpath name hname).mp h)
                cases he : binding.expression name with
                | error e => rfl
                | ok e =>
                    refine Expr.outcomeWith_congr e fun free hmem hfree => ?_
                    refine ih (fun q hq => ?_) (hroom.cons hnotPath hbinding)
                      (hotherRoom.cons hnotOther hother)
                      (hneeds name free hname ⟨binding, e, hbinding, he, hmem, hfree⟩)
                    rw [List.mem_cons, List.mem_cons, hpath q hq]
          · cases binding with
            | number value =>
                rw [meaningWithin_number hbinding, meaningWithin_number hother]
            | _ => exact absurd trivial hexpression

/-! ## Grounded names -/

/-- The name has a value that rests on the values of finitely many names. -/
inductive Grounded (bindings : Table (Binding α)) : String → α → Prop
  | number {name : String} {value v : α} (hfind : bindings.find? name = some (.number value))
      (hvalue : Arithmetic.adopt value = .ok v) : Grounded bindings name v
  | expression {name : String} {binding : Binding α} {e : Expr} {values : String → α} {v : α}
      (hfind : bindings.find? name = some binding) (he : binding.expression name = .ok e)
      (hnames : ∀ other, e.IsFree other → Grounded bindings other (values other))
      (hvalue : e.outcomeWith (fun other => .ok (values other)) = .ok v) :
      Grounded bindings name v

theorem grounded_of_meaningWithin {depth : Nat} {path : List String} {name : String} {v : α}
    (h : meaningWithin bindings depth path name = .ok v) : Grounded bindings name v := by
  induction depth generalizing path name v with
  | zero => cases h
  | succ depth ih =>
      cases hfind : bindings.find? name with
      | none => rw [meaningWithin_none hfind] at h; cases h
      | some binding =>
          by_cases hexpression : binding.IsExpression
          · rw [meaningWithin_expression hfind hexpression] at h
            split at h
            case isTrue => cases h
            case isFalse =>
                obtain ⟨e, he, hvalue⟩ := exists_of_bind_eq_ok h
                have hnames := Expr.exists_of_outcomeWith e hvalue
                let values (other : String) : α :=
                  (meaningWithin bindings depth (name :: path) other).toOption.getD v
                have hvalues : ∀ other, e.IsFree other →
                    meaningWithin bindings depth (name :: path) other = .ok (values other) := by
                  intro other hother
                  obtain ⟨w, hw⟩ := hnames other hother.1 hother.2
                  simp only [values, hw, Except.toOption, Option.getD_some]
                have hsame : e.outcomeWith (fun other => .ok (values other)) = .ok v := by
                  rw [← hvalue]
                  exact Expr.outcomeWith_congr e fun other hmem hfree =>
                    (hvalues other ⟨hmem, hfree⟩).symm
                exact .expression hfind he (fun other hother => ih (hvalues other hother)) hsame
          · cases binding with
            | number value =>
                rw [meaningWithin_number hfind] at h
                cases hadopt : Arithmetic.adopt value with
                | error cause => rw [hadopt] at h; cases h
                | ok w =>
                    rw [hadopt] at h
                    cases h
                    exact .number hfind hadopt
            | _ => exact absurd trivial hexpression

/-- A grounded name does not rest on itself. -/
theorem Grounded.not_needs_self {name : String} {v : α} (h : Grounded bindings name v) :
    ¬ Relation.TransGen (Needs bindings) name name := by
  have hacc : Acc (Function.swap (Needs bindings)) name := by
    induction h with
    | @number name value v hfind _ =>
        refine ⟨_, fun other hneeds => ?_⟩
        obtain ⟨binding, e, hother, he, -⟩ := hneeds
        rw [hfind] at hother
        cases hother
        cases he
    | @expression name binding e values v hfind he _ _ ih =>
        refine ⟨_, fun other hneeds => ?_⟩
        obtain ⟨binding', e', hfind', he', hfree⟩ := hneeds
        rw [hfind] at hfind'
        cases hfind'
        rw [he] at he'
        cases he'
        exact ih other hfree
  intro hself
  have htrans := hacc.transGen
  clear hacc h
  induction htrans with
  | intro name _ ih => exact ih name (Relation.transGen_swap.mpr hself) hself

/-- A grounded name has its value on every path that leads to it. -/
theorem Grounded.meaningWithin_eq {name : String} {v : α} (h : Grounded bindings name v)
    {depth : Nat} {path : List String} (hroom : Room bindings depth path)
    (hawait : Await bindings path name) : meaningWithin bindings depth path name = .ok v := by
  have hpath : name ∉ path := fun hmem => h.not_needs_self (hawait name hmem)
  induction h generalizing depth path with
  | number hfind hvalue =>
      obtain ⟨depth, rfl⟩ := hroom.exists_succ
      rw [meaningWithin_number hfind, hvalue]
      rfl
  | @expression name binding e values v hfind he hnames hvalue ih =>
      obtain ⟨depth, rfl⟩ := hroom.exists_succ
      have hcontains : path.contains name = false := by simpa using hpath
      rw [meaningWithin_expression hfind (Binding.isExpression_of_expression he), hcontains, he]
      refine Eq.trans ?_ hvalue
      refine Expr.outcomeWith_congr e fun other hmem hfree => ?_
      have hawait' : Await bindings (name :: path) other :=
        hawait.cons ⟨binding, e, hfind, he, hmem, hfree⟩
      exact ih other ⟨hmem, hfree⟩ (hroom.cons hpath hfind) hawait' fun hother =>
        (hnames other ⟨hmem, hfree⟩).not_needs_self (hawait' other hother)

/-- A value does not depend on the path. -/
theorem meaningWithin_of_meaning {name : String} {v : α} (h : meaning bindings name = .ok v)
    {depth : Nat} {path : List String} (hroom : Room bindings depth path)
    (hawait : Await bindings path name) : meaningWithin bindings depth path name = .ok v :=
  (grounded_of_meaningWithin h).meaningWithin_eq hroom hawait

theorem meaning_of_meaningWithin {depth : Nat} {path : List String} {name : String} {v : α}
    (h : meaningWithin bindings depth path name = .ok v) : meaning bindings name = .ok v :=
  (grounded_of_meaningWithin h).meaningWithin_eq room_nil (await_nil name)

end Reckoner
