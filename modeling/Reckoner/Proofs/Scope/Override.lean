import Reckoner.Datum
import Reckoner.Proofs.Scope.Memory

/-!
# Values in the place of others

A scope in which certain names have been given up and then bound anew is, for every expression,
the scope of the values of a caller that others have been laid over. What has a value as long as a
name is not bound does not need the name, and keeps its value when the name is bound.
-/

namespace Reckoner

namespace Table

variable {β : Type}

/-- The names of a table of pairs: each one once, where it occurs first. -/
theorem names_insertAll (t : Table β) (pairs : List (String × β)) :
    (t.insertAll pairs).names = Expr.firstOccurrences t.names (pairs.map Prod.fst) := by
  induction pairs generalizing t with
  | nil => rfl
  | cons entry pairs ih =>
      obtain ⟨name, value⟩ := entry
      have hinsert : t.insertAll ((name, value) :: pairs) = (t.insert name value).insertAll pairs :=
        rfl
      rw [hinsert, ih, names_insert, List.map_cons, Expr.firstOccurrences]
      split <;> rfl

theorem names_ofPairs (pairs : List (String × β)) :
    (ofPairs pairs).names = Expr.firstOccurrences [] (pairs.map Prod.fst) := names_insertAll _ _

theorem find?_ofPairs (pairs : List (String × β)) (name : String) :
    (ofPairs pairs).find? name = find? pairs.reverse name := by
  rw [ofPairs, find?_insertAll_reverse]
  exact Option.or_none

end Table

theorem Table.nodup_ofPairs {β : Type} (pairs : List (String × β)) : (ofPairs pairs).names.Nodup := by
  rw [names_ofPairs]
  exact Expr.nodup_firstOccurrences List.nodup_nil

/-! ## A name that is not bound -/

section Unbound

variable {α : Type} [Arithmetic α] {bindings : Table (Binding α)} {name : String}

theorem Grounded.insert (hunbound : bindings.find? name = none) (binding : Binding α)
    {other : String} {v : α} (h : Grounded bindings other v) :
    Grounded (bindings.insert name binding) other v := by
  have hkeep : ∀ {other : String} {found : Binding α}, bindings.find? other = some found →
      (bindings.insert name binding).find? other = some found := by
    intro other found hfind
    rw [Table.find?_insert, if_neg]
    · exact hfind
    · rintro rfl
      rw [hunbound] at hfind
      cases hfind
  induction h with
  | number hfind hvalue => exact .number (hkeep hfind) hvalue
  | expression hfind he _ hvalue ih => exact .expression (hkeep hfind) he ih hvalue

theorem Expr.evaluate_insert (hunbound : bindings.find? name = none) (binding : Binding α)
    {e : Expr} {v : α} (h : e.evaluate bindings = .ok v) :
    e.evaluate (bindings.insert name binding) = .ok v := by
  rw [evaluate_eq_outcomeWith] at h ⊢
  rw [← h]
  refine outcomeWith_congr e fun other hother hfree => ?_
  obtain ⟨w, hw⟩ := exists_of_outcomeWith e h other hother hfree
  have hgrounded := (grounded_of_meaningWithin hw).insert hunbound binding
  rw [hw]
  exact hgrounded.meaningWithin_eq room_nil (await_nil other)

end Unbound

/-! ## Names that are bound anew -/

/-- Bindings that are given up and bound anew are values that are laid over the known ones. -/
theorem Expr.evaluate_override (known : Table Datum) (pairs : List (String × Datum))
    (e : Expr) :
    e.evaluate (((Binding.ofData known).without (pairs.map Prod.fst)).insertAll
      (pairs.map fun (name, d) => (name, d.toBinding))) =
      e.evaluate (Binding.ofData (known.insertAll (Table.ofPairs pairs))) := by
  refine e.evaluate_congr fun name => ?_
  have hbound : Table.find? (pairs.map fun (name, d) => (name, d.toBinding)).reverse name =
      (Table.find? pairs.reverse name).map Datum.toBinding := by
    rw [← List.map_reverse]
    exact Table.find?_mapValues _ _ _
  rw [Table.find?_insertAll_reverse, hbound, Table.find?_without, Binding.ofData, Binding.ofData,
    Table.find?_mapValues, Table.find?_mapValues, Table.find?_insertAll (Table.nodup_ofPairs pairs),
    Table.find?_ofPairs]
  cases hfind : Table.find? pairs.reverse name with
  | some d => rfl
  | none =>
      have hname : name ∉ pairs.map Prod.fst := by
        have hnot := Table.find?_eq_none_iff.mp hfind
        rwa [Table.names, List.map_reverse, List.mem_reverse] at hnot
      rw [if_neg hname]
      rfl

end Reckoner
