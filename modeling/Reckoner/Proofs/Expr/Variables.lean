import Reckoner.Expr.Variables
import Mathlib.Data.List.Nodup

/-!
# Variables from left to right

The free variables of an expression are the names of its variables that are not those of constants,
each one once, in the order in which they first occur.
-/

namespace Reckoner.Expr

/-- The name of a variable that is not the name of a constant. -/
def IsFree (e : Expr) (name : String) : Prop := name ∈ e.names ∧ Constant.isName name = false

/-! ## First occurrences -/

theorem mem_firstOccurrences {name : String} {found rest : List String} :
    name ∈ firstOccurrences found rest ↔ name ∈ found ∨ name ∈ rest := by
  induction rest generalizing found with
  | nil => simp [firstOccurrences]
  | cons other rest ih =>
      rw [firstOccurrences]
      split
      case isTrue h =>
          have hmem : other ∈ found := by simpa using h
          rw [ih, List.mem_cons]
          constructor
          · rintro (h | h)
            · exact .inl h
            · exact .inr (.inr h)
          · rintro (h | rfl | h)
            · exact .inl h
            · exact .inl hmem
            · exact .inr h
      case isFalse => simp [ih, or_assoc]

theorem nodup_firstOccurrences {found names : List String} (h : found.Nodup) :
    (firstOccurrences found names).Nodup := by
  induction names generalizing found with
  | nil => exact h
  | cons name names ih =>
      rw [firstOccurrences]
      split
      case isTrue => exact ih h
      case isFalse hname =>
          have hnot : name ∉ found := by simpa using hname
          refine ih (List.nodup_append.mpr ⟨h, List.nodup_singleton _, ?_⟩)
          intro other hother last hlast
          rw [List.mem_singleton.mp hlast]
          exact ne_of_mem_of_not_mem hother hnot

theorem firstOccurrences_of_nodup {found names : List String} (h : (found ++ names).Nodup) :
    firstOccurrences found names = found ++ names := by
  induction names generalizing found with
  | nil => rw [firstOccurrences, List.append_nil]
  | cons name names ih =>
      have hname : name ∉ found := fun hmem =>
        (List.nodup_append.mp h).2.2 name hmem name List.mem_cons_self rfl
      rw [List.append_cons] at h ⊢
      rw [firstOccurrences, if_neg (by simpa using hname), ih h]

theorem firstOccurrences_append (found xs ys : List String) :
    firstOccurrences found (xs ++ ys) = firstOccurrences (firstOccurrences found xs) ys := by
  induction xs generalizing found with
  | nil => rfl
  | cons name xs ih =>
      rw [List.cons_append, firstOccurrences, firstOccurrences, ih, ih]
      split <;> rfl

/-- By induction on what is still to come: what has been found so far is in order, and it is all
that has been seen and is wanted. -/
theorem pairwise_firstOccurrences {wanted : String → Bool} {seen found rest : List String}
    (hfound : ∀ name, name ∈ found ↔ name ∈ seen ∧ wanted name = true)
    (hordered : found.Pairwise fun a b => (seen ++ rest).idxOf a < (seen ++ rest).idxOf b) :
    (firstOccurrences found (rest.filter wanted)).Pairwise fun a b =>
      (seen ++ rest).idxOf a < (seen ++ rest).idxOf b := by
  induction rest generalizing seen found with
  | nil => exact hordered
  | cons name rest ih =>
      have hsame : seen ++ name :: rest = (seen ++ [name]) ++ rest := by simp
      by_cases hnew : wanted name = true ∧ name ∉ found
      · have hseen : name ∉ seen := fun hmem => hnew.2 ((hfound name).mpr ⟨hmem, hnew.1⟩)
        rw [List.filter_cons_of_pos hnew.1, firstOccurrences, if_neg (by simpa using hnew.2), hsame]
        refine ih (fun other => ?_) ?_
        · simp only [List.mem_append, List.mem_singleton, hfound other]
          constructor
          · rintro (⟨hmem, hwanted⟩ | rfl)
            · exact ⟨.inl hmem, hwanted⟩
            · exact ⟨.inr rfl, hnew.1⟩
          · rintro ⟨hmem | rfl, hwanted⟩
            · exact .inl ⟨hmem, hwanted⟩
            · exact .inr rfl
        · rw [← hsame, List.pairwise_append]
          refine ⟨hordered, List.pairwise_singleton _ _, fun other hother last hlast => ?_⟩
          have hbefore : other ∈ seen := ((hfound other).mp hother).1
          rw [List.mem_singleton.mp hlast, List.idxOf_append_of_mem hbefore,
            List.idxOf_append_of_notMem hseen]
          have hlength := List.idxOf_lt_length_of_mem hbefore
          omega
      · have hskip : firstOccurrences found ((name :: rest).filter wanted) =
            firstOccurrences found (rest.filter wanted) := by
          by_cases hwanted : wanted name = true
          · have hmem : name ∈ found := by
              by_contra hnot
              exact hnew ⟨hwanted, hnot⟩
            rw [List.filter_cons_of_pos hwanted, firstOccurrences, if_pos (by simpa using hmem)]
          · rw [List.filter_cons_of_neg hwanted]
        rw [hskip, hsame]
        refine ih (fun other => ?_) (hsame ▸ hordered)
        rw [hfound other, List.mem_append, List.mem_singleton]
        constructor
        · exact fun ⟨hmem, hwanted⟩ => ⟨.inl hmem, hwanted⟩
        · rintro ⟨hmem | rfl, hwanted⟩
          · exact ⟨hmem, hwanted⟩
          · have hmem : other ∈ found := by
              by_contra hnot
              exact hnew ⟨hwanted, hnot⟩
            exact (hfound other).mp hmem

/-! ## Free variables -/

theorem mem_freeVariables {e : Expr} {name : String} :
    name ∈ e.freeVariables ↔ e.IsFree name := by
  simp [freeVariables, mem_firstOccurrences, IsFree]

theorem nodup_freeVariables (e : Expr) : e.freeVariables.Nodup :=
  nodup_firstOccurrences List.nodup_nil

theorem pairwise_freeVariables (e : Expr) :
    e.freeVariables.Pairwise fun a b => e.names.idxOf a < e.names.idxOf b := by
  have hnone : ([] : List String).Pairwise fun a b =>
      ([] ++ e.names).idxOf a < ([] ++ e.names).idxOf b := .nil
  exact pairwise_firstOccurrences (by simp) hnone

end Reckoner.Expr
