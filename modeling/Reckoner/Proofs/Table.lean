import Reckoner.Table
import Mathlib.Tactic.Common

/-!
# Looking up in tables

What is found under a name after values have been given to names, and which names have a value.
-/

namespace Reckoner.Table

variable {β γ : Type}

theorem find?_eq_none_iff {t : Table β} {name : String} :
    find? t name = none ↔ name ∉ t.names := by
  induction t with
  | nil => simp [find?, names]
  | cons entry t ih =>
      obtain ⟨key, value⟩ := entry
      by_cases hkey : key = name
      · simp [find?, names, hkey]
      · have hname : name ≠ key := fun h => hkey h.symm
        simpa [find?, names, hkey, hname] using ih

theorem mem_of_find? {t : Table β} {name : String} {value : β} (h : find? t name = some value) :
    (name, value) ∈ t := by
  induction t with
  | nil => cases h
  | cons entry t ih =>
      obtain ⟨key, other⟩ := entry
      rw [find?] at h
      split at h
      case isTrue hkey =>
          cases h
          rw [hkey]
          exact List.mem_cons_self
      case isFalse => exact List.mem_cons_of_mem _ (ih h)

theorem find?_mapValues (f : β → γ) (t : Table β) (name : String) :
    find? (t.mapValues f) name = (find? t name).map f := by
  induction t with
  | nil => rfl
  | cons entry t ih =>
      obtain ⟨key, value⟩ := entry
      have hcons : mapValues f ((key, value) :: t) = (key, f value) :: mapValues f t := rfl
      rw [hcons, find?, find?, ih]
      split <;> rfl

theorem find?_insert (t : Table β) (name other : String) (value : β) :
    find? (insert t name value) other = if name = other then some value else find? t other := by
  induction t with
  | nil => rfl
  | cons entry t ih =>
      obtain ⟨key, old⟩ := entry
      rw [insert]
      by_cases hkey : key = name
      · subst hkey
        rw [if_pos rfl, find?, find?]
        by_cases hother : key = other
        · rw [if_pos hother, if_pos hother]
        · rw [if_neg hother, if_neg hother, if_neg hother]
      · rw [if_neg hkey, find?, find?, ih]
        by_cases hother : key = other
        · have hname : name ≠ other := fun h => hkey (hother.trans h.symm)
          rw [if_pos hother, if_neg hname, if_pos hother]
        · rw [if_neg hother, if_neg hother]

/-- The last value that a list of pairs has for a name goes before those of the table. -/
theorem find?_insertAll {pairs : List (String × β)} (h : (pairs.map Prod.fst).Nodup)
    (t : Table β) (name : String) :
    find? (insertAll t pairs) name = (find? pairs name).or (find? t name) := by
  induction pairs generalizing t with
  | nil => rfl
  | cons entry pairs ih =>
      obtain ⟨key, value⟩ := entry
      rw [List.map_cons, List.nodup_cons] at h
      have hinsert : insertAll t ((key, value) :: pairs) = insertAll (insert t key value) pairs :=
        rfl
      rw [hinsert, ih h.2, find?_insert, find?]
      by_cases hkey : key = name
      · have hnone : find? pairs name = none := by
          subst hkey
          exact find?_eq_none_iff.mpr h.1
        rw [hnone, if_pos hkey, if_pos hkey]
        rfl
      · rw [if_neg hkey, if_neg hkey]

theorem find?_append (s t : Table β) (name : String) :
    find? (s ++ t) name = (find? s name).or (find? t name) := by
  induction s with
  | nil => rfl
  | cons entry s ih =>
      obtain ⟨key, value⟩ := entry
      rw [List.cons_append, find?, find?, ih]
      split <;> rfl

/-- Of several values for one name the last one counts. -/
theorem find?_insertAll_reverse (t : Table β) (pairs : List (String × β)) (name : String) :
    find? (insertAll t pairs) name = (find? pairs.reverse name).or (find? t name) := by
  induction pairs generalizing t with
  | nil => rfl
  | cons entry pairs ih =>
      obtain ⟨key, value⟩ := entry
      have hinsert : insertAll t ((key, value) :: pairs) = insertAll (insert t key value) pairs :=
        rfl
      rw [hinsert, ih, find?_insert, List.reverse_cons, find?_append, Option.or_assoc, find?]
      split <;> rfl

theorem find?_without (t : Table β) (names : List String) (name : String) :
    find? (t.without names) name = if name ∈ names then none else find? t name := by
  induction t with
  | nil => exact (ite_self none).symm
  | cons entry t ih =>
      obtain ⟨key, value⟩ := entry
      rw [without, List.filter_cons]
      by_cases hkey : key ∈ names
      · rw [if_neg (by simpa using hkey)]
        refine ih.trans ?_
        split
        case isTrue => rfl
        case isFalse hname =>
            have hother : key ≠ name := fun h => hname (h ▸ hkey)
            rw [find?, if_neg hother]
      · rw [if_pos (by simpa using hkey), find?, find?]
        by_cases hother : key = name
        · rw [if_pos hother, if_pos hother, if_neg (hother ▸ hkey)]
        · rw [if_neg hother, if_neg hother]
          exact ih

theorem names_insert (t : Table β) (name : String) (value : β) :
    (insert t name value).names = if t.names.contains name then t.names else t.names ++ [name] := by
  induction t with
  | nil => rfl
  | cons entry t ih =>
      obtain ⟨key, old⟩ := entry
      have hnames : names ((key, old) :: t) = key :: names t := rfl
      rw [insert, hnames]
      by_cases hkey : key = name
      · subst hkey
        rw [if_pos rfl, if_pos (by simp)]
        rfl
      · have hcons : names ((key, old) :: insert t name value) = key :: (insert t name value).names :=
          rfl
        have hne : (name == key) = false := by simpa using fun h : name = key => hkey h.symm
        rw [if_neg hkey, hcons, ih, List.contains_cons, hne, Bool.false_or]
        split <;> rfl

theorem insert_of_not_mem {t : Table β} {name : String} (h : name ∉ t.names) (value : β) :
    insert t name value = t ++ [(name, value)] := by
  induction t with
  | nil => rfl
  | cons entry t ih =>
      obtain ⟨key, old⟩ := entry
      have hname : name ≠ key ∧ name ∉ names t := by simpa [names] using h
      rw [insert, if_neg hname.1.symm, ih hname.2]
      rfl

/-- Under different names all the values are taken over in their order. -/
theorem insertAll_of_nodup {t pairs : Table β} (h : (names (t ++ pairs)).Nodup) :
    insertAll t pairs = t ++ pairs := by
  induction pairs generalizing t with
  | nil => exact (List.append_nil t).symm
  | cons entry pairs ih =>
      obtain ⟨name, value⟩ := entry
      have hname : name ∉ t.names := by
        intro hmem
        rw [names, List.map_append, List.nodup_append] at h
        exact h.2.2 name hmem name List.mem_cons_self rfl
      have hmoved : t ++ (name, value) :: pairs = (t ++ [(name, value)]) ++ pairs := by simp
      rw [hmoved] at h ⊢
      rw [← ih h, ← insert_of_not_mem hname]
      rfl

theorem ofPairs_of_nodup {pairs : List (String × β)} (h : (pairs.map Prod.fst).Nodup) :
    ofPairs pairs = pairs := insertAll_of_nodup h

theorem mapValues_insert (f : β → γ) (t : Table β) (name : String) (value : β) :
    (insert t name value).mapValues f = insert (t.mapValues f) name (f value) := by
  induction t with
  | nil => rfl
  | cons entry t ih =>
      obtain ⟨key, old⟩ := entry
      have hcons (other : β) : mapValues f ((key, other) :: t) = (key, f other) :: mapValues f t :=
        rfl
      rw [hcons, insert, insert]
      split
      case isTrue => rfl
      case isFalse => exact congrArg ((key, f old) :: ·) ih

theorem mapValues_zip (f : β → γ) (names : List String) (values : List β) :
    mapValues f (names.zip values) = names.zip (values.map f) := by
  induction names generalizing values with
  | nil => rfl
  | cons name names ih =>
      cases values with
      | nil => rfl
      | cons value values => exact congrArg ((name, f value) :: ·) (ih values)

theorem mapValues_insertAll (f : β → γ) (t : Table β) (pairs : List (String × β)) :
    (insertAll t pairs).mapValues f = insertAll (t.mapValues f) (mapValues f pairs) := by
  induction pairs generalizing t with
  | nil => rfl
  | cons entry pairs ih =>
      obtain ⟨name, value⟩ := entry
      have hinsert : insertAll t ((name, value) :: pairs) = insertAll (insert t name value) pairs :=
        rfl
      rw [hinsert, ih, mapValues_insert]
      rfl

end Reckoner.Table
