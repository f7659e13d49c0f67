import Reckoner.Proofs.Expr.Grammar

/-!
# Parentheses among lexemes

How far parentheses are open behind a row of lexemes. They are shut behind every phrase, and open
everywhere inside an expression in parentheses, so that it is clear which parenthesis closes which,
and where a phrase can be cut.
-/

namespace Reckoner.Expr

open Reckoner.Token

/-- What a lexeme opens or closes. -/
def weight : Lexeme → Int
  | .openParen => 1
  | .closeParen => -1
  | _ => 0

/-- How many parentheses are open behind the lexemes. -/
def nesting : List Lexeme → Int
  | [] => 0
  | l :: ls => weight l + nesting ls

/-- The lexemes between parentheses. -/
abbrev enclosed (ls : List Lexeme) : List Lexeme := .openParen :: (ls ++ [.closeParen])

variable {ls xs ys : List Lexeme} {l : Lexeme}

theorem nesting_append (xs ys : List Lexeme) : nesting (xs ++ ys) = nesting xs + nesting ys := by
  induction xs with
  | nil => simp [nesting]
  | cons l xs ih =>
      rw [List.cons_append, nesting, nesting, ih]
      omega

/-- All parentheses are closed at the end, and none is closed that was not open. -/
structure Shut (ls : List Lexeme) : Prop where
  total : nesting ls = 0
  front : ∀ {xs ys}, ls = xs ++ ys → 0 ≤ nesting xs

theorem shut_nil : Shut [] := by
  refine ⟨rfl, fun {xs ys} h => ?_⟩
  rw [(List.append_eq_nil_iff.mp h.symm).1]
  exact Int.le_refl 0

theorem Shut.append (hx : Shut xs) (hy : Shut ys) : Shut (xs ++ ys) := by
  refine ⟨by rw [nesting_append, hx.total, hy.total, Int.add_zero], fun {as bs} h => ?_⟩
  rcases List.append_eq_append_iff.mp h with ⟨ds, rfl, hds⟩ | ⟨ds, hxs, -⟩
  · rw [nesting_append, hx.total, Int.zero_add]
    exact hy.front hds
  · exact hx.front hxs

theorem shut_single (h : weight l = 0) : Shut [l] := by
  refine ⟨by rw [nesting, nesting, h, Int.add_zero], fun {xs ys} heq => ?_⟩
  cases xs with
  | nil => exact Int.le_refl 0
  | cons m xs =>
      injection heq with hm hrest
      rw [← hm, (List.append_eq_nil_iff.mp hrest.symm).1, nesting, nesting, h]
      exact Int.le_refl 0

/-- Parentheses are open everywhere between them. -/
theorem Shut.inside (h : Shut ls) (heq : enclosed ls = xs ++ ys) (hxs : xs ≠ []) (hys : ys ≠ []) :
    1 ≤ nesting xs := by
  obtain ⟨l, xs, rfl⟩ := List.exists_cons_of_ne_nil hxs
  injection heq with hl hrest
  have hfront : 0 ≤ nesting xs := by
    rcases List.append_eq_append_iff.mp hrest with ⟨ds, rfl, hds⟩ | ⟨ds, hls, -⟩
    · cases ds with
      | nil => simp [h.total]
      | cons d ds =>
          injection hds with _ hds
          exact absurd (List.append_eq_nil_iff.mp hds.symm).2 hys
    · exact h.front hls
  rw [← hl, nesting, weight]
  omega

theorem shut_enclosed (h : Shut ls) : Shut (enclosed ls) := by
  have htotal : nesting (enclosed ls) = 0 := by
    rw [nesting, nesting_append, h.total]
    rfl
  refine ⟨htotal, fun {xs ys} heq => ?_⟩
  by_cases hxs : xs = []
  · rw [hxs]
    exact Int.le_refl 0
  by_cases hys : ys = []
  · rw [hys, List.append_nil] at heq
    exact heq ▸ Int.le_of_eq htotal.symm
  · have hopen := h.inside heq hxs hys
    omega

theorem weight_of_names {name : String} (h : Names l name) : weight l = 0 := by
  cases h <;> rfl

/-- The parentheses of a phrase are its own. -/
theorem Derives.shut {phrase : Phrase} (h : Derives ls phrase) : Shut ls := by
  induction h with
  | product _ ih | signed _ ih | power _ ih | atom _ ih | argument _ ih => exact ih
  | add _ _ _ ihl ihr | multiply _ _ _ ihl ihr | raise _ _ ihl ihr | nextArgument _ _ ihl ihr =>
      exact ihl.append ((shut_single rfl).append ihr)
  | minus _ ih | plus _ ih => exact (shut_single rfl).append ih
  | number | imaginary | constant | var => exact shut_single rfl
  | emptyCall hname => exact (shut_single (weight_of_names hname)).append (shut_enclosed shut_nil)
  | call hname _ ih => exact (shut_single (weight_of_names hname)).append (shut_enclosed ih)
  | group _ ih => exact shut_enclosed ih

/-! ## Cutting -/

variable {as bs rs before after : List Lexeme} {m : Lexeme}

/-- A parenthesis that is open has one that closes it. -/
theorem Shut.unique (ha : Shut as) (hb : Shut bs)
    (h : as ++ .closeParen :: xs = bs ++ .closeParen :: ys) : as = bs ∧ xs = ys := by
  have hlonger {as bs ds : List Lexeme} (ha : Shut as) (hb : Shut bs)
      (h : bs = as ++ .closeParen :: ds) : False := by
    have hclosed : bs = as ++ [.closeParen] ++ ds := by simp [h]
    have hfront := hb.front hclosed
    rw [nesting_append, ha.total] at hfront
    exact absurd hfront (by decide)
  rcases List.append_eq_append_iff.mp h with ⟨ds, hds, htail⟩ | ⟨ds, hds, htail⟩
  · cases ds with
    | nil => exact ⟨by simpa using hds.symm, by simpa using htail⟩
    | cons d ds =>
        injection htail with hd _
        exact (hlonger ha hb (hd ▸ hds)).elim
  · cases ds with
    | nil => exact ⟨by simpa using hds, by simpa using htail.symm⟩
    | cons d ds =>
        injection htail with hd _
        exact (hlonger hb ha (hd ▸ hds)).elim

/-- An expression in parentheses at the end is not cut. -/
theorem Shut.cut_enclosed (hls : Shut ls) (has : Shut as) (hm : m ≠ .openParen)
    (h : ls ++ m :: rs = before ++ enclosed as) :
    ∃ back, before = ls ++ m :: back ∧ rs = back ++ enclosed as := by
  rcases List.append_eq_append_iff.mp h with ⟨ds, rfl, hds⟩ | ⟨ds, rfl, hds⟩
  · cases ds with
    | nil =>
        injection hds with hd _
        exact absurd hd hm
    | cons d ds =>
        injection hds with hd hds
        exact ⟨ds, by rw [hd], hds⟩
  · cases ds with
    | nil =>
        injection hds with hd _
        exact absurd hd.symm hm
    | cons d ds =>
        have hopen := has.inside hds (List.cons_ne_nil _ _) (List.cons_ne_nil _ _)
        have htotal := hls.total
        have hfront := hls.front (rfl : before ++ d :: ds = before ++ (d :: ds))
        rw [nesting_append] at htotal
        omega

/-- An expression in parentheses at the start is not cut. -/
theorem Shut.cut_behind_enclosed (hls : Shut ls) (has : Shut as) (hm : m ≠ .openParen)
    (h : ls ++ m :: rs = enclosed as ++ after) :
    ∃ front, ls = enclosed as ++ front ∧ after = front ++ m :: rs := by
  rcases List.append_eq_append_iff.mp h with ⟨ds, hds, hrs⟩ | ⟨ds, hds, hafter⟩
  · cases ds with
    | nil => exact ⟨[], by simpa using hds.symm, by simpa using hrs.symm⟩
    | cons d ds =>
        injection hrs with hd _
        have hne : ls ≠ [] := by
          rintro rfl
          injection hds with hopen _
          exact hm (hd.trans hopen.symm)
        have hopen := has.inside hds hne (List.cons_ne_nil _ _)
        rw [hls.total] at hopen
        exact absurd hopen (by decide)
  · exact ⟨ds, hds, hafter⟩

/-- What is in parentheses as a whole ends with the parenthesis that it starts with. -/
theorem Shut.enclosed_eq (hxs : Shut xs) (has : Shut as)
    (h : enclosed xs = before ++ enclosed as) : before = [] ∧ xs = as := by
  by_cases hbefore : before = []
  · subst hbefore
    injection h with _ h
    exact ⟨rfl, (hxs.unique has h).1⟩
  · have hopen := hxs.inside h hbefore (List.cons_ne_nil _ _)
    have htotal := (shut_enclosed hxs).total
    rw [h, nesting_append, (shut_enclosed has).total] at htotal
    omega

/-! ## Operations on expressions in parentheses -/

/-- An operation on two expressions in parentheses. -/
def loose (op : String) (as bs : List Lexeme) : List Lexeme :=
  enclosed as ++ .operator op :: enclosed bs

theorem shut_loose (op : String) (ha : Shut as) (hb : Shut bs) : Shut (loose op as bs) :=
  (shut_enclosed ha).append ((shut_single rfl).append (shut_enclosed hb))

/-- Inside an operation, parentheses are open or its operator follows. -/
theorem Shut.cut_loose {op : String} (ha : Shut as) (hb : Shut bs) (hm : m ≠ .openParen)
    (h : loose op as bs = xs ++ m :: ys) :
    1 ≤ nesting xs ∨ xs = enclosed as ∧ m = .operator op ∧ ys = enclosed bs := by
  rcases List.append_eq_append_iff.mp h with ⟨ds, rfl, hds⟩ | ⟨ds, hxs, hds⟩
  · cases ds with
    | nil =>
        injection hds with hm hys
        exact .inr ⟨List.append_nil _, hm.symm, hys.symm⟩
    | cons d ds =>
        injection hds with hd hds
        left
        have hweight : weight (.operator op) = 0 := rfl
        rw [nesting_append, (shut_enclosed ha).total, ← hd, nesting, hweight]
        cases ds with
        | nil =>
            injection hds with hds _
            exact absurd hds.symm hm
        | cons d' ds =>
            have hopen := hb.inside hds (List.cons_ne_nil _ _) (List.cons_ne_nil _ _)
            omega
  · cases ds with
    | nil =>
        injection hds with hm hys
        exact .inr ⟨by simpa using hxs.symm, hm, hys⟩
    | cons d ds =>
        injection hds with hd _
        left
        have hne : xs ≠ [] := by
          rintro rfl
          injection hxs with hopen _
          exact hm (hd.trans hopen.symm)
        exact ha.inside hxs hne (List.cons_ne_nil _ _)

/-- Where a row is cut that has such an operation in it: in front of it, behind it, or at its
operator. -/
theorem Shut.cut {op : String} (hls : Shut ls) (ha : Shut as) (hb : Shut bs)
    (hm : m ≠ .openParen) (h : ls ++ m :: rs = before ++ (loose op as bs ++ after)) :
    (∃ back, before = ls ++ m :: back ∧ rs = back ++ (loose op as bs ++ after)) ∨
      (∃ front, after = front ++ m :: rs ∧ ls = before ++ (loose op as bs ++ front)) ∨
      (m = .operator op ∧ ls = before ++ enclosed as ∧ rs = enclosed bs ++ after) := by
  rcases List.append_eq_append_iff.mp h with ⟨ds, rfl, hds⟩ | ⟨ds, hls', hds⟩
  · cases ds with
    | nil =>
        injection hds with hd _
        exact absurd hd hm
    | cons d ds =>
        injection hds with hd hds
        exact .inl ⟨ds, by rw [hd], hds⟩
  · rcases List.append_eq_append_iff.mp hds with ⟨es, rfl, hafter⟩ | ⟨es, hloose, hafter⟩
    · exact .inr (.inl ⟨es, hafter, hls'⟩)
    · cases es with
      | nil =>
          rw [List.append_nil] at hloose
          exact .inr (.inl ⟨[], hafter.symm, by rw [hls', hloose, List.append_nil]⟩)
      | cons e es =>
          injection hafter with he hrs
          subst he
          rcases ha.cut_loose hb hm hloose with hopen | ⟨rfl, hop, hes⟩
          · have htotal := hls.total
            have hfront := hls.front hls'
            rw [hls', nesting_append] at htotal
            omega
          · exact .inr (.inr ⟨hop, hls', by rw [hrs, hes, List.append_eq]⟩)

/-- An operation inside what is in parentheses as a whole. -/
theorem Shut.within {op : String} (hxs : Shut xs) (ha : Shut as) (hb : Shut bs)
    (h : enclosed xs = before ++ (loose op as bs ++ after)) :
    ∃ front back, before = .openParen :: front ∧ after = back ++ [.closeParen] ∧
      xs = front ++ (loose op as bs ++ back) := by
  have htotal := (shut_enclosed hxs).total
  have hloose := (shut_loose op ha hb).total
  cases before with
  | nil =>
      have hfirst : enclosed xs = enclosed as ++ (.operator op :: enclosed bs ++ after) := by
        rw [h, loose, List.nil_append, List.append_assoc]
      have hopen := hxs.inside hfirst (List.cons_ne_nil _ _) (List.cons_ne_nil _ _)
      rw [(shut_enclosed ha).total] at hopen
      exact absurd hopen (by decide)
  | cons l front =>
      rw [List.cons_append] at h
      obtain ⟨hl, hrest⟩ := List.cons_eq_cons.mp h
      subst hl
      rcases List.eq_nil_or_concat after with rfl | ⟨back, last, rfl⟩
      · have hlast : enclosed xs = (.openParen :: front) ++ loose op as bs := by
          rw [h, List.append_nil, List.cons_append]
        have hopen := hxs.inside hlast (List.cons_ne_nil _ _) (List.cons_ne_nil _ _)
        rw [hlast, List.cons_append, nesting, nesting_append, hloose] at htotal
        rw [nesting] at hopen
        omega
      · rw [List.concat_eq_append] at hrest ⊢
        have htail : front ++ (loose op as bs ++ (back ++ [last])) =
            front ++ (loose op as bs ++ back) ++ [last] := by simp
        rw [htail] at hrest
        obtain ⟨hxs, hlast⟩ := List.append_inj' hrest rfl
        injection hlast with hlast
        exact ⟨front, back, rfl, by rw [hlast], hxs⟩

end Reckoner.Expr
