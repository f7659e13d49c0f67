import Reckoner.Latex.Group
import Reckoner.Proofs.Token.Number

/-!
# Groups

What a group is as a part of a text: blanks, an opening delimiter, a content that leaves no
delimiter open, and the closing delimiter. It is found wherever it stands in front, and its content
does not depend on what follows.
-/

namespace Reckoner.Latex

open Reckoner.Text

variable {opening closing : Char} {cs content rest : List Char}

/-! ## Counting delimiters -/

/-- More content in front of what was found. -/
def lengthen (more : List Char) (found : List Char × List Char) : List Char × List Char :=
  (more ++ found.1, found.2)

theorem balanced_escape (depth : Nat) (c : Char) (rest : List Char) :
    balanced opening closing depth ('\\' :: c :: rest) =
      (balanced opening closing depth rest).map (lengthen ['\\', c]) := by
  rw [balanced]
  rfl

theorem balanced_cons {c : Char} (hc : c ≠ '\\') (depth : Nat) (rest : List Char) :
    balanced opening closing depth (c :: rest) =
      if c = opening then (balanced opening closing (depth + 1) rest).map (lengthen [c])
      else if c = closing then
        match depth with
        | 0 => some ([], rest)
        | depth + 1 => (balanced opening closing depth rest).map (lengthen [c])
      else (balanced opening closing depth rest).map (lengthen [c]) := by
  conv_lhs => unfold balanced
  split
  case h_4 heq => cases heq; rfl
  all_goals simp_all

/-- What is read up to the closing delimiter of a group, with so many other delimiters open in front
of it. -/
inductive EndsGroup (opening closing : Char) : Nat → List Char → Prop
  | here (hclosing : closing ≠ '\\') (hne : closing ≠ opening) : EndsGroup opening closing 0 []
  | escape (c : Char) {depth : Nat} {cs : List Char} (h : EndsGroup opening closing depth cs) :
      EndsGroup opening closing depth ('\\' :: c :: cs)
  | opens {depth : Nat} {cs : List Char} (hopening : opening ≠ '\\')
      (h : EndsGroup opening closing (depth + 1) cs) :
      EndsGroup opening closing depth (opening :: cs)
  | closes {depth : Nat} {cs : List Char} (hclosing : closing ≠ '\\') (hne : closing ≠ opening)
      (h : EndsGroup opening closing depth cs) :
      EndsGroup opening closing (depth + 1) (closing :: cs)
  | char {c : Char} {depth : Nat} {cs : List Char} (hc : c ≠ '\\') (hopening : c ≠ opening)
      (hclosing : c ≠ closing) (h : EndsGroup opening closing depth cs) :
      EndsGroup opening closing depth (c :: cs)

theorem EndsGroup.found {depth : Nat} (h : EndsGroup opening closing depth content)
    (rest : List Char) :
    balanced opening closing depth (content ++ closing :: rest) = some (content, rest) := by
  induction h with
  | here hclosing hne =>
      rw [List.nil_append, balanced_cons hclosing, if_neg hne, if_pos rfl]
  | escape c _ ih =>
      rw [List.cons_append, List.cons_append, balanced_escape, ih]
      rfl
  | opens hopening _ ih =>
      rw [List.cons_append, balanced_cons hopening, if_pos rfl, ih]
      rfl
  | closes hclosing hne _ ih =>
      rw [List.cons_append, balanced_cons hclosing, if_neg hne, if_pos rfl]
      change (balanced opening closing _ _).map (lengthen [closing]) = _
      rw [ih]
      rfl
  | char hc hopening hclosing _ ih =>
      rw [List.cons_append, balanced_cons hc, if_neg hopening, if_neg hclosing, ih]
      rfl

theorem endsGroup_of_balanced {depth : Nat}
    (h : balanced opening closing depth cs = some (content, rest)) :
    cs = content ++ closing :: rest ∧ EndsGroup opening closing depth content := by
  -- a backslash is read with its character, so no other case begins with one
  have hbare {c : Char} {tail : List Char} (hend : c = '\\' → tail = [] → False)
      (hescape : ∀ d more, c = '\\' → tail = d :: more → False) : c ≠ '\\' := by
    intro hc
    cases tail with
    | nil => exact hend hc rfl
    | cons d more => exact hescape d more hc rfl
  -- the character in front goes to the content of what is found behind it
  have hfront (more : List Char) {inner : Nat} {tail content rest : List Char}
      (ih : ∀ {found left}, balanced opening closing inner tail = some (found, left) →
        tail = found ++ closing :: left ∧ EndsGroup opening closing inner found)
      (h : (balanced opening closing inner tail).map (lengthen more) = some (content, rest)) :
      more ++ tail = content ++ closing :: rest ∧
        ∃ found, content = more ++ found ∧ EndsGroup opening closing inner found := by
    obtain ⟨⟨found, left⟩, hfound, heq⟩ := Option.map_eq_some_iff.mp h
    obtain ⟨rfl, hends⟩ := ih hfound
    cases heq
    exact ⟨(List.append_assoc ..).symm, found, rfl, hends⟩
  fun_induction balanced opening closing depth cs generalizing content rest
  case case1 | case2 => cases h
  case case3 c tail ih =>
      obtain ⟨hcs, found, rfl, hends⟩ := hfront ['\\', c] ih h
      exact ⟨hcs, .escape c hends⟩
  case case4 hend hescape ih =>
      obtain ⟨hcs, found, rfl, hends⟩ := hfront [opening] ih h
      exact ⟨hcs, .opens (hbare hend hescape) hends⟩
  case case5 hend hescape hne =>
      cases h
      exact ⟨rfl, .here (hbare hend hescape) hne⟩
  case case6 hend hescape hne ih =>
      obtain ⟨hcs, found, rfl, hends⟩ := hfront [closing] ih h
      exact ⟨hcs, .closes (hbare hend hescape) hne hends⟩
  case case7 c _ hend hescape hopening hclosing ih =>
      obtain ⟨hcs, found, rfl, hends⟩ := hfront [c] ih h
      exact ⟨hcs, .char (hbare hend hescape) hopening hclosing hends⟩

/-- What is found in a text is ended in the same way in front of every other text. -/
def FoundAnywhere (opening closing : Char) (depth : Nat) (cs : List Char) : Prop :=
  ∀ content rest, balanced opening closing depth cs = some (content, rest) →
    cs = content ++ closing :: rest ∧ ∀ rest',
      balanced opening closing depth (content ++ closing :: rest') = some (content, rest')

theorem foundAnywhere (opening closing : Char) (depth : Nat) (cs : List Char) :
    FoundAnywhere opening closing depth cs := by
  intro content rest h
  obtain ⟨hcs, hends⟩ := endsGroup_of_balanced h
  exact ⟨hcs, hends.found⟩

/-! ## Contents -/

/-- The closing delimiter behind the content is the one that ends it. -/
def Balanced (opening closing : Char) (content : List Char) : Prop :=
  ∀ rest, balanced opening closing 0 (content ++ closing :: rest) = some (content, rest)

theorem balanced_of_balanced (h : balanced opening closing 0 cs = some (content, rest)) :
    cs = content ++ closing :: rest ∧ Balanced opening closing content :=
  foundAnywhere opening closing 0 cs content rest h

/-- The text leaves the count of open delimiters as it is. -/
def Neutral (opening closing : Char) (cs : List Char) : Prop :=
  ∀ depth rest, balanced opening closing depth (cs ++ rest) =
    (balanced opening closing depth rest).map (lengthen cs)

theorem lengthen_append (xs ys : List Char) :
    lengthen (xs ++ ys) = lengthen xs ∘ lengthen ys := by
  funext found
  simp [lengthen]

theorem neutral_nil : Neutral opening closing [] := by
  intro depth rest
  have hid : lengthen [] = id := by
    funext found
    rfl
  rw [hid, Option.map_id]
  rfl

theorem Neutral.append {xs ys : List Char} (hx : Neutral opening closing xs)
    (hy : Neutral opening closing ys) : Neutral opening closing (xs ++ ys) := by
  intro depth rest
  rw [List.append_assoc, hx, hy, Option.map_map, lengthen_append]

theorem neutral_escape (c : Char) : Neutral opening closing ['\\', c] := balanced_escape (c := c)

theorem neutral_char {c : Char} (hc : c ≠ '\\') (hopening : c ≠ opening)
    (hclosing : c ≠ closing) : Neutral opening closing [c] := by
  intro depth rest
  rw [List.singleton_append, balanced_cons hc, if_neg hopening, if_neg hclosing]

theorem Neutral.enclose {cs : List Char} (h : Neutral opening closing cs)
    (hopening : opening ≠ '\\') (hclosing : closing ≠ '\\') (hne : closing ≠ opening) :
    Neutral opening closing (opening :: (cs ++ [closing])) := by
  intro depth rest
  rw [List.cons_append, balanced_cons hopening, if_pos rfl, List.append_assoc, h,
    List.singleton_append, balanced_cons hclosing, if_neg hne, if_pos rfl, Option.map_map,
    Option.map_map, ← lengthen_append, ← lengthen_append, List.append_assoc]
  rfl

theorem Neutral.balanced {cs : List Char} (h : Neutral opening closing cs)
    (hclosing : closing ≠ '\\') (hne : closing ≠ opening) : Balanced opening closing cs := by
  intro rest
  rw [h, balanced_cons hclosing, if_neg hne, if_pos rfl]
  simp [lengthen]

/-! ## Groups as parts of a text -/

/-- Blanks, and the content between its delimiters. -/
inductive Enclosed (opening closing : Char) : List Char → List Char → Prop
  | intro {blanks content : List Char} (hblanks : ∀ b ∈ blanks, isBlank b = true)
      (hcontent : Balanced opening closing content) :
      Enclosed opening closing (blanks ++ opening :: (content ++ [closing])) content

theorem cons_group_append (opening closing : Char) (content rest : List Char) :
    opening :: (content ++ [closing]) ++ rest = opening :: (content ++ closing :: rest) := by
  rw [List.cons_append, List.append_assoc, List.singleton_append]

theorem Enclosed.cut {group : List Char} (h : Enclosed opening closing group content)
    (hopening : isBlank opening = false) (rest : List Char) :
    (group ++ rest).dropWhile isBlank = opening :: (content ++ closing :: rest) ∧
      ((group ++ rest).takeWhile isBlank).length + content.length + 2 = group.length := by
  cases h with
  | @intro blanks _ hblanks hcontent =>
      have hhead : ∀ c ∈ (opening :: (content ++ closing :: rest)).head?, isBlank c = false := by
        intro c hc
        cases hc
        exact hopening
      obtain ⟨htake, hdrop⟩ := Token.takeWhile_append_of_head hblanks hhead
      rw [List.append_assoc, cons_group_append, htake, hdrop]
      refine ⟨rfl, ?_⟩
      simp only [List.length_append, List.length_cons, List.length_nil]
      omega

theorem Enclosed.balanced {group : List Char} (h : Enclosed opening closing group content) :
    Balanced opening closing content := by
  cases h with
  | intro _ hcontent => exact hcontent

theorem Enclosed.read {group : List Char} (h : Enclosed opening closing group content)
    (hopening : isBlank opening = false) (position : Nat) (rest : List Char) :
    ∃ start, Group.read opening closing position (group ++ rest) =
      .ok ⟨start, content, position + group.length, rest⟩ := by
  obtain ⟨hdrop, hlength⟩ := h.cut hopening rest
  refine ⟨position + ((group ++ rest).takeWhile isBlank).length + 1, ?_⟩
  unfold Group.read
  simp only [hdrop, ne_eq, not_true_eq_false, if_false, h.balanced rest]
  congr 2
  omega

theorem enclosed_of_read {position : Nat} {g : Group}
    (h : Group.read opening closing position cs = .ok g) :
    ∃ group, cs = group ++ g.rest ∧ Enclosed opening closing group g.content ∧
      g.stop = position + group.length := by
  have htext := List.takeWhile_append_dropWhile (p := isBlank) (l := cs)
  have hblanks : ∀ b ∈ cs.takeWhile isBlank, isBlank b = true :=
    fun b hb => List.mem_takeWhile_imp hb
  unfold Group.read at h
  generalize cs.takeWhile isBlank = blanks at *
  cases hdrop : cs.dropWhile isBlank with
  | nil => rw [hdrop] at h; cases h
  | cons c tail =>
      rw [hdrop] at h htext
      by_cases hopening : c = opening
      · cases hfound : balanced opening closing 0 tail with
        | none => simp [hopening, hfound] at h
        | some found =>
            obtain ⟨content, rest⟩ := found
            simp only [hopening, ne_eq, not_true_eq_false, if_false, hfound] at h
            cases h
            obtain ⟨rfl, hbalanced⟩ := balanced_of_balanced hfound
            refine ⟨blanks ++ opening :: (content ++ [closing]), ?_, .intro hblanks hbalanced, ?_⟩
            · rw [← htext, hopening, List.append_assoc, cons_group_append]
            · simp only [List.length_append, List.length_cons, List.length_nil]
              omega
      · simp [hopening] at h

/-- The content of a group and what follows the group are shorter than the text. -/
theorem length_lt_of_read {position : Nat} {g : Group}
    (h : Group.read opening closing position cs = .ok g) :
    g.content.length < cs.length ∧ g.rest.length < cs.length := by
  obtain ⟨group, rfl, henclosed, -⟩ := enclosed_of_read h
  cases henclosed with
  | intro =>
      simp only [List.length_append, List.length_cons, List.length_nil]
      omega

end Reckoner.Latex
