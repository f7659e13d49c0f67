import Reckoner.Proofs.Latex.Solid
import Mathlib.Order.Bounds.Basic

/-!
# Delimiters that close each other

An opening delimiter is closed by the first closing one up to which as many have been closed as have
been opened; what a backslash escapes does not count. Reading a group finds just this delimiter, and
fails where there is none: `groupAt_spec`.
-/

namespace Reckoner.Latex

open Reckoner.Text

variable {opening closing c : Char} {cs xs ys content rest : List Char}

/-! ## Counting -/

/-- How many more delimiters are opened than closed, those behind a backslash aside. -/
def excess (opening closing : Char) : List Char → Int
  | [] => 0
  | '\\' :: _ :: cs => excess opening closing cs
  | c :: cs => (if c = opening then 1 else if c = closing then -1 else 0) + excess opening closing cs

theorem excess_escape (c : Char) (cs : List Char) :
    excess opening closing ('\\' :: c :: cs) = excess opening closing cs := by
  rw [excess]

theorem excess_cons (hc : c ≠ '\\') (cs : List Char) : excess opening closing (c :: cs) =
    (if c = opening then 1 else if c = closing then -1 else 0) + excess opening closing cs := by
  conv_lhs => unfold excess
  split
  case h_1 heq => cases heq
  case h_2 heq => cases heq; contradiction
  case h_3 heq => cases heq; rfl

/-- A backslash at the end counts for nothing. -/
theorem excess_backslash (hopening : opening ≠ '\\') (hclosing : closing ≠ '\\') :
    excess opening closing ['\\'] = 0 := by
  simp [excess, hopening.symm, hclosing.symm]

theorem prefix_cons {p : List Char} (h : p <+: c :: cs) : p = [] ∨ ∃ q, p = c :: q ∧ q <+: cs := by
  cases p with
  | nil => exact .inl rfl
  | cons d q =>
      obtain ⟨rfl, hq⟩ := List.cons_prefix_cons.mp h
      exact .inr ⟨q, rfl, hq⟩

/-! ## What is found -/

/-- What is found closes all that is open, and no piece in front of it closes more than that. -/
theorem EndsGroup.closesAll (hopening : opening ≠ '\\') (hclosing : closing ≠ '\\') {depth : Nat}
    (h : EndsGroup opening closing depth content) :
    excess opening closing content + depth = 0 ∧
      ∀ p, p <+: content → 0 ≤ excess opening closing p + depth := by
  have hnone (depth : Nat) : 0 ≤ excess opening closing [] + depth := by
    rw [excess, Int.zero_add]
    exact Int.natCast_nonneg depth
  -- a character in front changes what is open by its own count
  have hchar {c : Char} {depth inner : Nat} {content : List Char} (hc : c ≠ '\\')
      (hinner : (inner : Int) =
        (if c = opening then 1 else if c = closing then -1 else 0) + depth)
      (ih : excess opening closing content + inner = 0 ∧
        ∀ p, p <+: content → 0 ≤ excess opening closing p + inner) :
      excess opening closing (c :: content) + depth = 0 ∧
        ∀ p, p <+: c :: content → 0 ≤ excess opening closing p + depth := by
    constructor
    · rw [excess_cons hc]
      omega
    · intro p hp
      rcases prefix_cons hp with rfl | ⟨q, rfl, hq⟩
      · exact hnone depth
      · have := ih.2 q hq
        rw [excess_cons hc]
        omega
  induction h with
  | here =>
      refine ⟨rfl, fun p hp => ?_⟩
      rw [List.prefix_nil.mp hp]
      exact Int.le_refl 0
  | @escape c depth _ _ ih =>
      obtain ⟨heven, hprefix⟩ := ih
      refine ⟨by rwa [excess_escape], fun p hp => ?_⟩
      rcases prefix_cons hp with rfl | ⟨q, rfl, hq⟩
      · exact hnone depth
      rcases prefix_cons hq with rfl | ⟨r, rfl, hr⟩
      · rw [excess_backslash hopening hclosing, Int.zero_add]
        exact Int.natCast_nonneg depth
      · rw [excess_escape]
        exact hprefix r hr
  | opens hc _ ih => exact hchar hc (by rw [if_pos rfl]; omega) ih
  | closes hc hne _ ih => exact hchar hc (by rw [if_neg hne, if_pos rfl]; omega) ih
  | char hc hopen hclose _ ih => exact hchar hc (by rw [if_neg hopen, if_neg hclose]; omega) ih

/-- What stands in front of a group goes to its content. -/
theorem exists_balanced_append {depth : Nat} (xs : List Char) (inner : Nat) {more : List Char}
    (hmore : ∀ cs, balanced opening closing depth (xs ++ cs) =
      (balanced opening closing inner cs).map (lengthen xs))
    (h : ∃ content rest, balanced opening closing inner (cs ++ closing :: more) =
      some (content, rest) ∧ content.length ≤ cs.length) :
    ∃ content rest, balanced opening closing depth (xs ++ cs ++ closing :: more) =
      some (content, rest) ∧ content.length ≤ (xs ++ cs).length := by
  obtain ⟨content, rest, hfound, hlength⟩ := h
  refine ⟨xs ++ content, rest, ?_, by simpa using hlength⟩
  rw [List.append_assoc, hmore, hfound]
  rfl

/-- Where a closing delimiter closes all that is open, one is found there or before. -/
theorem exists_balanced (hclosing : closing ≠ '\\') (hne : opening ≠ closing) (depth : Nat)
    (hcs : Whole cs) (hdepth : excess opening closing cs + depth = 0) (more : List Char) :
    ∃ content rest, balanced opening closing depth (cs ++ closing :: more) = some (content, rest) ∧
      content.length ≤ cs.length := by
  induction hcs generalizing depth with
  | nil =>
      obtain rfl : depth = 0 := by
        rw [excess] at hdepth
        omega
      refine ⟨[], more, ?_, Nat.le_refl 0⟩
      rw [List.nil_append, balanced_cons hclosing, if_neg hne.symm, if_pos rfl]
  | @escape c cs _ ih =>
      rw [excess_escape] at hdepth
      exact exists_balanced_append ['\\', c] _ (balanced_escape depth c) (ih _ hdepth)
  | @char c cs hc _ ih =>
      rw [excess_cons hc] at hdepth
      by_cases hopen : c = opening
      · rw [if_pos hopen] at hdepth
        refine exists_balanced_append [c] (depth + 1) (fun cs => ?_) (ih _ (by omega))
        rw [List.singleton_append, balanced_cons hc, if_pos hopen]
      by_cases hclose : c = closing
      · rw [if_neg hopen, if_pos hclose] at hdepth
        cases depth with
        | zero =>
            refine ⟨[], cs ++ closing :: more, ?_, Nat.zero_le _⟩
            rw [List.cons_append, balanced_cons hc, if_neg hopen, if_pos hclose]
        | succ depth =>
            refine exists_balanced_append [c] depth (fun cs => ?_) (ih _ (by omega))
            rw [List.singleton_append, balanced_cons hc, if_neg hopen, if_pos hclose]
      · rw [if_neg hopen, if_neg hclose] at hdepth
        refine exists_balanced_append [c] depth (fun cs => ?_) (ih _ (by omega))
        rw [List.singleton_append, balanced_cons hc, if_neg hopen, if_neg hclose]

/-! ## Positions -/

/-- The text between two positions. -/
def between (cs : List Char) (s e : Nat) : List Char := (cs.take e).drop (s + 1)

/-- The closing delimiter at a position, which no backslash escapes, makes up for the opening one at
another position and all that are opened between them. -/
structure Closes (opening closing : Char) (cs : List Char) (s e : Nat) : Prop where
  opens : cs[s]? = some opening
  lt : s < e
  closes : cs[e]? = some closing
  whole : Whole (between cs s e)
  even : excess opening closing (between cs s e) = 0

/-- The first position from a start on that is no blank. -/
def firstSolid (cs : List Char) (start : Nat) : Nat :=
  start + ((cs.drop start).takeWhile isBlank).length

theorem drop_firstSolid (cs : List Char) (start : Nat) :
    cs.drop (firstSolid cs start) = (cs.drop start).dropWhile isBlank := by
  rw [firstSolid, ← List.drop_drop]
  calc (cs.drop start).drop ((cs.drop start).takeWhile isBlank).length
      = ((cs.drop start).takeWhile isBlank ++ (cs.drop start).dropWhile isBlank).drop
          ((cs.drop start).takeWhile isBlank).length := by rw [List.takeWhile_append_dropWhile]
    _ = (cs.drop start).dropWhile isBlank := List.drop_left

theorem between_eq (cs : List Char) (s e : Nat) :
    between cs s e = (cs.drop (s + 1)).take (e - (s + 1)) := List.drop_take

/-- The delimiters and what is between them, as a part of the text. -/
theorem Closes.drop_eq {s e : Nat} (h : Closes opening closing cs s e) :
    cs.drop s = opening :: (between cs s e ++ closing :: cs.drop (e + 1)) ∧
      e = s + (between cs s e).length + 1 := by
  have hlt := h.lt
  obtain ⟨hs, hopening⟩ := List.getElem?_eq_some_iff.mp h.opens
  obtain ⟨he, hclosing⟩ := List.getElem?_eq_some_iff.mp h.closes
  have hrest : cs.drop e = (cs.drop (s + 1)).drop (e - (s + 1)) := by
    rw [List.drop_drop]
    congr 1
    omega
  constructor
  · rw [List.drop_eq_getElem_cons hs, hopening, ← hclosing, ← List.drop_eq_getElem_cons he, hrest,
      between_eq, List.take_append_drop]
  · rw [between, List.length_drop, List.length_take]
    omega

/-- The part of the text from one delimiter up to the other. -/
theorem Closes.group_eq {s e : Nat} (h : Closes opening closing cs s e) :
    (cs.take (e + 1)).drop s = opening :: (between cs s e ++ [closing]) := by
  obtain ⟨hdrop, hlength⟩ := h.drop_eq
  have hcount : e + 1 - s = (opening :: (between cs s e ++ [closing])).length := by
    rw [List.length_cons, List.length_append, List.length_singleton]
    omega
  rw [List.drop_take, hdrop, ← cons_group_append, hcount, List.take_left]

theorem between_of_drop {s : Nat} (h : cs.drop s = opening :: (content ++ closing :: rest)) :
    between cs s (s + content.length + 1) = content := by
  have htail : cs.drop (s + 1) = content ++ closing :: rest := by
    rw [← List.tail_drop, h, List.tail_cons]
  have hlength : s + content.length + 1 - (s + 1) = content.length := by omega
  rw [between_eq, htail, hlength, List.take_left]

theorem closes_of_drop {s : Nat} (h : cs.drop s = opening :: (content ++ closing :: rest))
    (hwhole : Whole content) (heven : excess opening closing content = 0) :
    Closes opening closing cs s (s + content.length + 1) := by
  have hat (i : Nat) : cs[s + i]? = (opening :: (content ++ closing :: rest))[i]? := by
    rw [← h, List.getElem?_drop]
  have hbetween := between_of_drop h
  refine ⟨hat 0, by omega, ?_, by rwa [hbetween], by rwa [hbetween]⟩
  rw [Nat.add_assoc, hat, List.getElem?_cons_succ, List.getElem?_append_right (Nat.le_refl _),
    Nat.sub_self]
  rfl

/-! ## Groups -/

section Spec

variable {s e : Nat}

/-- The delimiter that is found is the first one that closes. -/
theorem isLeast_of_balanced (hne : opening ≠ closing) (hopening : opening ≠ '\\')
    (hclosing : closing ≠ '\\') (hdrop : cs.drop s = opening :: (content ++ closing :: rest))
    (hfound : balanced opening closing 0 (content ++ closing :: rest) = some (content, rest)) :
    IsLeast {e | Closes opening closing cs s e} (s + content.length + 1) := by
  obtain ⟨-, hends⟩ := endsGroup_of_balanced hfound
  obtain ⟨heven, -⟩ := hends.closesAll hopening hclosing
  refine ⟨closes_of_drop hdrop hends.whole (by simpa using heven), ?_⟩
  intro e he
  obtain ⟨hdrop', hlength⟩ := he.drop_eq
  obtain ⟨content', rest', hfound', hle⟩ := exists_balanced hclosing hne 0 he.whole
    (by simpa using he.even) (cs.drop (e + 1))
  obtain ⟨-, htail⟩ := List.cons.inj (hdrop.symm.trans hdrop')
  rw [← htail, hfound] at hfound'
  obtain ⟨rfl, -⟩ := Prod.mk.inj (Option.some.inj hfound')
  omega

/-- Where a delimiter closes, one is found. -/
theorem Closes.balanced_ne_none (hne : opening ≠ closing) (hclosing : closing ≠ '\\')
    (h : Closes opening closing cs s e) :
    ∃ tail, cs.drop s = opening :: tail ∧ balanced opening closing 0 tail ≠ none := by
  obtain ⟨content, rest, hfound, -⟩ := exists_balanced hclosing hne 0 h.whole
    (by simpa using h.even) (cs.drop (e + 1))
  exact ⟨_, h.drop_eq.1, by simp [hfound]⟩

/-- A group is read in front of a position exactly where the delimiter there is closed, and then up
to the first delimiter that closes it. -/
theorem read_cases (opening closing : Char) (cs : List Char) (start : Nat) :
    (∃ content rest, cs.drop (firstSolid cs start) = opening :: (content ++ closing :: rest) ∧
      balanced opening closing 0 (content ++ closing :: rest) = some (content, rest) ∧
      Group.read opening closing start (cs.drop start) = .ok ⟨firstSolid cs start + 1, content,
        firstSolid cs start + content.length + 2, rest⟩) ∨
    (∀ tail, cs.drop (firstSolid cs start) = opening :: tail →
      balanced opening closing 0 tail = none) ∧
      ∃ cause ∈ [Cause.expectedDelimiter opening.toString, .unbalancedBraces],
        Group.read opening closing start (cs.drop start) =
          .error (.located cause (firstSolid cs start)) := by
  unfold Group.read
  rw [← drop_firstSolid]
  cases hdrop : cs.drop (firstSolid cs start) with
  | nil => exact .inr ⟨by simp, _, by simp, rfl⟩
  | cons c tail =>
      by_cases hc : c = opening
      · subst hc
        cases hfound : balanced c closing 0 tail with
        | none =>
            refine .inr ⟨by simp [hfound], .unbalancedBraces, by simp, ?_⟩
            simp only [ne_eq, not_true_eq_false, if_false, hfound]
            rfl
        | some found =>
            obtain ⟨content, rest⟩ := found
            obtain ⟨rfl, -⟩ := balanced_of_balanced hfound
            refine .inl ⟨content, rest, rfl, hfound, ?_⟩
            simp only [ne_eq, not_true_eq_false, if_false, hfound]
            rfl
      · refine .inr ⟨?_, .expectedDelimiter opening.toString, by simp, ?_⟩
        · intro tail heq
          cases heq
          contradiction
        · simp only [ne_eq, hc, not_false_eq_true, if_true]
          rfl

theorem groupAt_eq (opening closing : Char) (text : String) (start : Nat) :
    groupAt opening.toString closing.toString text start =
      (Group.read opening closing start (text.toList.drop start)).map
        fun g => (String.ofList g.content, (g.stop : Int)) := by
  have hsingle (c : Char) : c.toString.toList = [c] := by
    simp [Char.toString]
  unfold groupAt Group.readBetween
  simp only [Int.natCast_nonneg, if_true, Int.toNat_natCast, hsingle]
  cases Group.read opening closing start (text.toList.drop start) <;> rfl

/-- A group is found exactly where the first character that is no blank is an opening delimiter that
some later one closes. It ends with the first that does; what it holds is balanced and closes
nowhere more than it opens. Otherwise the text is refused there. -/
theorem groupAt_spec (hne : opening ≠ closing) (hopening : opening ≠ '\\') (hclosing : closing ≠ '\\')
    (text : String) (start : Nat) :
    let cs := text.toList
    let s := firstSolid cs start
    let found := groupAt opening.toString closing.toString text start
    (∀ content stop, found = .ok (content, stop) ↔
      ∃ e : Nat, IsLeast {e | Closes opening closing cs s e} e ∧
        content.toList = between cs s e ∧ stop = e + 1) ∧
    (∀ e, IsLeast {e | Closes opening closing cs s e} e →
      (cs.take (e + 1)).drop s = opening :: (between cs s e ++ [closing]) ∧
      excess opening closing (between cs s e) = 0 ∧
      ∀ p, p <+: between cs s e → 0 ≤ excess opening closing p) ∧
    ((∃ content stop, found = .ok (content, stop)) ↔ ∃ e, Closes opening closing cs s e) ∧
    ∀ err, found = .error err → err.cause.kind = .grammatical ∧
      err.cause.code? = some "3025" ∧ err.position = some (s : Int) := by
  dsimp only
  rw [groupAt_eq]
  generalize text.toList = cs
  rcases read_cases opening closing cs start with
    ⟨content, rest, hdrop, hfound, hread⟩ | ⟨hnone, cause, hcause, hread⟩
  · have hleast := isLeast_of_balanced hne hopening hclosing hdrop hfound
    have hbetween := between_of_drop hdrop
    rw [hread]
    refine ⟨fun found stop => ?_, fun e he => ?_, ?_, ?_⟩
    · constructor
      · intro heq
        cases heq
        exact ⟨_, hleast, by simp [hbetween], by push_cast; omega⟩
      · rintro ⟨e, he, hcontent, rfl⟩
        obtain rfl := he.unique hleast
        rw [hbetween] at hcontent
        rw [← hcontent]
        change Except.ok (String.ofList found.toList, _) = _
        rw [String.ofList_toList]
        rfl
    · obtain rfl := he.unique hleast
      obtain ⟨-, hprefix⟩ := (endsGroup_of_balanced hfound).2.closesAll hopening hclosing
      refine ⟨?_, he.1.even, fun p hp => ?_⟩
      · exact he.1.group_eq
      · rw [hbetween] at hp
        simpa using hprefix p hp
    · exact iff_of_true ⟨_, _, rfl⟩ ⟨_, hleast.1⟩
    · intro err heq
      cases heq
  · have hnot (e : Nat) : ¬Closes opening closing cs (firstSolid cs start) e := by
      intro he
      obtain ⟨tail, hdrop, hfound⟩ := he.balanced_ne_none hne hclosing
      exact hfound (hnone tail hdrop)
    rw [hread]
    refine ⟨fun found stop => ?_, fun e he => absurd he.1 (hnot e), ?_, ?_⟩
    · refine iff_of_false (fun heq => by cases heq) ?_
      rintro ⟨e, he, -⟩
      exact hnot e he.1
    · refine iff_of_false ?_ fun ⟨e, he⟩ => hnot e he
      rintro ⟨_, _, heq⟩
      cases heq
    · intro err heq
      cases heq
      rcases List.mem_cons.mp hcause with rfl | hcause
      · exact ⟨rfl, rfl, rfl⟩
      · obtain rfl := List.mem_singleton.mp hcause
        exact ⟨rfl, rfl, rfl⟩

theorem groupAt_spec_escaped :
    '(' ≠ ')' ∧ '(' ≠ '\\' ∧ ')' ≠ '\\' ∧
      IsLeast {e | Closes '(' ')' " (a\\)(b)))".toList 1 e} 8 ∧
      groupAt "(" ")" " (a\\)(b)))" 0 = .ok ("a\\)(b)", 9) := by
  have hread : groupAt "(" ")" " (a\\)(b)))" 0 = .ok ("a\\)(b)", 9) :=
    eq_ok_of_toOption (by decide +kernel)
  obtain ⟨hfound, -⟩ := @groupAt_spec '(' ')' (by decide) (by decide) (by decide) " (a\\)(b)))" 0
  obtain ⟨e, hleast, -, hstop⟩ := (hfound _ _).mp hread
  obtain rfl : e = 8 := by omega
  exact ⟨by decide, by decide, by decide, hleast, hread⟩

end Spec

end Reckoner.Latex
