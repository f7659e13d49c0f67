import Reckoner.Proofs.Latex.Writing

/-!
# Solid texts

A text can be cut where no backslash is cut off from its character, and the number of open braces is
the same on both sides. All pieces of a text are of this kind, so a group stays a group when another
such text is put into its content.
-/

namespace Reckoner.Latex

open Reckoner.Text

variable {opening closing c : Char} {cs xs ys : List Char}

/-! ## Backslashes with their characters -/

/-- Every backslash has its character. -/
inductive Whole : List Char → Prop
  | nil : Whole []
  | escape (c : Char) {cs : List Char} (h : Whole cs) : Whole ('\\' :: c :: cs)
  | char {c : Char} {cs : List Char} (hc : c ≠ '\\') (h : Whole cs) : Whole (c :: cs)

theorem Whole.append (hx : Whole xs) (hy : Whole ys) : Whole (xs ++ ys) := by
  induction hx with
  | nil => exact hy
  | escape c _ ih => exact .escape c ih
  | char hc _ ih => exact .char hc ih

theorem Whole.behind_escape (h : Whole ('\\' :: c :: cs)) : Whole cs := by
  cases h with
  | escape _ h => exact h
  | char hc _ => exact absurd rfl hc

theorem Whole.behind_char (h : Whole (c :: cs)) (hc : c ≠ '\\') : Whole cs := by
  cases h with
  | escape => exact absurd rfl hc
  | char _ h => exact h

theorem Whole.of_append (hx : Whole xs) (h : Whole (xs ++ ys)) : Whole ys := by
  induction hx with
  | nil => exact h
  | escape c _ ih => exact ih h.behind_escape
  | char hc _ ih => exact ih (h.behind_char hc)

theorem EndsGroup.whole {depth : Nat} (h : EndsGroup opening closing depth cs) : Whole cs := by
  induction h with
  | here => exact .nil
  | escape c _ ih => exact .escape c ih
  | opens hc _ ih | closes hc _ _ ih | char hc _ _ _ ih => exact .char hc ih

theorem Balanced.whole (h : Balanced opening closing cs) : Whole cs :=
  (endsGroup_of_balanced (h [])).2.whole

/-- A number of delimiters is open behind the text, or one closes in it that was not open. -/
def Counts (opening closing : Char) (depth : Nat) (cs : List Char) : Prop :=
  (∃ depth', ∀ rest, balanced opening closing depth (cs ++ rest) =
    (balanced opening closing depth' rest).map (lengthen cs)) ∨
  ∀ rest, ∃ content tail, balanced opening closing depth (cs ++ rest) = some (content, tail) ∧
    content.length < cs.length

theorem Counts.behind {depth inner : Nat} (h : Counts opening closing inner cs) (more : List Char)
    (hmore : ∀ cs, balanced opening closing depth (more ++ cs) =
      (balanced opening closing inner cs).map (lengthen more)) :
    Counts opening closing depth (more ++ cs) := by
  rcases h with ⟨depth', h⟩ | h
  · refine .inl ⟨depth', fun rest => ?_⟩
    rw [List.append_assoc, hmore, h, Option.map_map, lengthen_append]
  · refine .inr fun rest => ?_
    obtain ⟨content, tail, hfound, hlength⟩ := h rest
    refine ⟨more ++ content, tail, ?_, ?_⟩
    · rw [List.append_assoc, hmore, hfound]
      rfl
    · simpa using hlength

theorem Whole.counts (h : Whole cs) (depth : Nat) : Counts opening closing depth cs := by
  induction h generalizing depth with
  | nil =>
      refine .inl ⟨depth, fun rest => ?_⟩
      exact neutral_nil depth rest
  | escape c _ ih => exact (ih depth).behind ['\\', c] (balanced_escape depth c)
  | @char c cs hc _ ih =>
      by_cases hopening : c = opening
      · exact (ih (depth + 1)).behind [c] fun cs => by
          rw [List.singleton_append, balanced_cons hc, if_pos hopening]
      by_cases hclosing : c = closing
      · cases depth with
        | zero =>
            refine .inr fun rest => ⟨[], cs ++ rest, ?_, by simp⟩
            rw [List.cons_append, balanced_cons hc, if_neg hopening, if_pos hclosing]
        | succ depth =>
            exact (ih depth).behind [c] fun cs => by
              rw [List.singleton_append, balanced_cons hc, if_neg hopening, if_pos hclosing]
      · exact (ih depth).behind [c] fun cs => by
          rw [List.singleton_append, balanced_cons hc, if_neg hopening, if_neg hclosing]

/-- What leaves the count as it is can be put anywhere into a content. -/
theorem Balanced.insert (h : Balanced opening closing (xs ++ ys)) (hx : Whole xs)
    (hcs : Neutral opening closing cs) : Balanced opening closing (xs ++ (cs ++ ys)) := by
  intro rest
  have hfound := h rest
  rw [List.append_assoc] at hfound
  have hcounts : Counts opening closing 0 xs := hx.counts 0
  rcases hcounts with ⟨depth, hcount⟩ | hcount
  · rw [hcount] at hfound
    obtain ⟨⟨content, tail⟩, hinner, heq⟩ := Option.map_eq_some_iff.mp hfound
    obtain ⟨hcontent, rfl⟩ := Prod.mk.inj heq
    obtain rfl := List.append_cancel_left hcontent
    rw [List.append_assoc, hcount, List.append_assoc, hcs, hinner]
    rfl
  · obtain ⟨content, tail, hshort, hlength⟩ := hcount (ys ++ closing :: rest)
    rw [hfound] at hshort
    cases hshort
    rw [List.length_append] at hlength
    omega

/-! ## Solid texts -/

/-- Every backslash has its character, and every brace its counterpart. -/
structure Solid (cs : List Char) : Prop where
  whole : Whole cs
  neutral : Neutral '{' '}' cs

theorem solid_nil : Solid [] := ⟨.nil, neutral_nil⟩

theorem Solid.append (hx : Solid xs) (hy : Solid ys) : Solid (xs ++ ys) :=
  ⟨hx.whole.append hy.whole, hx.neutral.append hy.neutral⟩

theorem Solid.balanced (h : Solid cs) : Balanced '{' '}' cs :=
  h.neutral.balanced (by decide) (by decide)

theorem solid_char (h : c ∉ ['\\', '{', '}']) : Solid [c] := by
  simp only [List.mem_cons, List.not_mem_nil, or_false, not_or] at h
  exact ⟨.char h.1 .nil, neutral_char h.1 h.2.1 h.2.2⟩

theorem solid_chars (h : ∀ c ∈ cs, c ∉ ['\\', '{', '}']) : Solid cs := by
  induction cs with
  | nil => exact solid_nil
  | cons c cs ih =>
      rw [List.forall_mem_cons] at h
      exact (solid_char h.1).append (ih h.2)

/-- The characters of a class that has no markup in it. -/
theorem solid_class {p : Char → Bool} (h : ∀ c ∈ cs, p c = true)
    (hp : ['\\', '{', '}'].all (fun c => !p c) = true) : Solid cs := by
  refine solid_chars fun c hc hmem => ?_
  simpa [h c hc] using List.all_eq_true.mp hp c hmem

theorem solid_blanks (h : ∀ b ∈ cs, isBlank b = true) : Solid cs := solid_class h (by decide)

theorem solid_escape (c : Char) : Solid ['\\', c] := ⟨.escape c .nil, neutral_escape c⟩

theorem Solid.braces (h : Solid cs) : Solid ('{' :: (cs ++ ['}'])) := by
  refine ⟨?_, h.neutral.enclose (by decide) (by decide) (by decide)⟩
  exact .char (by decide) (h.whole.append (.char (by decide) .nil))

theorem Solid.group {group : List Char} (hgroup : Enclosed '{' '}' group cs) (h : Solid cs) :
    Solid group := by
  cases hgroup with
  | intro hblanks => exact (solid_blanks hblanks).append h.braces

theorem Solid.brackets {group : List Char} (hgroup : Enclosed '[' ']' group cs) (h : Solid cs) :
    Solid group := by
  cases hgroup with
  | intro hblanks =>
      exact (solid_blanks hblanks).append
        ((solid_char (by decide)).append (h.append (solid_char (by decide))))

/-- The name of a command is a run of letters or a single character. -/
theorem commandName_cases {name rest : List Char} (h : commandName (name ++ rest) = (name, rest)) :
    (name = [] ∧ rest = []) ∨ (∃ c, name = [c] ∧ isLetter c = false) ∨
      (name ≠ [] ∧ (∀ c ∈ name, isLetter c = true) ∧ ∀ c ∈ rest.head?, isLetter c = false) := by
  have hfirst := congrArg Prod.fst h
  have hsecond := congrArg Prod.snd h
  generalize htext : name ++ rest = text at hfirst hsecond
  cases text with
  | nil => exact .inl (List.append_eq_nil_iff.mp htext)
  | cons c tail =>
      by_cases hc : isLetter c = true
      · rw [commandName, if_pos hc] at hfirst hsecond
        dsimp only at hfirst hsecond
        refine .inr (.inr ⟨?_, ?_, ?_⟩)
        · rw [← hfirst, List.takeWhile_cons_of_pos hc]
          exact List.cons_ne_nil _ _
        · rw [← hfirst]
          exact fun d hd => List.mem_takeWhile_imp hd
        · rw [← hsecond]
          exact head_dropWhile isLetter _
      · rw [commandName, if_neg hc] at hfirst
        exact .inr (.inl ⟨c, hfirst.symm, by simpa using hc⟩)

theorem solid_command {name rest : List Char} (h : commandName (name ++ rest) = (name, rest))
    (hend : rest ≠ [] ∨ Whole ('\\' :: name)) : Solid ('\\' :: name) := by
  rcases commandName_cases h with ⟨rfl, rfl⟩ | ⟨c, rfl, -⟩ | ⟨hne, hletters, -⟩
  · rcases hend with hend | hend
    · exact absurd rfl hend
    · cases hend with
      | char hc => exact absurd rfl hc
  · exact solid_escape c
  · obtain ⟨c, name, rfl⟩ := List.exists_cons_of_ne_nil hne
    exact (solid_escape c).append
      (solid_class (List.forall_mem_cons.mp hletters).2 (by decide))

/-- A delimiter is a character or a brace behind a backslash, whatever follows. -/
theorem delimiter?_cases {left : Bool} {d rest : List Char} {piece : String}
    (h : delimiter? left (d ++ rest) = some (piece, rest)) :
    d ≠ [] ∧ Solid d ∧ ∀ rest', delimiter? left (d ++ rest') = some (piece, rest') := by
  generalize htext : d ++ rest = text at h
  have hpart {more tail : List Char} (heq : tail = rest) (hmore : d ++ rest = more ++ tail) :
      d = more := by
    rw [heq] at hmore
    exact List.append_cancel_right hmore
  have hescape {c : Char} {tail : List Char} (heq : tail = rest)
      (hmore : d ++ rest = '\\' :: c :: tail) : d = ['\\', c] := hpart heq hmore
  have hsingle {c : Char} {tail : List Char} (heq : tail = rest)
      (hmore : d ++ rest = c :: tail) : d = [c] := hpart heq hmore
  unfold delimiter? at h
  split at h
  case h_1 =>
      cases left <;> cases h
      rw [hescape rfl htext]
      exact ⟨List.cons_ne_nil _ _, solid_escape _, fun _ => rfl⟩
  case h_2 =>
      cases left <;> cases h
      rw [hescape rfl htext]
      exact ⟨List.cons_ne_nil _ _, solid_escape _, fun _ => rfl⟩
  case h_3 | h_4 | h_5 | h_6 =>
      cases left <;> cases h
      rw [hsingle rfl htext]
      exact ⟨List.cons_ne_nil _ _, solid_char (by decide), fun _ => rfl⟩
  case h_7 | h_8 =>
      cases h
      rw [hsingle rfl htext]
      exact ⟨List.cons_ne_nil _ _, solid_char (by decide), fun _ => rfl⟩
  case h_9 => cases h

theorem Emits.solid {piece rest : List Char} {es : List Edit} (h : Emits piece rest es)
    (hend : rest ≠ [] ∨ Whole piece) : Solid piece := by
  cases h with
  | blank h => exact solid_blanks (by simpa using h)
  | run _ hrun _ => exact solid_class hrun (by decide)
  | opening h | closing h => rcases h with rfl | rfl <;> exact solid_char (by decide)
  | sign h =>
      refine solid_char fun hmem => h.1 ?_
      exact List.mem_append_left ['^', '_', '(', '[', ')', ']'] hmem
  | raise | underscore => exact solid_char (by decide)
  | command hname _ => exact solid_command hname hend
  | delimiter hname _ hblanks hd =>
      obtain ⟨hne, hsolid, -⟩ := delimiter?_cases hd
      exact (solid_command hname (.inl (by simp [hne]))).append
        ((solid_blanks hblanks).append hsolid)

/-! ## Texts of pieces -/

/-- In front of where the pieces stop stands a solid text. -/
def SolidFront (stop cs : List Char) : Prop := ∃ front, cs = front ++ stop ∧ Solid front

theorem SolidFront.behind {stop piece rest : List Char}
    (hpiece : rest ≠ [] ∨ Whole piece → Solid piece)
    (hend : stop ≠ [] ∨ Whole (piece ++ rest)) (h : stop ≠ [] ∨ Whole rest → SolidFront stop rest) :
    SolidFront stop (piece ++ rest) := by
  have hsolid : Solid piece := by
    apply hpiece
    by_cases hrest : rest = []
    · subst hrest
      rw [List.append_nil] at hend
      refine .inr (hend.resolve_left fun hstop => ?_)
      obtain ⟨front, hfront, -⟩ := h (.inl hstop)
      exact hstop (List.append_eq_nil_iff.mp hfront.symm).2
    · exact .inl hrest
  obtain ⟨front, rfl, hfront⟩ := h (hend.imp_right hsolid.whole.of_append)
  exact ⟨piece ++ front, (List.append_assoc ..).symm, hsolid.append hfront⟩

theorem SolidFront.content (h : [] ≠ ([] : List Char) ∨ Whole cs → SolidFront [] cs)
    (hcs : Balanced opening closing cs) : Solid cs := by
  obtain ⟨front, rfl, hfront⟩ := h (.inr hcs.whole)
  rwa [List.append_nil]

theorem Enclosed.whole {group : List Char} (h : Enclosed opening closing group cs)
    (hopening : opening ≠ '\\') (hclosing : closing ≠ '\\') : Whole group := by
  cases h with
  | intro hblanks hcontent =>
      exact (solid_blanks hblanks).whole.append
        (.char hopening (hcontent.whole.append (.char hclosing .nil)))

theorem Enclosed.append_ne_nil {group : List Char} (h : Enclosed opening closing group cs)
    (rest : List Char) : group ++ rest ≠ [] := by
  cases h with
  | intro => simp

/-- A command in front of a group. -/
theorem Enclosed.solid_command {group name rest : List Char}
    (h : Enclosed opening closing group cs)
    (hname : commandName (name ++ (group ++ rest)) = (name, group ++ rest)) :
    Solid ('\\' :: name) :=
  Latex.solid_command hname (.inl (h.append_ne_nil rest))

theorem Runs.solid {stop : List Char} {place : Place} {es : List Edit} (h : Runs stop place cs es)
    (hend : stop ≠ [] ∨ Whole cs) : SolidFront stop cs := by
  induction h with
  | finish => exact ⟨[], rfl, solid_nil⟩
  | piece h _ ih => exact .behind h.solid hend ih
  | @group _ content rest _ _ h _ _ ih ihrest =>
      have hpiece := (SolidFront.content ih h).braces
      rw [← cons_group_append] at hend ⊢
      exact .behind (fun _ => hpiece) hend ihrest
  | @power _ group _ rest _ _ h _ _ ih ihrest =>
      have hpiece := (solid_char (c := '^') (by decide)).append
        ((SolidFront.content ih h.balanced).group h)
      have htext : '^' :: (group ++ rest) = (['^'] ++ group) ++ rest := rfl
      rw [htext] at hend ⊢
      exact .behind (fun _ => hpiece) hend ihrest
  | @index _ content rest _ _ h _ _ ih ihrest =>
      have hpiece := (solid_char (c := '_') (by decide)).append (SolidFront.content ih h).braces
      have htext : '_' :: '{' :: (content ++ '}' :: rest) =
          (['_'] ++ '{' :: (content ++ ['}'])) ++ rest := by simp
      rw [htext] at hend ⊢
      exact .behind (fun _ => hpiece) hend ihrest
  | @fraction _ name group _ group' _ rest _ _ _ hname _ h _ h' _ _ ih ih' ihrest =>
      have hpiece := (h.solid_command hname).append
        (((SolidFront.content ih h.balanced).group h).append
          ((SolidFront.content ih' h'.balanced).group h'))
      have htext : '\\' :: (name ++ (group ++ (group' ++ rest))) =
          ('\\' :: name ++ (group ++ group')) ++ rest := by simp
      rw [htext] at hend ⊢
      exact .behind (fun _ => hpiece) hend ihrest
  | @root _ name group _ group' _ rest _ _ _ hname _ h _ h' _ _ ih ih' ihrest =>
      have hpiece := (h.solid_command hname).append
        (((SolidFront.content ih h.balanced).brackets h).append
          ((SolidFront.content ih' h'.balanced).group h'))
      have htext : '\\' :: (name ++ (group ++ (group' ++ rest))) =
          ('\\' :: name ++ (group ++ group')) ++ rest := by simp
      rw [htext] at hend ⊢
      exact .behind (fun _ => hpiece) hend ihrest
  | @squareRoot _ name group _ rest _ _ hname _ h _ _ ih ihrest
  | @text _ name group _ rest _ _ hname _ h _ _ ih ihrest
  | @namedFunction _ name group _ rest _ _ hname _ h _ _ ih ihrest =>
      have hpiece := (h.solid_command hname).append ((SolidFront.content ih h.balanced).group h)
      have htext : '\\' :: (name ++ (group ++ rest)) = ('\\' :: name ++ group) ++ rest := by simp
      rw [htext] at hend ⊢
      exact .behind (fun _ => hpiece) hend ihrest
  | @function _ name rest _ _ hname _ _ ih =>
      have htext : '\\' :: (name ++ rest) = ('\\' :: name) ++ rest := rfl
      rw [htext] at hend ⊢
      exact .behind (solid_command hname) hend ih
  | groupArgument h _ _ ih ihrest =>
      have hpiece := (SolidFront.content ih h.balanced).group h
      exact .behind (fun _ => hpiece) hend ihrest
  | @runArgument _ blanks c run rest _ hblanks hc hrun _ _ ih =>
      have hplain : ∀ d ∈ c :: run, isPlain d = true :=
        List.forall_mem_cons.mpr ⟨by rw [isPlain, hc]; rfl, hrun⟩
      have hpiece := (solid_blanks hblanks).append (solid_class hplain (by decide))
      rw [← List.append_assoc] at hend ⊢
      exact .behind (fun _ => hpiece) hend ih
  | @commandArgument _ blanks name rest _ _ hblanks hname _ _ _ ih =>
      have htext : blanks ++ '\\' :: (name ++ rest) = (blanks ++ '\\' :: name) ++ rest := by simp
      rw [htext] at hend ⊢
      refine .behind (fun hpiece => ?_) hend ih
      exact (solid_blanks hblanks).append
        (solid_command hname (hpiece.imp_right (solid_blanks hblanks).whole.of_append))
  | noArgument _ _ ih => exact ih hend

end Reckoner.Latex
