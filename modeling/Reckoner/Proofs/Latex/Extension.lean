import Reckoner.Proofs.Latex.Exchange
import Reckoner.Proofs.Latex.Grouping

/-!
# A formula in front of a text, and behind one

A whole formula runs to the same pieces in front of a command that no function takes for its
argument. The edits of a formula make the same text behind pieces that are there already, if an
operand may come next and the last of these pieces stays.
-/

namespace Reckoner.Latex

open Reckoner.Text

/-! ## In front of a text -/

/-- A command, which is no argument of a function in front of it. -/
structure Barrier (more : List Char) : Prop where
  marked : Marked more
  head : more.head? ≠ some '{'
  noArgument : NoArgument more

variable {stop cs rest more name : List Char} {place : Place} {es : List Edit}

theorem Barrier.head_append (h : Barrier more) (hrest : rest.head? ≠ some '{') :
    (rest ++ more).head? ≠ some '{' := by
  cases rest with
  | nil => exact h.head
  | cons d rest => exact hrest

theorem Barrier.unmarked_append (h : Barrier more) {p : Char → Bool} (hp : Unmarked p)
    (hrest : ∀ c ∈ rest.head?, p c = false) : ∀ c ∈ (rest ++ more).head?, p c = false := by
  cases rest with
  | nil => exact h.marked.head hp
  | cons d rest => exact hrest

theorem Barrier.read (h : Barrier more) (hname : commandName (name ++ rest) = (name, rest))
    (hwhole : rest ≠ [] ∨ Whole ('\\' :: name)) :
    commandName (name ++ (rest ++ more)) = (name, rest ++ more) :=
  commandName_behind hname hwhole (h.unmarked_append unmarked_isLetter)

theorem Barrier.read_group {opening closing : Char} {group content : List Char} (h : Barrier more)
    (hgroup : Enclosed opening closing group content)
    (hname : commandName (name ++ (group ++ rest)) = (name, group ++ rest)) :
    commandName (name ++ (group ++ (rest ++ more))) = (name, group ++ (rest ++ more)) := by
  simpa using h.read hname (.inl (hgroup.append_ne_nil _))

theorem Whole.front (h : Whole (cs ++ rest)) : rest ≠ [] ∨ Whole cs := by
  by_cases hrest : rest = []
  · subst hrest
    exact .inr (by simpa using h)
  · exact .inl hrest

theorem Emits.extend {piece : List Char} (h : Emits piece rest es)
    (hwhole : rest ≠ [] ∨ Whole piece) (hmore : Barrier more) : Emits piece (rest ++ more) es := by
  cases h with
  | blank h => exact .blank h
  | run hne hrun hhead => exact .run hne hrun (hmore.unmarked_append unmarked_isPlain hhead)
  | opening h => exact .opening h
  | closing h => exact .closing h
  | sign h => exact .sign h
  | raise h =>
      refine .raise ?_
      rw [dropWhile_append_marked hmore.marked]
      exact hmore.head_append h
  | underscore h => exact .underscore (hmore.head_append h)
  | command hname h => exact .command (hmore.read hname hwhole) h
  | @delimiter name blanks d _ left _ hname h hblanks hd =>
      obtain ⟨hne, -, hd'⟩ := delimiter?_cases hd
      have hread := hmore.read hname (.inl (by simp [hne]))
      simp only [List.append_assoc] at hread
      exact .delimiter hread h hblanks (hd' _)

theorem NoArgument.extend (h : NoArgument rest) (hrest : Whole rest) (hmore : Barrier more) :
    NoArgument (rest ++ more) := by
  by_cases hblanks : rest.dropWhile isBlank = []
  · exact (noArgument_blanks (List.dropWhile_eq_nil_iff.mp hblanks)).mpr hmore.noArgument
  · exact (noArgument_append hrest hmore.marked hblanks).mpr h

/-- A whole text runs to the same pieces in front of a command that they have nothing to do with. -/
theorem Runs.extend {mid : List Char} {fs : List Edit} (h : Runs stop place cs es) (hcs : Whole cs)
    (hmore : Barrier more) (hfs : Runs mid .piece (stop ++ more) fs) :
    Runs mid place (cs ++ more) (es ++ fs) := by
  have hgroup {group content rest : List Char} (h : Enclosed '{' '}' group content)
      (hcs : Whole (group ++ rest)) : Whole rest := (h.whole (by decide) (by decide)).of_append hcs
  induction h with
  | finish => exact hfs
  | piece h _ ih =>
      rw [List.append_assoc, List.append_assoc]
      exact .piece (h.extend hcs.front hmore)
        (ih ((h.solid hcs.front).whole.of_append hcs) hfs)
  | @group _ content rest _ _ h hcontent _ _ ih =>
      have hrest : Whole rest :=
        (h.whole.of_append (hcs.behind_char (by decide))).behind_char (by decide)
      simpa using Runs.group h hcontent (ih hrest hfs)
  | power h hcontent _ _ ih =>
      simpa using Runs.power h hcontent (ih (hgroup h (hcs.behind_char (by decide))) hfs)
  | @index _ content rest _ _ h hcontent _ _ ih =>
      have hrest : Whole rest := (h.whole.of_append
        ((hcs.behind_char (by decide)).behind_char (by decide))).behind_char (by decide)
      simpa using Runs.index h hcontent (ih hrest hfs)
  | fraction hname hcommand h habove h' hbelow _ _ _ ih =>
      have hrest := hgroup h' (hgroup h ((h.solid_command hname).whole.of_append hcs))
      have hread := hmore.read_group h hname
      simp only [List.append_assoc] at hread
      simpa using Runs.fraction hread hcommand h habove h' hbelow (ih hrest hfs)
  | root hname hcommand h hindex h' hradicand _ _ _ ih =>
      have hbehind := (h.solid_command hname).whole.of_append hcs
      have hrest := hgroup h' ((h.whole (by decide) (by decide)).of_append hbehind)
      have hread := hmore.read_group h hname
      simp only [List.append_assoc] at hread
      simpa using Runs.root hread hcommand h hindex h' hradicand (ih hrest hfs)
  | squareRoot hname hcommand h hradicand _ _ ih =>
      have hrest := hgroup h ((h.solid_command hname).whole.of_append hcs)
      simpa using Runs.squareRoot (hmore.read_group h hname) hcommand h hradicand (ih hrest hfs)
  | text hname hcommand h hcontent _ _ ih =>
      have hrest := hgroup h ((h.solid_command hname).whole.of_append hcs)
      simpa using Runs.text (hmore.read_group h hname) hcommand h hcontent (ih hrest hfs)
  | namedFunction hname hcommand h hcontent _ _ ih =>
      have hrest := hgroup h ((h.solid_command hname).whole.of_append hcs)
      simpa using Runs.namedFunction (hmore.read_group h hname) hcommand h hcontent (ih hrest hfs)
  | @function _ name rest _ _ hname hcommand _ ih =>
      have hwhole : rest ≠ [] ∨ Whole ('\\' :: name) := hcs.front
      have hrest := (solid_command hname hwhole).whole.of_append hcs
      simpa using Runs.function (hmore.read hname hwhole) hcommand (ih hrest hfs)
  | groupArgument h hcontent _ _ ih =>
      simpa using Runs.groupArgument h hcontent (ih (hgroup h hcs) hfs)
  | @runArgument _ blanks c run rest _ hblanks hc hrun hhead _ ih =>
      have hplain : ∀ d ∈ c :: run, isPlain d = true :=
        List.forall_mem_cons.mpr ⟨by rw [isPlain, hc]; rfl, hrun⟩
      have hsolid := (solid_blanks hblanks).append (solid_class hplain (by decide))
      rw [← List.append_assoc] at hcs
      have hhead' := hmore.unmarked_append unmarked_isPlain hhead
      simpa using Runs.runArgument hblanks hc hrun hhead' (ih (hsolid.whole.of_append hcs) hfs)
  | @commandArgument _ blanks name rest argument _ hblanks hname hleft h _ ih =>
      have hbehind := (solid_blanks hblanks).whole.of_append hcs
      have hwhole : rest ≠ [] ∨ Whole ('\\' :: name) := hbehind.front
      have hrest := (solid_command hname hwhole).whole.of_append hbehind
      have hleft' : "left".toList.isPrefixOf (name ++ (rest ++ more)) = false := by
        rw [← List.append_assoc,
          isPrefixOf_append_head (hmore.marked.head unmarked_isLetter) letters_left, hleft]
      simpa using Runs.commandArgument hblanks (hmore.read hname hwhole) hleft' h (ih hrest hfs)
  | noArgument h _ ih => exact .noArgument (h.extend hcs hmore) (ih hcs hfs)

/-! ## Behind a text -/

/-- The second output has the pieces of the first one behind others, and goes on in the same way. -/
structure Behind (base : List (List Char)) (out out' : Output) : Prop where
  pieces : out'.pieces = out.pieces ++ base
  operandEnd : out'.operandEnd = out.operandEnd
  afterFunction : out'.afterFunction = out.afterFunction
  commandEnd : out.operandEnd = true → out'.commandEnd = out.commandEnd

namespace Behind

variable {base : List (List Char)} {out out' : Output}

theorem text (h : Behind base out out') : out'.text = base.reverse.flatten ++ out.text := by
  simp [Output.text, h.pieces]

section Base

variable (hbase : ∃ piece rest, base = piece :: rest ∧ allBlank piece = false)

include hbase

/-- Blanks are only taken from the pieces of the first output. -/
theorem before (h : Behind base out out') (fromCommand : Bool) :
    (out'.before fromCommand).pieces = (out.before fromCommand).pieces ++ base := by
  obtain ⟨piece, rest, rfl, hpiece⟩ := hbase
  unfold Output.before
  rw [h.operandEnd, h.afterFunction]
  cases hend : out.operandEnd with
  | false => exact h.pieces
  | true =>
      rw [h.commandEnd hend]
      split
      · unfold Output.multiply
        rw [h.pieces, Groups.dropWhile_append_cons hpiece]
        rfl
      · exact h.pieces

theorem apply (h : Behind base out out') (e : Edit) : Behind base (e.apply out) (e.apply out') := by
  have hoperand (piece : List Char) (fromCommand : Bool) :
      piece :: (out'.before fromCommand).pieces =
        piece :: (out.before fromCommand).pieces ++ base := by
    rw [h.before hbase]
    rfl
  cases e with
  | operand piece fromCommand => exact ⟨hoperand piece fromCommand, rfl, rfl, fun _ => rfl⟩
  | append piece =>
      exact ⟨congrArg (piece :: ·) h.pieces, h.operandEnd, h.afterFunction, h.commandEnd⟩
  | closing piece | operator piece => exact ⟨congrArg (piece :: ·) h.pieces, rfl, rfl, fun _ => rfl⟩
  | opening piece fromCommand =>
      simp only [Edit.apply, Output.opening, h.afterFunction]
      split
      · exact ⟨congrArg (piece :: ·) h.pieces, rfl, rfl, fun _ => rfl⟩
      · exact ⟨hoperand piece fromCommand, rfl, rfl, fun _ => rfl⟩
  | brace => exact ⟨hoperand ['('] true, rfl, rfl, fun _ => rfl⟩
  | awaiting => exact ⟨h.pieces, h.operandEnd, rfl, h.commandEnd⟩

theorem applyAll (h : Behind base out out') (es : List Edit) :
    Behind base (Edit.applyAll out es) (Edit.applyAll out' es) := by
  induction es generalizing out out' with
  | nil => exact h
  | cons e es ih => exact ih (h.apply hbase e)

end Base

end Behind

end Reckoner.Latex
