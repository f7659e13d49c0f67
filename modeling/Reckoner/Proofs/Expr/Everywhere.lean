import Reckoner.Expr.Validation
import Reckoner.Proofs.Expr.Grammar

/-!
# Conditions on nodes

A condition that every node of a tree meets. Validity is such a condition, and so is whatever
the lexemes of a text pass on to the nodes that they become.
-/

namespace Reckoner.Expr

mutual

/-- The tree and all of its parts meet the condition. -/
def Everywhere (p : Expr → Prop) : Expr → Prop
  | e@(negate operand) => p e ∧ Everywhere p operand
  | e@(binary _ l r) => p e ∧ Everywhere p l ∧ Everywhere p r
  | e@(call _ args) => p e ∧ EverywhereAll p args
  | e => p e

/-- All trees and their parts meet the condition. -/
def EverywhereAll (p : Expr → Prop) : List Expr → Prop
  | [] => True
  | e :: rest => Everywhere p e ∧ EverywhereAll p rest

end

variable {p q r : Expr → Prop}

theorem everywhereAll_append {es fs : List Expr} :
    EverywhereAll p (es ++ fs) ↔ EverywhereAll p es ∧ EverywhereAll p fs := by
  induction es with
  | nil => simp [EverywhereAll]
  | cons e es ih => simp [EverywhereAll, ih, and_assoc]

mutual

/-- What two conditions imply at each node, they imply everywhere. -/
theorem Everywhere.combine (h : ∀ e, p e → q e → r e) :
    ∀ e : Expr, Everywhere p e → Everywhere q e → Everywhere r e
  | .negate operand, hp, hq => by
      unfold Everywhere at *
      exact ⟨h _ hp.1 hq.1, Everywhere.combine h operand hp.2 hq.2⟩
  | .binary _ left right, hp, hq => by
      unfold Everywhere at *
      exact ⟨h _ hp.1 hq.1, Everywhere.combine h left hp.2.1 hq.2.1,
        Everywhere.combine h right hp.2.2 hq.2.2⟩
  | .call _ args, hp, hq => by
      unfold Everywhere at *
      exact ⟨h _ hp.1 hq.1, EverywhereAll.combine h args hp.2 hq.2⟩
  | .number _, hp, hq | .imaginary _, hp, hq | .constant _, hp, hq | .var _, hp, hq
  | .blank, hp, hq | .foreign .., hp, hq => h _ hp hq

theorem EverywhereAll.combine (h : ∀ e, p e → q e → r e) :
    ∀ es : List Expr, EverywhereAll p es → EverywhereAll q es → EverywhereAll r es
  | [], _, _ => trivial
  | e :: rest, hp, hq => by
      unfold EverywhereAll at *
      exact ⟨Everywhere.combine h e hp.1 hq.1, EverywhereAll.combine h rest hp.2 hq.2⟩

end

theorem Everywhere.mono (h : ∀ e, p e → q e) {e : Expr} (he : Everywhere p e) : Everywhere q e :=
  Everywhere.combine (fun e hp _ => h e hp) e he he

/-! ## Parts -/

mutual

/-- The tree and all trees in it, each before its operands. -/
def parts : Expr → List Expr
  | e@(negate operand) => e :: parts operand
  | e@(binary _ l r) => e :: (parts l ++ parts r)
  | e@(call _ args) => e :: partsAll args
  | e => [e]

/-- The arguments and all trees in them. -/
def partsAll : List Expr → List Expr
  | [] => []
  | e :: rest => parts e ++ partsAll rest

end

theorem self_mem_parts (e : Expr) : e ∈ e.parts := by
  cases e <;> simp [parts]

mutual

/-- What holds everywhere in a tree holds everywhere in its parts. -/
theorem Everywhere.part : ∀ e : Expr, Everywhere p e → ∀ part ∈ e.parts, Everywhere p part
  | .negate operand, h => by
      rw [parts, List.forall_mem_cons]
      exact ⟨h, Everywhere.part operand h.2⟩
  | .binary _ left right, h => by
      rw [parts, List.forall_mem_cons, List.forall_mem_append]
      exact ⟨h, Everywhere.part left h.2.1, Everywhere.part right h.2.2⟩
  | .call _ args, h => by
      rw [parts, List.forall_mem_cons]
      exact ⟨h, EverywhereAll.part args h.2⟩
  | .number _, h | .imaginary _, h | .constant _, h | .var _, h | .blank, h
  | .foreign .., h => List.forall_mem_singleton.mpr h

theorem EverywhereAll.part : ∀ es : List Expr, EverywhereAll p es →
    ∀ part ∈ partsAll es, Everywhere p part
  | [], _ => List.forall_mem_nil _
  | e :: rest, h => by
      rw [partsAll, List.forall_mem_append]
      exact ⟨Everywhere.part e h.1, EverywhereAll.part rest h.2⟩

end

/-! ## Validity -/

theorem nodeDefect?_constant {name : String} :
    nodeDefect? (.constant name) = none ↔ Constant.isName name = true := by
  simp [nodeDefect?]

theorem nodeDefect?_binary {op : String} {l r : Expr} :
    nodeDefect? (.binary op l r) = none ↔ (Operator.ofSymbol? op).isSome = true := by
  simp only [nodeDefect?]
  cases Operator.ofSymbol? op <;> simp

theorem orElse_eq_none {β : Type} {x : Option β} {f : Unit → Option β} :
    x.orElse f = none ↔ x = none ∧ f () = none := by
  cases x <;> simp [Option.orElse]

mutual

theorem defect?_eq_none : ∀ e : Expr,
    defect? e = none ↔ Everywhere (fun e => nodeDefect? e = none) e
  | .negate operand => by
      rw [defect?, Everywhere, orElse_eq_none, defect?_eq_none operand]
  | .binary _ left right => by
      rw [defect?, Everywhere, orElse_eq_none, orElse_eq_none, defect?_eq_none left,
        defect?_eq_none right]
  | .call _ args => by
      rw [defect?, Everywhere, orElse_eq_none, defectAll?_eq_none args]
  | .number _ | .imaginary _ | .constant _ | .var _ | .blank | .foreign .. => by
      simp [defect?, Everywhere]

theorem defectAll?_eq_none : ∀ es : List Expr,
    defectAll? es = none ↔ EverywhereAll (fun e => nodeDefect? e = none) es
  | [] => by simp [defectAll?, EverywhereAll]
  | e :: rest => by
      rw [defectAll?, EverywhereAll, orElse_eq_none, defect?_eq_none e, defectAll?_eq_none rest]

end

/-- A tree is valid if its nodes are without defects. -/
theorem isValid_iff {e : Expr} :
    e.isValid = true ↔ Everywhere (fun e => nodeDefect? e = none) e := by
  rw [isValid, Option.isNone_iff_eq_none, defect?_eq_none]

theorem validate_of_isValid {e : Expr} (h : e.isValid = true) : e.validate = .ok () := by
  rw [isValid, Option.isNone_iff_eq_none] at h
  rw [validate, h]

/-! ## Derived trees -/

/-- The trees of a phrase meet the condition everywhere. -/
def Phrase.Everywhere (p : Expr → Prop) : Phrase → Prop
  | .sum e | .product e | .signed e | .power e | .atom e => Expr.Everywhere p e
  | .arguments es => EverywhereAll p es

/-- Nodes meet the second condition if the lexemes that they come from meet the first. -/
structure Inherits (good : Lexeme → Prop) (p : Expr → Prop) : Prop where
  number : ∀ x, good (.number x) → p (.number x)
  imaginary : ∀ x, good (.imaginary x) → p (.imaginary x)
  constant : ∀ name, good (.constant name) → p (.constant name)
  var : ∀ name, good (.var name) → p (.var name)
  negate : ∀ e, p (.negate e)
  binary : ∀ op a b, good (.operator op) → p (.binary op a b)
  call : ∀ l name args, Names l name → good l → p (.call name args)

theorem Derives.everywhere {good : Lexeme → Prop} {ls : List Lexeme} {phrase : Phrase}
    (h : Derives ls phrase) (hinherits : Inherits good p) (hls : ∀ l ∈ ls, good l) :
    phrase.Everywhere p := by
  induction h with
  | product _ ih | signed _ ih | power _ ih | atom _ ih => exact ih hls
  | add _ _ _ ihl ihr | multiply _ _ _ ihl ihr | raise _ _ ihl ihr =>
      rw [List.forall_mem_append, List.forall_mem_cons] at hls
      exact ⟨hinherits.binary _ _ _ hls.2.1, ihl hls.1, ihr hls.2.2⟩
  | minus _ ih => exact ⟨hinherits.negate _, ih (List.forall_mem_cons.mp hls).2⟩
  | plus _ ih => exact ih (List.forall_mem_cons.mp hls).2
  | number x => exact hinherits.number x (hls _ List.mem_cons_self)
  | imaginary x => exact hinherits.imaginary x (hls _ List.mem_cons_self)
  | constant name => exact hinherits.constant name (hls _ List.mem_cons_self)
  | var name => exact hinherits.var name (hls _ List.mem_cons_self)
  | emptyCall hname => exact ⟨hinherits.call _ _ _ hname (hls _ List.mem_cons_self), trivial⟩
  | call hname _ ih =>
      rw [List.forall_mem_cons, List.forall_mem_cons, List.forall_mem_append] at hls
      exact ⟨hinherits.call _ _ _ hname hls.1, ih hls.2.2.1⟩
  | group _ ih =>
      rw [List.forall_mem_cons, List.forall_mem_append] at hls
      exact ih hls.2.1
  | argument _ ih => exact ⟨ih hls, trivial⟩
  | nextArgument _ _ ihl ihr =>
      rw [List.forall_mem_append, List.forall_mem_cons] at hls
      exact everywhereAll_append.mpr ⟨ihl hls.1, ihr hls.2.2, trivial⟩

end Reckoner.Expr
