import Reckoner.Proofs.Expr.RoundTrip

/-!
# Which trees are read

The trees that texts are read as are the well-formed ones. Reading makes no other nodes: a number
has no sign, since signs are operators, and a name of a function or a constant never stands for a
variable. Conversely a well-formed tree has a text in which all operands stand in parentheses. It is
not always the printed one, since that has a name in the place of infinity.
-/

namespace Reckoner

open Token Text Double

/-! ## Names -/

/-- No function has the name of a constant. -/
theorem Function.isName_eq_false {name : String} (h : (Function.ofName? name).isSome = true) :
    Constant.isName name = false := by
  obtain ⟨f, hf⟩ := Option.isSome_iff_exists.mp h
  have hname : f.name = name := by simpa using List.find?_some hf
  rw [← hname]
  cases f <;> decide

theorem Token.named_eq_var_iff {name : String} :
    named name = .var name ↔
      (Function.ofName? name).isSome = false ∧ Constant.isName name = false := by
  unfold named
  cases (Function.ofName? name).isSome <;> cases Constant.isName name <;> simp

theorem Token.named_eq_function_iff {name : String} :
    named name = .function name ↔ (Function.ofName? name).isSome = true := by
  unfold named
  cases (Function.ofName? name).isSome <;> cases Constant.isName name <;> simp

namespace Expr

/-- A well-formed node: numbers are numbers without a sign, the operators and constants are known,
variables have names that are no others, and calls have names that are no constants. -/
def IsWellFormed : Expr → Prop
  | number x | imaginary x => x.isNaN = false ∧ isNegative x = false
  | constant name => Constant.isName name = true
  | var name => IsIdentifier name ∧ (Function.ofName? name).isSome = false ∧
      Constant.isName name = false
  | negate _ => True
  | binary op _ _ => op ∈ ["+", "-", "*", "/", "^"]
  | call name _ => IsIdentifier name ∧ Constant.isName name = false
  | blank | foreign .. => False

theorem lexemeOf?_eq_var_iff {name : String} :
    lexemeOf? name = some (.var name) ↔ IsIdentifier name ∧
      (Function.ofName? name).isSome = false ∧ Constant.isName name = false := by
  rw [← named_eq_var_iff]
  constructor
  · exact fun h => isIdentifier_of_lexemeOf? h (.inl rfl)
  · rintro ⟨hname, hnamed⟩
    rw [hname.lexemeOf?, hnamed]

theorem lexemeOf?_eq_function_iff {name : String} :
    lexemeOf? name = some (.function name) ↔
      IsIdentifier name ∧ (Function.ofName? name).isSome = true := by
  rw [← named_eq_function_iff]
  constructor
  · exact fun h => isIdentifier_of_lexemeOf? h (.inr rfl)
  · rintro ⟨hname, hnamed⟩
    rw [hname.lexemeOf?, hnamed]

/-- The nodes that reading makes are the well-formed ones. -/
theorem isRead_iff {e : Expr} : IsRead e ↔ IsWellFormed e := by
  cases e with
  | var name => exact lexemeOf?_eq_var_iff
  | call name args =>
      change _ ∨ _ ↔ IsIdentifier name ∧ Constant.isName name = false
      rw [lexemeOf?_eq_var_iff, lexemeOf?_eq_function_iff, ← and_or_left]
      refine and_congr_right fun _ => ?_
      constructor
      · rintro (⟨-, hconstant⟩ | hfunction)
        · exact hconstant
        · exact Function.isName_eq_false hfunction
      · intro hconstant
        cases (Function.ofName? name).isSome with
        | true => exact .inr rfl
        | false => exact .inl ⟨rfl, hconstant⟩
  | _ => exact Iff.rfl

/-! ## Texts for trees -/

/-- There is a text that is read as the tree wherever an operand may stand. -/
def HasText (e : Expr) : Prop := ∃ s : String, Writes s.toList (.atom e)

theorem HasText.of_writes {s : String} {e : Expr} {n : Nat} (h : Writes s.toList (level n e)) :
    HasText e :=
  ⟨wrap s, (h.mono (Nat.zero_le n)).wrap⟩

theorem hasText_number {x : Float} (hnan : x.isNaN = false) (hneg : isNegative x = false) :
    HasText (.number x) := by
  cases hinf : x.isInf with
  | true =>
      rw [eq_infinity hinf hneg]
      exact ⟨"1e999", .atom spells_infinite.lexes (.number _)⟩
  | false =>
      have hwrites := writes_unsigned hnan hneg
      rw [rereadUnsigned, hinf] at hwrites
      exact ⟨numberText x, hwrites⟩

theorem HasText.negate {e : Expr} (h : HasText e) : HasText (.negate e) := by
  obtain ⟨s, hs⟩ := h
  have hwrites : Writes ("-" ++ s).toList (.signed (.negate e)) := by
    rw [String.toList_append]
    exact (hs.atLevel 3).minus
  exact .of_writes (n := 3) hwrites

theorem HasText.binary {op : String} (hop : op ∈ ["+", "-", "*", "/", "^"]) {l r : Expr}
    (hl : HasText l) (hr : HasText r) : HasText (.binary op l r) := by
  obtain ⟨left, hleft⟩ := hl
  obtain ⟨right, hright⟩ := hr
  rcases isSpaced_or_eq_power hop with hspaced | rfl
  · exact .of_writes (.spaced hspaced (hleft.atLevel _) (hright.atLevel _)
      fun _ _ => derives_spaced hspaced)
  · exact .of_writes (n := 4) (hleft.raised (hright.atLevel 3))

/-- There are texts that are read as the arguments. -/
def HaveTexts (es : List Expr) : Prop :=
  ∃ s rest, Writes (commaSeparated (s :: rest)).toList (.arguments es)

theorem HasText.haveTexts {e : Expr} (h : HasText e) : HaveTexts [e] := by
  obtain ⟨s, hs⟩ := h
  exact ⟨s, [], (hs.atLevel 0).argument⟩

theorem HaveTexts.cons {e : Expr} {es : List Expr} (he : HasText e) (hes : HaveTexts es) :
    HaveTexts (e :: es) := by
  obtain ⟨s, hs⟩ := he
  obtain ⟨t, rest, hrest⟩ := hes
  exact ⟨s, t :: rest, (hs.atLevel 0).consArgument hrest⟩

theorem hasText_call {name : String} {args : List Expr} (hname : IsRead (.call name args))
    (hargs : args ≠ [] → HaveTexts args) : HasText (.call name args) := by
  have hcall : IsCallName name := ⟨name, hname⟩
  rw [← rereadCall_of_isRead hname]
  cases args with
  | nil => exact ⟨_, writes_emptyCall hcall⟩
  | cons e es =>
      obtain ⟨s, rest, hwrites⟩ := hargs (List.cons_ne_nil e es)
      exact ⟨_, .call hcall hwrites⟩

mutual

/-- By induction on the tree: an operand stands in parentheses, which fit everywhere. -/
theorem hasText_of_isRead : ∀ e : Expr, e.Everywhere IsRead → HasText e
  | .number _, h => hasText_number h.1 h.2
  | .imaginary x, h => ⟨imaginaryText x, writes_unsigned_imaginary h.1 h.2⟩
  | .constant name, h => ⟨name, .atom (spells_constant h).lexes (.constant name)⟩
  | .var name, h => ⟨name, .atom (Cut.of_lexemeOf? h).lexes (.var name)⟩
  | .negate e, h => (hasText_of_isRead e h.2).negate
  | .binary _ l r, h => .binary h.1 (hasText_of_isRead l h.2.1) (hasText_of_isRead r h.2.2)
  | .call _ args, h => hasText_call h.1 (haveTexts_of_isRead args h.2)
  | .blank, h | .foreign .., h => h.elim

theorem haveTexts_of_isRead : ∀ es : List Expr, EverywhereAll IsRead es → es ≠ [] → HaveTexts es
  | [], _, hne => absurd rfl hne
  | [e], h, _ => (hasText_of_isRead e h.1).haveTexts
  | e :: f :: rest, h, _ =>
      .cons (hasText_of_isRead e h.1) (haveTexts_of_isRead (f :: rest) h.2 (List.cons_ne_nil f rest))

end

/-- Texts are read as the well-formed trees, as all of them and as no others, and these are
valid. -/
theorem exists_ofText_iff (e : Expr) :
    ((∃ source, ofText source = .ok e) ↔ e.Everywhere IsWellFormed) ∧
      ((∃ source, ofText source = .ok e) → e.validate = .ok ()) := by
  have himage : (∃ source, ofText source = .ok e) → e.Everywhere IsWellFormed := by
    rintro ⟨source, hread⟩
    exact (isRead_of_ofText hread).mono fun _ hnode => isRead_iff.mp hnode
  have hvalid : (∃ source, ofText source = .ok e) → e.validate = .ok () := by
    rintro ⟨source, hread⟩
    have hnodes := (isRead_of_ofText hread).mono fun _ => nodeDefect?_of_isRead
    exact validate_of_isValid (isValid_iff.mpr hnodes)
  refine ⟨⟨himage, fun h => ?_⟩, hvalid⟩
  obtain ⟨s, hwrites⟩ := hasText_of_isRead e (h.mono fun _ hnode => isRead_iff.mpr hnode)
  exact ⟨s, ofText_of_writes (hwrites.atLevel 0)⟩

end Expr

end Reckoner
