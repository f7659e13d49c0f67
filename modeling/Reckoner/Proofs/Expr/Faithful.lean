import Reckoner.Expr.Evaluation
import Reckoner.Proofs.Expr.RoundTrip

/-!
# Faithful texts

A valid tree need not come from a text: its literals may have signs or be no numbers, and its
names may be spelled in ways that reading does not keep. It can be written all the same, and the
text has the outcome of the tree among all bindings, save for two kinds of nodes. An imaginary
literal is written faithfully just when it is a number without a sign, and a name just when it
is read as itself.
-/

namespace Reckoner.Expr

open Reckoner.Token Reckoner.Text Reckoner.Double

/-- The name of a variable is read as that of a variable or a constant, the name of a call as
that of a variable or a function. -/
def HasReadableName : Expr → Prop
  | var name => IsOperandName name
  | call name _ => IsCallName name
  | _ => True

/-- A node that its text stands for. -/
def IsFaithful : Expr → Prop
  | imaginary x => x.isNaN = false ∧ isNegative x = false
  | var name => lexemeOf? name = some (.var name) ∨ lexemeOf? name = some (.constant name)
  | call name _ => lexemeOf? name = some (.var name) ∨ lexemeOf? name = some (.function name)
  | _ => True

/-- A literal, a constant or a variable. -/
def IsLeaf : Expr → Prop
  | number _ | imaginary _ | constant _ | var _ => True
  | _ => False

/-! ## Valid trees can be written -/

theorem isSpellable_of_valid (e : Expr) (hvalid : nodeDefect? e = none)
    (hname : HasReadableName e) : IsSpellable e := by
  cases e with
  | number | imaginary | negate => trivial
  | constant name => exact nodeDefect?_constant.mp hvalid
  | var name => exact hname
  | call name args => exact hname
  | binary op l r =>
      obtain ⟨o, hop⟩ := Option.isSome_iff_exists.mp (nodeDefect?_binary.mp hvalid)
      have hsymbol : o.symbol = op := by simpa using List.find?_some hop
      rw [IsSpellable, ← hsymbol]
      cases o <;> decide
  | blank | foreign => cases hvalid

/-! ## The outcome of a text -/

section Outcome

variable {lookup : String → Run Scalar Scalar} {traced : Bool}

theorem evaluateWith_rereadUnsigned {x : Float} (hneg : isNegative x = false) :
    evaluateWith lookup traced (rereadUnsigned x) = pure (.real x) := by
  unfold rereadUnsigned
  by_cases hinf : x.isInf = true
  · rw [if_pos hinf, eq_infinity hinf hneg]
    rfl
  · rw [if_neg hinf]
    rfl

theorem evaluateWith_negate_pure {e : Expr} {v : Scalar}
    (h : evaluateWith lookup traced e = pure v) :
    evaluateWith lookup traced (.negate e) = pure v.neg := by
  rw [evaluateWith, h]
  rfl

/-- A number keeps its value, signs of zero included. -/
theorem evaluateWith_rereadNumber (x : Float) :
    evaluateWith lookup traced (rereadNumber x) = pure (.real x) := by
  unfold rereadNumber withMinus
  by_cases hnan : x.isNaN = true
  · rw [if_pos hnan, eq_nan hnan]
    rfl
  · rw [if_neg hnan]
    rw [Bool.not_eq_true] at hnan
    cases hneg : isNegative x with
    | false => exact evaluateWith_rereadUnsigned hneg
    | true =>
        have hpos : isNegative (-x) = false := by rw [isNegative_neg hnan, hneg]; rfl
        have hvalue : (Scalar.real (-x)).neg = .real x := congrArg Scalar.real (neg_neg x)
        rw [← hvalue]
        exact evaluateWith_negate_pure (evaluateWith_rereadUnsigned hpos)

theorem isProper_of_lexemeOf? {text : String} {l : Lexeme} (h : lexemeOf? text = some l) :
    IsProper l := by
  obtain ⟨_, _, _, _, hrun, _, _⟩ := (Cut.of_lexemeOf? h).single
  exact hrun.isProper

theorem evaluateWith_rereadName {name : String} (h : IsFaithful (.var name)) :
    evaluateWith lookup traced (rereadName name) = evaluateWith lookup traced (.var name) := by
  unfold rereadName
  rcases h with h | h
  · rw [h]
  · obtain ⟨c, hc⟩ := Option.isSome_iff_exists.mp (isProper_of_lexemeOf? h)
    rw [h]
    simp only [evaluateWith, hc]

mutual

/-- What the text of a tree of faithful nodes is read as has the outcome of the tree. -/
theorem evaluateWith_reread : ∀ e : Expr, e.Everywhere IsFaithful →
    evaluateWith lookup traced (reread e) = evaluateWith lookup traced e
  | .number x, _ => evaluateWith_rereadNumber x
  | .imaginary _, h => by
      rw [reread, rereadImaginary_eq h.1 h.2]
  | .var _, h => evaluateWith_rereadName h
  | .negate e, h => by
      rw [reread, evaluateWith, evaluateWith, evaluateWith_reread e h.2]
  | .binary _ l r, h => by
      rw [reread, evaluateWith, evaluateWith, evaluateWith_reread l h.2.1,
        evaluateWith_reread r h.2.2]
  | .call name args, h => by
      have hname : rereadCall name = name := by
        unfold rereadCall
        rcases h.1 with hname | hname <;> rw [hname]
      rw [reread, evaluateWith, evaluateWith, hname, evaluateAllWith_rereadAll args h.2]
  | .constant _, _ | .blank, _ | .foreign .., _ => rfl

theorem evaluateAllWith_rereadAll : ∀ es : List Expr, EverywhereAll IsFaithful es →
    evaluateAllWith lookup traced (rereadAll es) = evaluateAllWith lookup traced es
  | [], _ => rfl
  | e :: rest, h => by
      rw [rereadAll, evaluateAllWith, evaluateAllWith, evaluateWith_reread e h.1,
        evaluateAllWith_rereadAll rest h.2]

end

end Outcome

theorem evaluate_reread {e : Expr} (h : e.Everywhere IsFaithful)
    (bindings : Table (Binding Scalar)) : (reread e).evaluate bindings = e.evaluate bindings := by
  unfold evaluate evaluateIn
  rw [evaluateWith_reread e h]

/-! ## What is not faithful -/

theorem evaluate_imaginary (x : Float) (bindings : Table (Binding Scalar)) :
    evaluate bindings (.imaginary x) = .ok (Arithmetic.imaginary x) := rfl

/-- An imaginary number has another value once its sign stands in front: a zero real part gets
a sign too. -/
theorem neg_imaginary_ne (x : Float) :
    (Arithmetic.imaginary (-x) : Scalar).neg ≠ Arithmetic.imaginary x := by
  have hzero : (-0.0 : Float) ≠ 0.0 := by decide
  change (if (-x).abs < Scalar.negligible then Scalar.real 0.0 else .complex ⟨0.0, -x⟩).neg ≠
    if x.abs < Scalar.negligible then Scalar.real 0.0 else .complex ⟨0.0, x⟩
  rw [abs_neg]
  split
  · intro h
    injection h with h
    exact hzero h
  · intro h
    injection h with h
    exact hzero (congrArg Complex.re h)

theorem isFaithful_imaginary {x : Float}
    (h : ∀ bindings : Table (Binding Scalar),
      evaluate bindings (rereadImaginary x) = evaluate bindings (.imaginary x)) :
    IsFaithful (.imaginary x) := by
  replace h := h []
  rw [evaluate_imaginary] at h
  unfold rereadImaginary withMinus at h
  cases hnan : x.isNaN with
  | true =>
      rw [hnan] at h
      cases h
  | false =>
      cases hneg : isNegative x with
      | false => exact ⟨hnan, hneg⟩
      | true =>
          rw [hnan, hneg] at h
          have hvalue : (Arithmetic.imaginary (-x) : Scalar).neg = Arithmetic.imaginary x :=
            Except.ok.inj h
          exact absurd hvalue (neg_imaginary_ne x)

theorem evaluate_var_unbound {name : String} {bindings : Table (Binding Scalar)}
    (hconstant : Constant.ofName? name = none) (hfind : bindings.find? name = none) :
    evaluate bindings (.var name) = .error (.of (.undefinedVariable name)) := by
  unfold evaluate evaluateIn evaluateWith
  rw [hconstant]
  change ((lookup bindings name).runFrom .fresh).1 = _
  unfold lookup lookupWithin
  rw [hfind]
  rfl

theorem evaluate_var_number {name : String} {bindings : Table (Binding Scalar)} {x : Float}
    (hconstant : Constant.ofName? name = none)
    (hfind : bindings.find? name = some (.number (.real x))) :
    evaluate bindings (.var name) = .ok (.real x) := by
  unfold evaluate evaluateIn evaluateWith
  rw [hconstant]
  change ((lookup bindings name).runFrom .fresh).1 = _
  unfold lookup lookupWithin
  rw [hfind]
  rfl

theorem ofName?_of_isProper_var {name : String} (h : IsProper (.var name)) :
    Constant.ofName? name = none := by
  by_contra hne
  have hconstant : Constant.isName name = true := Option.isSome_iff_ne_none.mpr hne
  have hlexeme := (spells_constant hconstant).lexemeOf?
  have hvar : lexemeOf? name = some (.var name) := Spells.lexemeOf? h
  rw [hvar] at hlexeme
  cases hlexeme

/-- A name that is read as another one has no value where only that other name has one. -/
theorem isFaithful_var {name : String} (hname : IsOperandName name)
    (h : ∀ bindings : Table (Binding Scalar),
      evaluate bindings (rereadName name) = evaluate bindings (.var name)) :
    IsFaithful (.var name) := by
  cases hconstant : Constant.ofName? name with
  | some c =>
      have hisName : Constant.isName name = true := by rw [Constant.isName, hconstant]; rfl
      exact .inr (spells_constant hisName).lexemeOf?
  | none =>
      unfold rereadName at h
      obtain ⟨n, hn | hn⟩ := hname
      · by_cases heq : n = name
        · exact .inl (heq ▸ hn)
        · -- where only the other name is bound, only what is read has a value
          have hproper := ofName?_of_isProper_var (isProper_of_lexemeOf? hn)
          have hvalue := h [(n, .number (.real 0.0))]
          rw [hn, evaluate_var_unbound hconstant (by simp [Table.find?, heq])] at hvalue
          have hfind : Table.find? [(n, Binding.number (Scalar.real 0.0))] n =
              some (.number (.real 0.0)) := if_pos rfl
          cases (evaluate_var_number hproper hfind).symm.trans hvalue
      · obtain ⟨c, hc⟩ := Option.isSome_iff_exists.mp (isProper_of_lexemeOf? hn)
        have hvalue := h []
        rw [hn, evaluate_var_unbound hconstant rfl] at hvalue
        have hfound : evaluate [] (.constant n) = .ok (Arithmetic.constant c : Scalar) := by
          unfold evaluate evaluateIn evaluateWith
          rw [hc]
          rfl
        cases hfound.symm.trans hvalue

/-- A literal or a variable whose text has its outcome everywhere is faithful. -/
theorem isFaithful_of_evaluate {e : Expr} (hleaf : e.IsLeaf) (hspellable : IsSpellable e)
    (h : ∀ bindings : Table (Binding Scalar), (reread e).evaluate bindings = e.evaluate bindings) :
    IsFaithful e := by
  cases e with
  | imaginary x => exact isFaithful_imaginary h
  | var name => exact isFaithful_var hspellable h
  | number | constant => trivial
  | _ => exact hleaf.elim

/-- A valid tree with readable names can be written, and its text is read. The outcome of what
is read is that of the tree among all bindings if all nodes are faithful; for a single literal or
variable only then. -/
theorem print_evaluate {e : Expr} (hvalid : e.isValid = true)
    (hnames : e.Everywhere HasReadableName) :
    ∃ written again, e.print = .ok written ∧ ofText written = .ok again ∧
      (e.Everywhere IsFaithful → ∀ bindings : Table (Binding Scalar),
        again.evaluate bindings = e.evaluate bindings) ∧
      (e.IsLeaf → (∀ bindings : Table (Binding Scalar),
        again.evaluate bindings = e.evaluate bindings) → IsFaithful e) := by
  have hspellable : e.Everywhere IsSpellable :=
    (isValid_iff.mp hvalid).combine isSpellable_of_valid e hnames
  exact ⟨text e, reread e, print_eq_text hspellable, ofText_text hspellable,
    fun hfaithful => evaluate_reread hfaithful,
    fun hleaf => isFaithful_of_evaluate hleaf hspellable.here⟩

/-- The tree of `-2` to the power of `sin(x)` by a zero with a sign. -/
private def signedZero : Expr :=
  .binary "^" (.number (-2.0)) (.binary "/" (.call "sin" [.var "x"]) (.number (-0.0)))

theorem print_evaluate_signedZero :
    signedZero.isValid = true ∧ signedZero.Everywhere HasReadableName ∧
      ∃ written again, signedZero.print = .ok written ∧ ofText written = .ok again ∧
        ∀ bindings : Table (Binding Scalar),
          again.evaluate bindings = signedZero.evaluate bindings := by
  have hsin : lexemeOf? "sin" = some (.function "sin") := by decide +kernel
  have hx : lexemeOf? "x" = some (.var "x") := by decide +kernel
  have hvalid : signedZero.isValid = true := by rfl
  have hnames : signedZero.Everywhere HasReadableName :=
    ⟨trivial, trivial, trivial, ⟨⟨"sin", .inr hsin⟩, ⟨"x", .inl hx⟩, trivial⟩, trivial⟩
  have hfaithful : signedZero.Everywhere IsFaithful :=
    ⟨trivial, trivial, trivial, ⟨.inr hsin, .inl hx, trivial⟩, trivial⟩
  obtain ⟨written, again, hprint, hread, hsame, -⟩ := print_evaluate hvalid hnames
  exact ⟨hvalid, hnames, written, again, hprint, hread, hsame hfaithful⟩

end Reckoner.Expr
