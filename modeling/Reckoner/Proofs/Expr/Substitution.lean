import Reckoner.Calculation
import Reckoner.Expr.Substitution
import Reckoner.Proofs.Expr.Faithful
import Reckoner.Proofs.Scope.Memory

/-!
# Substitution and bindings

To put values in the place of variables comes to the same as to bind the variables to them,
provided that no expression among the bindings needs one of these variables itself. The expression
of a binding is evaluated once, and remembered, where substitution evaluates it at each of its
places; and it waits for its own name, which no longer occurs after substitution. Neither shows in
the outcome, since both are what names mean.
-/

namespace Reckoner

open Reckoner.Token Reckoner.Double

/-- A value that takes the place of variables: a real number, a text that is read as an
expression, or an expression that was read from a text. -/
inductive Datum.IsSubstitute : Datum → Prop
  | number {d : Datum} {x : Float} (h : d.settled? = some (.ok (.real x))) : IsSubstitute d
  | text {source : String} {e : Expr} (h : Expr.ofText source = .ok e) : IsSubstitute (.text source)
  | tree {source : String} {e : Expr} (h : Expr.ofText source = .ok e) : IsSubstitute (.tree e)

/-- None of the names is free in an expression that a variable is bound to. -/
def AreApart (names : List String) (bindings : Table Datum) : Prop :=
  ∀ owner d e, (owner, d) ∈ bindings → d.toBinding.expression owner = .ok e →
    ∀ name ∈ names, name ∉ e.freeVariables

namespace Datum

/-- Every double takes the place of variables, also one that is infinite or not a number. -/
theorem isSubstitute_real (x : Float) : (Datum.number (.real x)).IsSubstitute := .number rfl

/-- So does every whole number that is within the range of doubles. -/
theorem isSubstitute_whole {n : Int} {x : Float} (h : Scalar.wholeToFloat n = .ok x) :
    (Datum.number (.whole n)).IsSubstitute := by
  refine .number (x := x) ?_
  change some (Scalar.faulty (Scalar.real <$> Scalar.wholeToFloat n)) = _
  rw [h]
  rfl

end Datum

namespace Expr

/-! ## Literals -/

section Literals

variable {values : String → Except Error Scalar}

/-- The literal of a double has its value, signs of zero included. -/
theorem outcomeWith_ofFloat (x : Float) : outcomeWith values (ofFloat x) = .ok (.real x) := by
  unfold ofFloat
  split
  · exact congrArg (fun y => Except.ok (Scalar.real y)) (neg_neg x)
  · rfl

/-- A node that can be written and that its text stands for. -/
def IsWritable (e : Expr) : Prop := IsSpellable e ∧ IsFaithful e

theorem isWritable_of_isRead (e : Expr) (h : IsRead e) : IsWritable e := by
  refine ⟨isSpellable_of_isRead e h, ?_⟩
  cases e with
  | imaginary x => exact h
  | var name => exact .inl h
  | call name args => exact h
  | _ => trivial

theorem isWritable_ofFloat (x : Float) : (ofFloat x).Everywhere IsWritable := by
  unfold ofFloat
  split
  · exact ⟨⟨trivial, trivial⟩, trivial, trivial⟩
  · exact ⟨trivial, trivial⟩

end Literals

/-! ## Replacements -/

section Replacements

variable {rs : Table Expr}

mutual

theorem isWritable_replace (hrs : ∀ name r, rs.find? name = some r → r.Everywhere IsWritable) :
    ∀ e : Expr, e.Everywhere IsWritable → (e.replace rs).Everywhere IsWritable
  | .var name, h => by
      rw [replace]
      cases hfind : rs.find? name with
      | none => exact h
      | some r => exact hrs name r hfind
  | .negate e, h => ⟨⟨trivial, trivial⟩, isWritable_replace hrs e h.2⟩
  | .binary _ l r, h => ⟨h.1, isWritable_replace hrs l h.2.1, isWritable_replace hrs r h.2.2⟩
  | .call _ args, h => ⟨h.1, isWritable_replaceAll hrs args h.2⟩
  | .number _, h | .imaginary _, h | .constant _, h | .blank, h | .foreign .., h => h

theorem isWritable_replaceAll
    (hrs : ∀ name r, rs.find? name = some r → r.Everywhere IsWritable) :
    ∀ es : List Expr, EverywhereAll IsWritable es → EverywhereAll IsWritable (replaceAll rs es)
  | [], _ => trivial
  | e :: rest, h => ⟨isWritable_replace hrs e h.1, isWritable_replaceAll hrs rest h.2⟩

end

variable {α : Type} [Arithmetic α] {f g : String → Except Error α}

mutual

/-- Replacements that come to what their names stand for do not change the outcome. -/
theorem outcomeWith_replace (hreplaced : ∀ name r, rs.find? name = some r → outcomeWith f r = g name)
    (hkept : ∀ name, rs.find? name = none → f name = g name) :
    ∀ e : Expr, e.Everywhere IsRead → outcomeWith f (e.replace rs) = outcomeWith g e
  | .var name, h => by
      have hconstant : Constant.ofName? name = none :=
        ofName?_of_isProper_var (isProper_of_lexemeOf? h)
      rw [replace]
      cases hfind : rs.find? name with
      | none =>
          simp only [Option.getD_none, outcomeWith, hconstant]
          exact hkept name hfind
      | some r =>
          simp only [Option.getD_some, outcomeWith, hconstant]
          exact hreplaced name r hfind
  | .negate e, h => by
      rw [replace, outcomeWith, outcomeWith, outcomeWith_replace hreplaced hkept e h.2]
  | .binary _ l r, h => by
      rw [replace, outcomeWith, outcomeWith, outcomeWith_replace hreplaced hkept l h.2.1,
        outcomeWith_replace hreplaced hkept r h.2.2]
  | .call _ args, h => by
      rw [replace, outcomeWith, outcomeWith, outcomesWith_replaceAll hreplaced hkept args h.2]
  | .number _, _ | .imaginary _, _ | .constant _, _ | .blank, _ | .foreign .., _ => rfl

theorem outcomesWith_replaceAll
    (hreplaced : ∀ name r, rs.find? name = some r → outcomeWith f r = g name)
    (hkept : ∀ name, rs.find? name = none → f name = g name) :
    ∀ es : List Expr, EverywhereAll IsRead es →
      outcomesWith f (replaceAll rs es) = outcomesWith g es
  | [], _ => rfl
  | e :: rest, h => by
      rw [replaceAll, outcomesWith, outcomesWith, outcomeWith_replace hreplaced hkept e h.1,
        outcomesWith_replaceAll hreplaced hkept rest h.2]

end

end Replacements

/-! ## Values in the place of variables -/

/-- A value puts its own expression in the place of a variable, or the literal of its number. -/
theorem replacement_cases {d : Datum} (h : d.IsSubstitute) (name : String) :
    (∃ e, replacement name d = .ok e ∧ d.toBinding.expression name = .ok e ∧
      e.Everywhere IsRead) ∨
    ∃ value x, replacement name d = .ok (ofFloat x) ∧ d.toBinding = .number value ∧
      (Arithmetic.adopt value : Except Cause Scalar) = .ok (.real x) := by
  cases h with
  | @text source e h => exact .inl ⟨e, h, h, isRead_of_ofText h⟩
  | @tree source e h => exact .inl ⟨e, rfl, rfl, isRead_of_ofText h⟩
  | @number d x h =>
      obtain ⟨value, hvalue, hadopt⟩ := Option.map_eq_some_iff.mp h
      refine .inr ⟨value, x, ?_, ?_, hadopt⟩
      · have hliteral : literal d = .ok (ofFloat x) := by
          unfold literal
          rw [h]
          rfl
        cases d with
        | bool | number => exact congrArg (·.mapError Error.of) hliteral
        | _ => cases hvalue
      · cases d with
        | bool | number => cases hvalue; rfl
        | _ => cases hvalue

/-- The replacements hold what each value puts in the place of its variable. -/
theorem exists_replacements : ∀ {values : Table Datum},
    (∀ name d, (name, d) ∈ values → d.IsSubstitute) →
    ∃ rs, replacements values = .ok rs ∧ ∀ name,
      (values.find? name = none ∧ rs.find? name = none) ∨
      ∃ d r, values.find? name = some d ∧ replacement name d = .ok r ∧ rs.find? name = some r
  | [], _ => ⟨[], rfl, fun _ => .inl ⟨rfl, rfl⟩⟩
  | (key, d) :: rest, h => by
      obtain ⟨rs, hrs, hfind⟩ := exists_replacements fun name d hmem =>
        h name d (List.mem_cons_of_mem _ hmem)
      obtain ⟨r, hr⟩ : ∃ r, replacement key d = .ok r := by
        rcases replacement_cases (h key d List.mem_cons_self) key with ⟨e, he, -⟩ | ⟨_, x, hx, -⟩
        · exact ⟨e, he⟩
        · exact ⟨ofFloat x, hx⟩
      refine ⟨(key, r) :: rs, ?_, fun name => ?_⟩
      · rw [replacements, hr, hrs]
        rfl
      · rw [Table.find?, Table.find?]
        by_cases hkey : key = name
        · rw [if_pos hkey, if_pos hkey]
          exact .inr ⟨d, r, rfl, hkey ▸ hr, rfl⟩
        · rw [if_neg hkey, if_neg hkey]
          exact hfind name

section Apart

variable {values environment : Table Datum}

theorem find?_ofData (bindings : Table Datum) (name : String) :
    (Binding.ofData bindings).find? name = (bindings.find? name).map Datum.toBinding :=
  Table.find?_mapValues _ _ _

theorem find?_ofData_insertAll (hnames : values.names.Nodup) (name : String) :
    (Binding.ofData (environment.insertAll values)).find? name =
      ((values.find? name).or (environment.find? name)).map Datum.toBinding := by
  rw [find?_ofData, Table.find?_insertAll hnames]

/-- Beside values that take the place of other variables a name means what it means without
them. -/
theorem meaningWithin_ofData (hnames : values.names.Nodup)
    (hapart : AreApart values.names (values ++ environment)) {depth : Nat} {path : List String}
    (hpath : path ⊆ values.names)
    (hroom : Room (Binding.ofData (environment.insertAll values)) depth path) {name : String}
    (hname : name ∉ values.names) :
    meaning (Binding.ofData environment) name =
      meaningWithin (Binding.ofData (environment.insertAll values)) depth path name := by
  refine meaningWithin_congr (p := fun name => name ∉ values.names) (fun other hother => ?_)
    (fun owner other _ hneeds => ?_) (fun other hother => ?_) room_nil hroom hname
  · rw [find?_ofData, find?_ofData_insertAll hnames, Table.find?_eq_none_iff.mpr hother]
    rfl
  · obtain ⟨binding, e, hfind, he, hfree⟩ := hneeds
    rw [find?_ofData] at hfind
    obtain ⟨d, hd, rfl⟩ := Option.map_eq_some_iff.mp hfind
    intro hmem
    exact hapart owner d e (List.mem_append_right _ (Table.mem_of_find? hd)) he other hmem
      (mem_freeVariables.mpr hfree)
  · exact iff_of_false List.not_mem_nil fun hmem => hother (hpath hmem)

/-- What a value puts in the place of a variable comes to what the variable means when it is bound
to the value. -/
theorem outcomeWith_replacement (hnames : values.names.Nodup)
    (hvalues : ∀ name d, (name, d) ∈ values → d.IsSubstitute)
    (hapart : AreApart values.names (values ++ environment)) {name : String} {d : Datum} {r : Expr}
    (hfind : values.find? name = some d) (hr : replacement name d = .ok r) :
    r.outcomeWith (meaning (Binding.ofData environment)) =
      meaning (Binding.ofData (environment.insertAll values)) name := by
  have hmem := Table.mem_of_find? hfind
  have hbound : (Binding.ofData (environment.insertAll values)).find? name = some d.toBinding := by
    rw [find?_ofData_insertAll hnames, hfind]
    rfl
  rcases replacement_cases (hvalues name d hmem) name with ⟨e, he, hexpression, -⟩ |
    ⟨value, x, hx, hnumber, hadopt⟩
  · rw [hr] at he
    cases he
    rw [meaning, meaningWithin_expression hbound (Binding.isExpression_of_expression hexpression),
      hexpression]
    refine outcomeWith_congr r fun other hother hfree => ?_
    refine meaningWithin_ofData hnames hapart ?_ (room_nil.cons List.not_mem_nil hbound)
      fun hin => ?_
    · exact List.cons_subset.mpr ⟨List.mem_map_of_mem (f := Prod.fst) hmem, List.nil_subset _⟩
    · exact hapart name d r (List.mem_append_left _ hmem) hexpression other hin
        (mem_freeVariables.mpr ⟨hother, hfree⟩)
  · rw [hr] at hx
    cases hx
    rw [hnumber] at hbound
    rw [outcomeWith_ofFloat, meaning, meaningWithin_number hbound, hadopt]
    rfl

end Apart

/-! ## The two ways to an outcome -/

/-- The text of a tree of writable nodes has the outcome of the tree; an error in it names the
text. -/
theorem value_text {e : Expr} (h : e.Everywhere IsWritable) (environment : Table Datum) :
    Calculation.value (.text (text e)) environment =
      (e.evaluate (Binding.ofData environment)).mapError (·.within (text e)) := by
  have hread := ofText_text (h.mono fun _ he => he.1)
  have hsame := evaluate_reread (h.mono fun _ he => he.2) (Binding.ofData environment)
  have hvalue : Calculation.value (.text (text e)) environment =
      (ofText (text e) >>= evaluate (Binding.ofData environment)).mapError
        (·.within (text e)) := rfl
  rw [hvalue, hread, ← hsame]
  rfl

/-- Values in the place of variables have the same outcome as variables that are bound to them,
value or error; and so has the text of what has the values in it, whose errors have the same cause
and the same position, and name the text. -/
theorem substitute_evaluate {source : String} {e : Expr} {values environment : Table Datum}
    (hread : ofText source = .ok e) (hnames : values.names.Nodup)
    (hvalues : ∀ name d, (name, d) ∈ values → d.IsSubstitute)
    (hapart : AreApart values.names (values ++ environment)) :
    ∃ substituted written, e.substitute values = .ok substituted ∧
      substituted.print = .ok written ∧
      substituted.evaluate (Binding.ofData environment) =
        e.evaluate (Binding.ofData (environment.insertAll values)) ∧
      Calculation.value (.text written) environment =
        (e.evaluate (Binding.ofData (environment.insertAll values))).mapError
          (·.within written) := by
  have hisRead := isRead_of_ofText hread
  obtain ⟨rs, hrs, hfind⟩ := exists_replacements hvalues
  have hreplaced : ∀ name r, rs.find? name = some r →
      ∃ d, values.find? name = some d ∧ replacement name d = .ok r := by
    intro name r hr
    rcases hfind name with ⟨-, hnone⟩ | ⟨d, r', hd, hreplacement, hr'⟩
    · rw [hnone] at hr
      cases hr
    · rw [hr] at hr'
      cases hr'
      exact ⟨d, hd, hreplacement⟩
  have hsubstitute : e.substitute values = .ok (e.replace rs) := by
    unfold substitute
    rw [hrs]
    rfl
  have hwritable : (e.replace rs).Everywhere IsWritable := by
    refine isWritable_replace (fun name r hr => ?_) e (hisRead.mono isWritable_of_isRead)
    obtain ⟨d, hd, hreplacement⟩ := hreplaced name r hr
    rcases replacement_cases (hvalues name d (Table.mem_of_find? hd)) name with ⟨e, he, -, h⟩ |
      ⟨_, x, hx, -⟩
    · rw [hreplacement] at he
      cases he
      exact h.mono isWritable_of_isRead
    · rw [hreplacement] at hx
      cases hx
      exact isWritable_ofFloat x
  have houtcome : (e.replace rs).evaluate (Binding.ofData environment) =
      e.evaluate (Binding.ofData (environment.insertAll values)) := by
    rw [evaluate_eq_outcomeWith, evaluate_eq_outcomeWith]
    refine outcomeWith_replace (fun name r hr => ?_) (fun name hnone => ?_) e hisRead
    · obtain ⟨d, hd, hreplacement⟩ := hreplaced name r hr
      exact outcomeWith_replacement hnames hvalues hapart hd hreplacement
    · have hname : name ∉ values.names := by
        rcases hfind name with ⟨hvalue, -⟩ | ⟨_, r, -, -, hr⟩
        · exact Table.find?_eq_none_iff.mp hvalue
        · rw [hnone] at hr
          cases hr
      exact meaningWithin_ofData hnames hapart (List.nil_subset _) room_nil hname
  refine ⟨e.replace rs, text (e.replace rs), hsubstitute,
    print_eq_text (hwritable.mono fun _ h => h.1), houtcome, ?_⟩
  rw [value_text hwritable, houtcome]

/-- The tree of `y^x`. -/
private def power : Expr := .binary "^" (.var "y") (.var "x")

/-- The tree of `w-1`. -/
private def decrement : Expr := .binary "-" (.var "w") (.number 1.0)

private theorem ofText_power : ofText "y^x" = .ok power := by
  have htokens : (tokenize "y^x").toOption = some [⟨.var "y", 0, none⟩, ⟨.operator "^", 1, none⟩,
    ⟨.var "x", 2, none⟩, ⟨.finish, 3, none⟩] := by decide
  exact ofText_of_tokens (by decide) htokens rfl

private theorem ofText_decrement : ofText "w-1" = .ok decrement := by
  have htokens : (tokenize "w-1").toOption = some [⟨.var "w", 0, none⟩, ⟨.operator "-", 1, none⟩,
    ⟨.number 1.0, 2, none⟩, ⟨.finish, 3, none⟩] := by decide
  exact ofText_of_tokens (by decide) htokens rfl

/-- Values for `y` and `x`. -/
private def powerValues : Table Datum := [("y", .text "w-1"), ("x", .number (.real (-0.0)))]

/-- Bindings for `w` and `x`, the second of which gives way. -/
private def powerEnvironment : Table Datum := [("w", .number (.whole 3)), ("x", .text "w-1")]

theorem substitute_evaluate_signedPower :
    ofText "y^x" = .ok power ∧ powerValues.names.Nodup ∧
      (∀ name d, (name, d) ∈ powerValues → d.IsSubstitute) ∧
      AreApart powerValues.names (powerValues ++ powerEnvironment) ∧
      ∃ substituted written, power.substitute powerValues = .ok substituted ∧
        substituted.print = .ok written ∧
        substituted.evaluate (Binding.ofData powerEnvironment) =
          power.evaluate (Binding.ofData (powerEnvironment.insertAll powerValues)) ∧
        Calculation.value (.text written) powerEnvironment =
          (power.evaluate (Binding.ofData (powerEnvironment.insertAll powerValues))).mapError
            (·.within written) := by
  have hnames : powerValues.names.Nodup := by decide
  have hvalues : ∀ name d, (name, d) ∈ powerValues → d.IsSubstitute := by
    intro name d hmem
    rcases List.mem_cons.mp hmem with heq | hmem
    · cases heq
      exact .text ofText_decrement
    · cases List.mem_singleton.mp hmem
      exact Datum.isSubstitute_real _
  have hfree : ∀ name ∈ powerValues.names, name ∉ decrement.freeVariables := by decide
  have hapart : AreApart powerValues.names (powerValues ++ powerEnvironment) := by
    intro owner d e hmem he
    have hnumber : ∀ value, Binding.expression owner (.number value : Binding Scalar) ≠ .ok e :=
      fun _ h => by cases h
    have htext : ofText "w-1" = .ok e → ∀ name ∈ powerValues.names, name ∉ e.freeVariables := by
      intro h
      rw [ofText_decrement] at h
      cases h
      exact hfree
    rcases List.mem_cons.mp hmem with heq | hmem
    · cases heq
      exact htext he
    rcases List.mem_cons.mp hmem with heq | hmem
    · cases heq
      exact absurd he (hnumber _)
    rcases List.mem_cons.mp hmem with heq | hmem
    · cases heq
      exact absurd he (hnumber _)
    · cases List.mem_singleton.mp hmem
      exact htext he
  exact ⟨ofText_power, hnames, hvalues, hapart,
    substitute_evaluate ofText_power hnames hvalues hapart⟩

end Expr

end Reckoner
