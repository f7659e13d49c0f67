import Reckoner.Proofs.Expr.Completeness
import Reckoner.Proofs.Expr.Everywhere
import Reckoner.Proofs.Expr.Literal
import Reckoner.Proofs.Token.Text
import Reckoner.Expr.Reading

/-!
# What is written

The text of a tree is read as a phrase of the grammar, at the level at which the tree is printed:
sums are level 1, products 2, signs 3, powers 4 and atoms 5. The phrase stands for the tree in
which every literal and every name is replaced by what it is read as, which `reread` gives.
-/

namespace Reckoner.Expr

open Reckoner.Token Reckoner.Text Reckoner.Double

/-! ## What is read in place of a tree -/

/-- An operand that is read behind a minus sign, or without one. -/
def withMinus (negative : Bool) (e : Expr) : Expr := if negative then .negate e else e

/-- What a number without a sign is read as: infinity has a name. -/
def rereadUnsigned (x : Float) : Expr :=
  if x.isInf then .constant Constant.inf.name else .number x

/-- What a number is read as. -/
def rereadNumber (x : Float) : Expr :=
  if x.isNaN then .constant Constant.nan.name
  else withMinus (isNegative x) (rereadUnsigned (if isNegative x then -x else x))

/-- What an imaginary number is read as: one that is no number becomes a name. -/
def rereadImaginary (x : Float) : Expr :=
  if x.isNaN then .var "nani"
  else withMinus (isNegative x) (.imaginary (if isNegative x then -x else x))

theorem rereadNumber_eq {x : Float} (hnan : x.isNaN = false) (hneg : isNegative x = false) :
    rereadNumber x = rereadUnsigned x := by
  unfold rereadNumber
  rw [hnan, hneg]
  rfl

theorem rereadImaginary_eq {x : Float} (hnan : x.isNaN = false) (hneg : isNegative x = false) :
    rereadImaginary x = .imaginary x := by
  unfold rereadImaginary
  rw [hnan, hneg]
  rfl

/-- What a name in the place of an operand is read as. -/
def rereadName (name : String) : Expr :=
  match lexemeOf? name with
  | some (.constant n) => .constant n
  | some (.var n) => .var n
  | _ => .var name

/-- What a name in front of arguments is read as. -/
def rereadCall (name : String) : String :=
  match lexemeOf? name with
  | some (.function n) | some (.var n) => n
  | _ => name

mutual

/-- The tree that the text of a tree is read as. -/
def reread : Expr → Expr
  | number x => rereadNumber x
  | imaginary x => rereadImaginary x
  | var name => rereadName name
  | negate e => negate (reread e)
  | binary op l r => binary op (reread l) (reread r)
  | call name args => call (rereadCall name) (rereadAll args)
  | e => e

/-- The arguments that the texts of arguments are read as. -/
def rereadAll : List Expr → List Expr
  | [] => []
  | e :: rest => reread e :: rereadAll rest

end

/-! ## Trees with a notation -/

/-- A name that is read as an operand. -/
def IsOperandName (name : String) : Prop :=
  ∃ n, lexemeOf? name = some (.var n) ∨ lexemeOf? name = some (.constant n)

/-- A name that is read as one in front of arguments. -/
def IsCallName (name : String) : Prop :=
  ∃ n, lexemeOf? name = some (.var n) ∨ lexemeOf? name = some (.function n)

/-- A node that can be written so that it is read again. -/
def IsSpellable : Expr → Prop
  | number _ | imaginary _ | negate _ => True
  | constant name => Constant.isName name = true
  | var name => IsOperandName name
  | binary op _ _ => op ∈ ["+", "-", "*", "/", "^"]
  | call name _ => IsCallName name
  | blank | foreign .. => False

/-! ## Levels -/

/-- The phrase at a level. -/
def level : Nat → Expr → Phrase
  | 0 | 1 => .sum
  | 2 => .product
  | 3 => .signed
  | 4 => .power
  | _ => .atom

theorem derives_level_succ {n : Nat} {ls : List Lexeme} {e : Expr}
    (h : Derives ls (level (n + 1) e)) : Derives ls (level n e) := by
  match n with
  | 0 => exact h
  | 1 => exact .product h
  | 2 => exact .signed h
  | 3 => exact .power h
  | 4 => exact .atom h
  | n + 5 => exact h

/-- What stands at a level stands at every looser one. -/
theorem derives_level_mono {m n : Nat} (hmn : m ≤ n) {ls : List Lexeme} {e : Expr}
    (h : Derives ls (level n e)) : Derives ls (level m e) := by
  induction hmn with
  | refl => exact h
  | step _ ih => exact ih (derives_level_succ h)

/-! ## Writing phrases -/

/-- The text is read as the phrase wherever no name and no number goes on behind it. -/
def Writes (cs : List Char) (phrase : Phrase) : Prop :=
  ∃ ls, Lexes cs ls ∧ Derives ls phrase

theorem Writes.mono {m n : Nat} (hmn : m ≤ n) {cs : List Char} {e : Expr}
    (h : Writes cs (level n e)) : Writes cs (level m e) := by
  obtain ⟨ls, hlexes, hderives⟩ := h
  exact ⟨ls, hlexes, derives_level_mono hmn hderives⟩

theorem Writes.atom {cs : List Char} {l : Lexeme} {e : Expr} (h : Lexes cs [l])
    (hderives : Derives [l] (.atom e)) : Writes cs (.atom e) :=
  ⟨[l], h, hderives⟩

theorem Writes.minus {cs : List Char} {e : Expr} (h : Writes cs (.signed e)) :
    Writes ('-' :: cs) (.signed (.negate e)) := by
  obtain ⟨ls, hlexes, hderives⟩ := h
  exact ⟨_, hlexes.sign (by decide) (fun _ => rfl), .minus hderives⟩

theorem Writes.wrap {s : String} {e : Expr} (h : Writes s.toList (.sum e)) :
    Writes (wrap s).toList (.atom e) := by
  obtain ⟨ls, hlexes, hderives⟩ := h
  have htext : (Expr.wrap s).toList = '(' :: (s.toList ++ [')']) := by
    simp [Expr.wrap]
  rw [htext]
  exact ⟨_, hlexes.closed.sign (by decide) (fun _ => rfl), .group hderives⟩

/-! ## Writing literals and names -/

theorem precedence_number (x : Float) : precedence (.number x) = if isNegative x then 3 else 5 :=
  rfl

theorem precedence_imaginary (x : Float) :
    precedence (.imaginary x) = if isNegative x then 3 else 5 := rfl

theorem writes_unsigned {x : Float} (hnan : x.isNaN = false) (hneg : isNegative x = false) :
    Writes (numberText x).toList (.atom (rereadUnsigned x)) := by
  unfold rereadUnsigned
  by_cases hinf : x.isInf = true
  · rw [if_pos hinf, eq_infinity hinf hneg, numberText_infinity]
    exact .atom (spells_constant (by decide)).lexes (.constant _)
  · have hfinite : x.isFinite = true := isFinite_of_isInf_eq_false hnan (by simpa using hinf)
    obtain ⟨n, htext, hvalue⟩ := exists_numeral_numberText hfinite hneg
    have hlexes := (spells_numeral n).lexes
    rw [hvalue] at hlexes
    rw [if_neg hinf, htext]
    exact .atom hlexes (.number x)

/-- A literal that is written without its sign as an atom is written with it as a sign. -/
theorem writes_withMinus {text : Float → String} {unsigned : Float → Expr} {x : Float}
    (hnan : x.isNaN = false)
    (hminus : isNegative x = true → (text x).toList = '-' :: (text (-x)).toList)
    (hwrites : ∀ y : Float, y.isNaN = false → isNegative y = false →
      Writes (text y).toList (.atom (unsigned y))) :
    Writes (text x).toList (level (if isNegative x then 3 else 5)
      (withMinus (isNegative x) (unsigned (if isNegative x then -x else x)))) := by
  cases hneg : isNegative x with
  | false => exact hwrites x hnan hneg
  | true =>
      have hpos : isNegative (-x) = false := by rw [isNegative_neg hnan, hneg]; rfl
      have hunsigned := hwrites (-x) (by rw [isNaN_neg, hnan]) hpos
      rw [hminus hneg]
      exact Writes.minus (Writes.mono (m := 3) (n := 5) (by decide) hunsigned)

theorem writes_number (x : Float) :
    Writes (numberText x).toList (level (precedence (.number x)) (rereadNumber x)) := by
  rw [precedence_number, rereadNumber]
  by_cases hnan : x.isNaN = true
  · rw [if_pos hnan, eq_nan hnan, numberText_nan]
    exact .atom (spells_constant (by decide)).lexes (.constant _)
  · rw [if_neg hnan]
    rw [Bool.not_eq_true] at hnan
    exact writes_withMinus hnan (numberText_neg hnan) fun _ => writes_unsigned

theorem writes_unsigned_imaginary {x : Float} (hnan : x.isNaN = false)
    (hneg : isNegative x = false) : Writes (imaginaryText x).toList (.atom (.imaginary x)) := by
  by_cases hinf : x.isInf = true
  · rw [eq_infinity hinf hneg, imaginaryText_infinity]
    exact .atom spells_infinite_unit.lexes (.imaginary _)
  · have hfinite : x.isFinite = true := isFinite_of_isInf_eq_false hnan (by simpa using hinf)
    obtain ⟨n, htext, hvalue⟩ := exists_numeral_numberText hfinite hneg
    have hlexes := (spells_numeral_unit n).lexes
    rw [hvalue] at hlexes
    rw [imaginaryText_of_isFinite hfinite, htext]
    exact .atom hlexes (.imaginary x)

theorem writes_imaginary (x : Float) :
    Writes (imaginaryText x).toList (level (precedence (.imaginary x)) (rereadImaginary x)) := by
  rw [precedence_imaginary, rereadImaginary]
  by_cases hnan : x.isNaN = true
  · rw [if_pos hnan, eq_nan hnan, imaginaryText_nan]
    exact .atom spells_nan_unit.lexes (.var _)
  · rw [if_neg hnan]
    rw [Bool.not_eq_true] at hnan
    exact writes_withMinus hnan (imaginaryText_neg hnan) fun _ => writes_unsigned_imaginary

theorem writes_name {name : String} (h : IsOperandName name) :
    Writes name.toList (.atom (rereadName name)) := by
  unfold rereadName
  obtain ⟨n, hn | hn⟩ := h
  · rw [hn]
    exact .atom (Cut.of_lexemeOf? hn).lexes (.var n)
  · rw [hn]
    exact .atom (Cut.of_lexemeOf? hn).lexes (.constant n)

theorem exists_names {name : String} (h : IsCallName name) :
    ∃ l, Lexes name.toList [l] ∧ Names l (rereadCall name) := by
  unfold rereadCall
  obtain ⟨n, hn | hn⟩ := h
  · rw [hn]
    exact ⟨.var n, (Cut.of_lexemeOf? hn).lexes, .var n⟩
  · rw [hn]
    exact ⟨.function n, (Cut.of_lexemeOf? hn).lexes, .function n⟩

end Reckoner.Expr
