import Reckoner.Double.Reading
import Reckoner.Expr.Inspect
import Reckoner.Expr.Printer
import Reckoner.Scope.Basic
import Reckoner.Token.Basic

/-!
# Values from callers

Callers hand over values of many kinds for bindings, options and settings. Each use takes the kinds
that make sense for it and names the kind of any other in its complaint.
-/

namespace Reckoner

/-- A value from a caller. -/
inductive Datum where
  | null
  | bool (b : Bool)
  | number (value : Scalar)
  | text (s : String)
  | tree (e : Expr)
  | list (items : List Datum)
  | map (entries : List (String × Datum))
  | equation (e : Equation)
  | tokens (ts : List Token)
  deriving Inhabited

namespace Datum

/-- The kind of an expression node. -/
def nodeKind : Expr → String
  | .number _ => "Number"
  | .imaginary _ => "Imaginary"
  | .constant _ => "Constant"
  | .var _ => "Variable"
  | .negate _ => "UnaryMinus"
  | .binary .. => "BinaryOp"
  | .call .. => "Call"
  | .blank => "Node"
  | .foreign type _ => type

/-- The kind of a value. -/
def kind : Datum → String
  | null => "NoneType"
  | bool _ => "bool"
  | number (.whole _) => "int"
  | number (.real _) => "float"
  | number (.complex _) => "complex"
  | text _ => "str"
  | tree e => nodeKind e
  | list _ | tokens _ => "list"
  | map _ => "dict"
  | equation _ => "Equation"

/-- An equation as a term. -/
def inspectEquation (e : Equation) : String :=
  "Equation(lhs=" ++ e.lhs.inspect ++ ", rhs=" ++ e.rhs.inspect ++ ", text="
    ++ Text.quoted e.text ++ ")"

mutual

/-- A value as a term: texts are quoted. -/
def shown : Datum → String
  | null => "None"
  | bool b => if b then "True" else "False"
  | number value => value.text
  | text s => Text.quoted s
  | tree e => e.inspect
  | list items => "[" ++ Text.commaSeparated (shownAll items) ++ "]"
  | map entries => "\x7b" ++ Text.commaSeparated (shownEntries entries) ++ "\x7d"
  | equation e => inspectEquation e
  | tokens ts => Token.listing ts

/-- Items as terms. -/
def shownAll : List Datum → List String
  | [] => []
  | d :: rest => shown d :: shownAll rest

/-- Entries as terms. -/
def shownEntries : List (String × Datum) → List String
  | [] => []
  | (name, d) :: rest => (Text.quoted name ++ ": " ++ shown d) :: shownEntries rest

end

/-- A value in words: texts stand for themselves, and so do expressions in plain notation. -/
def plain : Datum → Except Error String
  | text s => .ok s
  | tree e => e.print
  | d => .ok d.shown

/-- Nothing, zero and whatever is empty count as false. -/
def isTrue : Datum → Bool
  | null => false
  | bool b => b
  | number value => !value.isZero
  | text s => s != ""
  | list items => !items.isEmpty
  | map entries => !entries.isEmpty
  | tokens ts => !ts.isEmpty
  | tree _ | equation _ => true

/-- The number that a value is; truth values are one and zero. -/
def toScalar? : Datum → Option Scalar
  | bool b => some (.whole (if b then 1 else 0))
  | number value => some value
  | _ => none

/-- A value as a double: a number that is not complex, or a text that spells one. -/
def toFloat (d : Datum) : Except Cause Float :=
  match d with
  | text s =>
    match Double.read? s.toList with
    | some x => .ok x
    | none => .error (.unreadableNumber d.shown)
  | _ =>
    match d.toScalar?.bind Scalar.toFloat? with
    | some x => Scalar.faulty x
    | none => .error (.notConvertible false d.kind)

/-- How much of a text that is no whole number is shown. -/
private def mostShown : Nat := 200

/-- A value as a whole number: a double is cut off behind the point. -/
def toWhole (d : Datum) : Except Cause Int :=
  match d with
  | bool b => .ok (if b then 1 else 0)
  | number (.whole n) => .ok n
  | number (.real x) =>
    if x.isNaN then .error .undefinedWhole
    else if x.isInf then .error .infiniteWhole
    else .ok (Double.truncate x)
  | text s =>
    match Double.readWhole s.toList with
    | .ok n => .ok n
    | .error .malformed => .error (.unreadableWhole (String.ofList (d.shown.toList.take mostShown)))
    | .error (.tooLong digits) => .error (.tooLongWhole digits)
  | _ => .error (.notConvertible true d.kind)

/-- What a value binds a variable to. -/
def toBinding (d : Datum) : Binding Scalar :=
  match d with
  | text s => .text s
  | tree e => .tree e
  | _ =>
    match d.toScalar? with
    | some value => .number value
    | none => .other d.shown

/-- The value that an estimate is. -/
def ofEstimate : Estimate → Datum
  | .number x => number x
  | .truth b => bool b
  | .text s => text s
  | .tree e _ => tree e

/-- What stands in the place of an expression node. -/
def toExpr : Datum → Expr
  | tree e => e
  | d => .foreign d.kind d.shown

/-- A value in normal form: a number, or what a double can be made of. -/
def settle (d : Datum) : Except Cause Scalar :=
  match d with
  | number (.complex z) => Scalar.faulty (Scalar.complex z).settle
  | _ => Scalar.real <$> d.toFloat

/-- The number in normal form that a value is, if it is one. -/
def settled? (d : Datum) : Option (Except Cause Scalar) :=
  d.toScalar?.map Arithmetic.adopt

end Datum

/-- The estimate that a value is; only numbers and what can be bound to a variable are any. -/
def Estimate.ofDatum (d : Datum) : Except Error Estimate :=
  match d with
  | .number x => .ok (.number x)
  | .bool b => .ok (.truth b)
  | .tree e => (fun printed => .tree e printed) <$> e.print
  | d => .text <$> d.plain

/-- Bindings of variables from values. -/
def Binding.ofData (values : Table Datum) : Table (Binding Scalar) :=
  values.mapValues Datum.toBinding

end Reckoner
