import Reckoner.Datum

/-!
# Operators and functions on values from callers

Operators and functions can be asked for with operands of any kind. Numbers, and truth values with
them, are handed on to the arithmetic. Of all other values texts and lists can be joined, repeated
and compared; what comes out must still be something that a double can be made of. Everything else
is an error that names the kinds of the operands.
-/

namespace Reckoner

/-- A direction on the line. -/
inductive Side where
  | below | above
  deriving DecidableEq, Repr

/-- The sign of the comparison that asks for a direction. -/
def Side.sign : Side → String
  | .below => "<"
  | .above => ">"

namespace Datum

/-- Two values are equal. -/
def same (a b : Datum) : Bool :=
  match a.toScalar?, b.toScalar? with
  | some x, some y => x == y || Scalar.order x y == some .eq
  | _, _ => a.shown == b.shown

mutual

/-- A value lies on a side of another one. Lists go by the first items that differ, and then by
their lengths. -/
def lies (side : Side) : Datum → Datum → Except Cause Bool
  | text s, text t => .ok (match side with
    | .below => s < t
    | .above => t < s)
  | list items, list others => itemsLie side items others
  | a, b =>
    match a.toScalar?, b.toScalar? with
    | some x, some y =>
      if x.isComplex || y.isComplex then .error (.notOrdered side.sign a.kind b.kind)
      else .ok (match side with
        | .below => Scalar.less x y
        | .above => Scalar.less y x)
    | _, _ => .error (.notOrdered side.sign a.kind b.kind)

/-- The same for the items of lists. -/
def itemsLie (side : Side) : List Datum → List Datum → Except Cause Bool
  | a :: items, b :: others =>
    if a.same b then itemsLie side items others else lies side a b
  | items, others => .ok (match side with
    | .below => items.isEmpty && !others.isEmpty
    | .above => others.isEmpty && !items.isEmpty)

end

/-- The first of those values that no other one lies beyond on a side. -/
def extreme (side : Side) (best : Datum) : List Datum → Except Cause Datum
  | [] => .ok best
  | d :: rest => do if ← lies side d best then extreme side d rest else extreme side best rest

/-- A text or a list. -/
def isSequence : Datum → Bool
  | text _ | list _ | tokens _ => true
  | _ => false

/-- The counts that a sequence can be repeated by. -/
def countBound : Nat := Double.twoTo 63

/-- A sequence that is repeated by a count, as a number: only a text can spell one. -/
def repeated (sequence count : Datum) : Except Cause Scalar :=
  match count.toScalar? with
  | some (.whole n) =>
    if (countBound : Int) ≤ n || n < -(countBound : Int) then .error .countTooLarge
    else match sequence with
      | text s => settle (text (if s = "" then "" else String.join (List.replicate n.toNat s)))
      | d => settle d
  | _ => .error (.notACount count.kind)

end Datum

namespace Operator

/-- The name under which an operator refuses operands. -/
def refusalSign : Operator → String
  | .power => "** or pow()"
  | op => op.symbol

/-- The value of an operator for operands that are not both numbers. -/
def onOthers (op : Operator) (a b : Datum) : Except Cause Scalar :=
  match op, a, b with
  | .add, .text s, .text t => Datum.settle (.text (s ++ t))
  | .add, .text _, _ => .error (.notJoinable a.kind b.kind)
  | .add, .list _, _ | .add, .tokens _, _ =>
    if b.kind = a.kind then a.settle else .error (.notJoinable a.kind b.kind)
  | .multiply, _, _ =>
    if a.isSequence then a.repeated b
    else if b.isSequence then b.repeated a
    else .error (.unsupported op.refusalSign a.kind b.kind)
  | _, _, _ => .error (.unsupported op.refusalSign a.kind b.kind)

/-- The value of an operator for operands of any kind. -/
def onData (op : Operator) (a b : Datum) : Except Cause Scalar :=
  match a.toScalar?, b.toScalar? with
  | some x, some y => Arithmetic.operate op x y
  | _, _ => op.onOthers a b

/-- The value of a named operator for operands of any kind. -/
def evaluateData (symbol : String) (a b : Datum) : Except Cause Scalar :=
  match ofSymbol? symbol with
  | some op => op.onData a b
  | none => .error (.missingName symbol)

end Operator

namespace Function

/-- A value is refused because it is no real number. -/
private def refused (d : Datum) : Except Cause Scalar := .error (.notReal d.kind)

/-- The logarithm of a number to a base that is none; no base at all is the natural one. -/
private def logarithmTo (a base : Datum) : Except Cause Scalar :=
  match a.toScalar?, base with
  | none, _ => refused a
  | some x, .null => Scalar.applyFunction .log [x]
  | some x, _ => do
    let _ ← Scalar.applyFunction .ln [x]
    refused base

/-- The value of a function for as many arguments as it takes, of which some are no numbers. -/
def onOthers (f : Function) (args : List Datum) : Except Cause Scalar :=
  match f, args with
  | .abs, [a] => .error (.withoutMagnitude a.kind)
  | .sign, [a] => .error (.notOrdered Side.above.sign a.kind (Datum.number (.whole 0)).kind)
  | .min, a :: rest => do (← Datum.extreme .below a rest).settle
  | .max, a :: rest => do (← Datum.extreme .above a rest).settle
  | .clamp, [a, low, high] => do
    (← Datum.extreme .below (← Datum.extreme .above a [low]) [high]).settle
  | .lerp, [a, b, t] => do
    let span ← Operator.subtract.onData b a
    let part ← Operator.multiply.onData (.number span) t
    Operator.add.onData a (.number part)
  | .rad, [a] => Operator.multiply.onData a (.number (.real Scalar.radiansPerDegree))
  | .deg, [a] => Operator.multiply.onData a (.number (.real Scalar.degreesPerRadian))
  | .re, [a] => .error (.notANode a.kind "real")
  | .im, [a] => .error (.notANode a.kind "imag")
  | .conj, [a] => .error (.notANode a.kind "conjugate")
  | .pow, [a, b] => Operator.power.onData a b
  | .log, [a, base] => logarithmTo a base
  | .atan2, [y, x] =>
    match y.toScalar? with
    | none => refused y
    | some y => do
      let _ ← Scalar.faulty y.toComplex
      refused x
  | _, a :: _ => refused a
  | _, [] => .error (.arity f.name f.arity.text 0)

/-- The value of a function for arguments of any kind. -/
def onData (f : Function) (args : List Datum) : Except Cause Scalar :=
  if !f.arity.admits args.length then .error (.arity f.name f.arity.text args.length)
  else match args.mapM Datum.toScalar? with
    | some numbers => Arithmetic.apply f numbers
    | none =>
      if f.isOrdered && args.any (·.toScalar?.any Scalar.isComplex) then
        .error (.complexArgument f.name)
      else f.onOthers args

/-- The value of a named function for arguments of any kind. -/
def evaluateData (name : String) (args : List Datum) : Except Cause Scalar :=
  match ofName? name with
  | some f => f.onData args
  | none => .error (.unknownFunction name)

end Function

/-- A value in the notation of literals, which only doubles have. -/
def Datum.numeral (d : Datum) : Except Cause String :=
  match d with
  | .number (.real x) => .ok (Expr.numberText x)
  | .bool _ => .error (.notANode d.kind "is_integer")
  | .number (.whole n) => do
    let _ ← Scalar.faulty (Scalar.wholeToFloat n)
    throw (.notANode d.kind "is_integer")
  | _ => .error (.notReal d.kind)

end Reckoner
