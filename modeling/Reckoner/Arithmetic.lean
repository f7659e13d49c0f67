import Reckoner.Constant
import Reckoner.Error

/-!
# Arithmetic

What evaluation needs to know of numbers. Everything else about expressions goes through this
interface and holds for any numbers that have it; `Scalar` is the instance that runs.
-/

namespace Reckoner

/-- Numbers on which expressions are evaluated. -/
class Arithmetic (α : Type) where
  /-- The value of a number literal. -/
  number : Float → α
  /-- The value of an imaginary literal. -/
  imaginary : Float → α
  /-- The value of a named constant. -/
  constant : Constant → α
  /-- The value with the opposite sign. -/
  negate : α → α
  /-- The value of an operator. -/
  operate : Operator → α → α → Except Cause α
  /-- The value of a function for a number of arguments that it admits. -/
  apply : Function → List α → Except Cause α
  /-- A number from outside, brought to the form that values have. -/
  adopt : α → Except Cause α

variable {α : Type} [Arithmetic α]

/-- The value of a named operator. -/
def Operator.evaluate (op : String) (a b : α) : Except Cause α :=
  match Operator.ofSymbol? op with
  | some op => Arithmetic.operate op a b
  | none => .error (.missingName op)

/-- The value of a function for arguments of which it may take another number. -/
def Function.evaluate (f : Function) (args : List α) : Except Cause α :=
  if f.arity.admits args.length then Arithmetic.apply f args
  else .error (.arity f.name f.arity.text args.length)

/-- The value of a named function. -/
def Function.evaluateNamed (name : String) (args : List α) : Except Cause α :=
  match Function.ofName? name with
  | some f => f.evaluate args
  | none => .error (.unknownFunction name)

namespace Scalar

/-- A result or the fault that stands in its way. -/
def faulty {β : Type} (outcome : Except Fault β) : Except Cause β := outcome.mapError .arithmetic

/-- The value of a function in normal form; those that go by the order of the line refuse complex
arguments. -/
def applyFunction (f : Function) (args : List Scalar) : Except Cause Scalar :=
  if f.isOrdered && args.any isComplex then .error (.complexArgument f.name)
  else faulty (f.onScalars args >>= settle)

instance : Arithmetic Scalar where
  number := .real
  imaginary x := if x.abs < negligible then .real 0.0 else .complex ⟨0.0, x⟩
  constant c := .real c.value
  negate := neg
  operate op a b := faulty (op.onScalars a b)
  apply := applyFunction
  adopt a := faulty a.settle

end Scalar

end Reckoner
