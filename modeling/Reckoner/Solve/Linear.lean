import Reckoner.Expr.Evaluation
import Reckoner.Expr.Variables
import Reckoner.Solve.Numeric
import Reckoner.Solve.Solution

/-!
# Linear equations

`collect` reads an expression as a multiple of one unknown plus a constant. It takes the expression
apart at sums, differences, products with a constant and quotients by a constant, and refuses
every other occurrence of the unknown. An equation whose difference of sides has such a form is
solved by one division.
-/

namespace Reckoner

/-- A multiple of the unknown and a constant. -/
structure LinearForm (α : Type) where
  factor : α
  constant : α

namespace LinearForm

variable {α : Type} [Numeric α]

/-- An expression without the unknown. -/
def ofConstant (value : α) : LinearForm α := ⟨Arithmetic.number 0.0, value⟩

/-- The unknown itself. -/
def unknown : LinearForm α := ⟨Arithmetic.number 1.0, Arithmetic.number 0.0⟩

/-- The form with the opposite sign. -/
def negate (f : LinearForm α) : LinearForm α :=
  ⟨Arithmetic.negate f.factor, Arithmetic.negate f.constant⟩

/-- An operator applied to factors and constants. -/
private def termwise (op : Operator) (f g : LinearForm α) : Except Cause (LinearForm α) := do
  let factor ← Arithmetic.operate op f.factor g.factor
  return ⟨factor, ← Arithmetic.operate op f.constant g.constant⟩

/-- The form of a product: one side must be without the unknown. -/
def multiply (f g : LinearForm α) : Except Cause (LinearForm α) :=
  if !Numeric.isZero f.factor && !Numeric.isZero g.factor then .error (.nonlinear .product)
  else do
    let factor ←
      if Numeric.isZero f.factor then Arithmetic.operate .multiply f.constant g.factor
      else Arithmetic.operate .multiply f.factor g.constant
    return ⟨factor, ← Arithmetic.operate .multiply f.constant g.constant⟩

/-- The form of a quotient: the divisor must be without the unknown. -/
def divide (f g : LinearForm α) : Except Cause (LinearForm α) :=
  if !Numeric.isZero g.factor then .error (.nonlinear .divisor)
  else do
    let factor ← Arithmetic.operate .divide f.factor g.constant
    return ⟨factor, ← Arithmetic.operate .divide f.constant g.constant⟩

/-- The form of an operator's result. -/
def combine (op : String) (f g : LinearForm α) : Except Cause (LinearForm α) :=
  match Operator.ofSymbol? op with
  | some .add => termwise .add f g
  | some .subtract => termwise .subtract f g
  | some .multiply => multiply f g
  | some .divide => divide f g
  | _ => .error (.uncollectable op)

end LinearForm

variable {α : Type} [Numeric α]

namespace Expr

/-- The form of an expression that must not contain the unknown. -/
def collectConstant (lookup : String → Run α α) (name : String) (why : Nonlinearity) (e : Expr) :
    Run α (LinearForm α) := do
  if ← Action.ofCause (e.mentions name) then Action.fail (.nonlinear why)
  else return .ofConstant (← evaluateWith lookup false e)

/-- The linear form of an expression in an unknown. -/
def collectWith (lookup : String → Run α α) (name : String) : Expr → Run α (LinearForm α)
  | var other =>
    if other = name then pure .unknown
    else do return .ofConstant (← evaluateWith lookup false (var other))
  | negate e => do return (← collectWith lookup name e).negate
  | binary op l r =>
    if op = "^" then collectConstant lookup name .power (binary op l r)
    else do
      let f ← collectWith lookup name l
      let g ← collectWith lookup name r
      Action.ofCause (LinearForm.combine op f g)
  | call f args => collectConstant lookup name (.insideFunction f) (call f args)
  | foreign type _ => Action.fail (.notANode type "collect_term")
  | e => do return .ofConstant (← evaluateWith lookup false e)

/-- The linear form of an expression among bindings. -/
def collect (bindings : Table (Binding α)) (name : String) (e : Expr) :
    Except Error (LinearForm α) :=
  ((collectWith (lookup bindings) name e).runFrom .fresh).1

end Expr

namespace LinearForm

/-- The value of the form at a point. -/
def value (f : LinearForm α) (x : α) : Except Fault α := do
  Numeric.add (← Numeric.mul f.factor x) f.constant

/-- The form agrees with the values that were found at two points: with their slope, and with the
value at the first point. -/
def agrees (f : LinearForm α) (x1 y1 x2 y2 : α) : Except Fault Bool := do
  let slope ← Numeric.div (← Numeric.sub y2 y1) (← Numeric.sub x2 x1)
  if ← Numeric.close slope f.factor then Numeric.close y1 (← f.value x1) else return false

/-- Where the form is zero. -/
def root (f : LinearForm α) : Except Cause α := do
  let x ← (Numeric.div (Arithmetic.negate f.constant) f.factor).mapError .arithmetic
  Arithmetic.adopt x

end LinearForm

end Reckoner
