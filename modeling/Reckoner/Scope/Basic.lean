import Reckoner.Action
import Reckoner.Arithmetic
import Reckoner.Expr.Reading
import Reckoner.Table

/-!
# Scopes

A scope gives variables their values. A variable is bound to a number or to an expression; an
expression is evaluated when the variable is first needed, in the same scope, and its value is
remembered as long as the scope lives.
-/

namespace Reckoner

/-- What a variable is bound to. -/
inductive Binding (α : Type) where
  /-- A number. -/
  | number (value : α)
  /-- An expression as text, which is read when it is needed. -/
  | text (source : String)
  /-- An expression. -/
  | tree (e : Expr)
  /-- Something that has no value, by its text. -/
  | other (shown : String)

namespace Binding

/-- The expression that a variable stands for. -/
def expression {α : Type} (name : String) : Binding α → Except Error Expr
  | text source => Expr.ofText source
  | tree e => .ok e
  | other shown => .error (.of (.invalidBinding name shown))
  | number _ => .error (.of (.undefinedVariable name))

end Binding

/-- An operator or a call that has been evaluated, with the values of its operands. -/
inductive Reduction (α : Type) where
  | binary (op : String) (left right result : α)
  | call (name : String) (args : List α) (result : α)

/-- What a scope remembers. -/
structure Memory (α : Type) where
  /-- The values of expressions that have been evaluated. -/
  resolved : Table α
  /-- The names whose expressions are being evaluated. -/
  pending : List String
  /-- What has been evaluated, the last one first. -/
  reductions : List (Reduction α)

namespace Memory

/-- Nothing is remembered yet. -/
def fresh {α : Type} : Memory α := ⟨[], [], []⟩

end Memory

/-- A computation in a scope. -/
abbrev Run (α : Type) (β : Type) := Action (Memory α) β

namespace Run

variable {α : Type}

/-- Notes a reduction if reductions are to be noted. -/
def note (traced : Bool) (r : Reduction α) : Run α Unit :=
  .update fun m => if traced then { m with reductions := r :: m.reductions } else m

/-- Marks a name while a computation runs. -/
def whilePending {β : Type} (name : String) (a : Run α β) : Run α β := do
  Action.update fun m => { m with pending := name :: m.pending }
  Action.thenUpdate a fun m => { m with pending := m.pending.filter (· != name) }

/-- Remembers the value of a name. -/
def remember (name : String) (value : α) : Run α Unit :=
  .update fun m => { m with resolved := m.resolved.insert name value }

/-- The value of a name that stands for an expression: the remembered one, or else the value that
the expression has. A name that is needed for its own value has none. -/
def resolve (name : String) (expression : Unit → Except Error Expr) (evaluate : Expr → Run α α) :
    Run α α := do
  let m ← get
  match m.resolved.find? name with
  | some value => return value
  | none =>
    if m.pending.contains name then Action.fail (.circularDefinition name)
    else do
      let e ← Action.ofExcept (expression ())
      let value ← whilePending name (evaluate e)
      remember name value
      return value

end Run

end Reckoner
