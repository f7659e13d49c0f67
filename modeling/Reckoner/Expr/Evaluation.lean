import Reckoner.Scope.Basic

/-!
# Evaluating expressions

Operands are evaluated from left to right, each before the operator that joins them. The names of
constants stand for the constants whatever a scope says; every other name is looked up. Only the
operators and calls of the expression itself are noted, not those of expressions that variables
stand for.
-/

namespace Reckoner

variable {α : Type} [Arithmetic α]

namespace Expr

mutual

/-- The value of an expression whose variables are looked up in the given way. -/
def evaluateWith (lookup : String → Run α α) (traced : Bool) : Expr → Run α α
  | number x => pure (Arithmetic.number x)
  | imaginary x => pure (Arithmetic.imaginary x)
  | constant name =>
    match Constant.ofName? name with
    | some c => pure (Arithmetic.constant c)
    | none => Action.fail (.missingName name)
  | var name =>
    match Constant.ofName? name with
    | some c => pure (Arithmetic.constant c)
    | none => lookup name
  | negate e => do return Arithmetic.negate (← evaluateWith lookup traced e)
  | binary op l r => do
    let a ← evaluateWith lookup traced l
    let b ← evaluateWith lookup traced r
    let result ← Action.ofCause (Operator.evaluate op a b)
    Run.note traced (.binary op a b result)
    return result
  | call name args => do
    let values ← evaluateAllWith lookup traced args
    let result ← Action.ofCause (Function.evaluateNamed name values)
    Run.note traced (.call name values result)
    return result
  | blank => Action.fail .blankOperation
  | foreign type _ => Action.fail (.notANode type "evaluate")

/-- The values of arguments. -/
def evaluateAllWith (lookup : String → Run α α) (traced : Bool) : List Expr → Run α (List α)
  | [] => pure []
  | e :: rest => do
    let value ← evaluateWith lookup traced e
    let values ← evaluateAllWith lookup traced rest
    return value :: values

end

end Expr

/-- The value of a variable. An expression that a variable stands for may need other variables;
the number bounds how deep that goes. -/
def lookupWithin (bindings : Table (Binding α)) : Nat → String → Run α α
  | 0, name => Action.fail (.circularDefinition name)
  | depth + 1, name =>
    match bindings.find? name with
    | none => Action.fail (.undefinedVariable name)
    | some (.number value) => Action.ofCause (Arithmetic.adopt value)
    | some binding =>
      Run.resolve name (fun _ => binding.expression name)
        (Expr.evaluateWith (lookupWithin bindings depth) false)

/-- The value of a variable. Names that wait for each other are distinct, so one level more than
there are bindings is never used up. -/
def lookup (bindings : Table (Binding α)) (name : String) : Run α α :=
  lookupWithin bindings (bindings.length + 1) name

namespace Expr

/-- The value of an expression among bindings. -/
def evaluateIn (bindings : Table (Binding α)) (traced : Bool) (e : Expr) : Run α α :=
  evaluateWith (lookup bindings) traced e

/-- The value of an expression, from a scope that remembers nothing. -/
def evaluate (bindings : Table (Binding α)) (e : Expr) : Except Error α :=
  ((evaluateIn bindings false e).runFrom .fresh).1

/-- The value of an expression, and its reductions in order: on failure, those before it. -/
def evaluateTraced (bindings : Table (Binding α)) (e : Expr) :
    Except Error α × List (Reduction α) :=
  let (outcome, m) := (evaluateIn bindings true e).runFrom .fresh
  (outcome, m.reductions.reverse)

end Expr

/-- Bindings and what has been remembered of them. -/
structure Scope (α : Type) where
  bindings : Table (Binding α)
  memory : Memory α

namespace Scope

/-- A scope that remembers nothing. -/
def ofTable (bindings : Table (Binding α)) : Scope α := ⟨bindings, .fresh⟩

/-- A step in a scope. -/
def advance {β : Type} (s : Scope α) (step : Run α β) : Except Error β × Scope α :=
  let (outcome, memory) := step.runFrom s.memory
  (outcome, { s with memory := memory })

/-- The value of a variable. -/
def lookup (s : Scope α) (name : String) : Except Error α × Scope α :=
  s.advance (Reckoner.lookup s.bindings name)

/-- The value of an expression. -/
def evaluate (s : Scope α) (e : Expr) : Except Error α × Scope α :=
  s.advance (e.evaluateIn s.bindings false)

/-- The name is bound. -/
def contains (s : Scope α) (name : String) : Bool := s.bindings.holds name

/-- The bound names. -/
def names (s : Scope α) : List String := s.bindings.names

end Scope

end Reckoner
