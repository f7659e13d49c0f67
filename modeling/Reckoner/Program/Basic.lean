import Reckoner.Datum
import Reckoner.Program.Code

/-!
# Programs

A program is an expression that has been checked and prepared to be evaluated many times: with
code, or as it stands. Both ways give the same values and the same errors.
-/

namespace Reckoner

/-- An expression that is ready to be evaluated. -/
structure Program (α : Type) where
  expr : Expr
  /-- The code, unless the expression is evaluated as it stands. -/
  code? : Option (Code α)

namespace Program

variable {α : Type} [Arithmetic α]

/-- The program of an expression, which must be valid. -/
def ofExpr (codegen : Bool) (e : Expr) : Except Error (Program α) := do
  e.validate
  if codegen then return ⟨e, some (← Code.ofExpr e)⟩ else return ⟨e, none⟩

/-- The free variables. -/
def freeVariables (p : Program α) : List String := p.expr.freeVariables

/-- The value among bindings. -/
def run (p : Program α) (bindings : Table (Binding α)) : Except Error α :=
  match p.code? with
  | some code => ((code.runWith (lookup bindings)).runFrom .fresh).1
  | none => p.expr.evaluate bindings

/-- The program in words. -/
def text (p : Program α) : String :=
  let codegen := if p.code?.isSome then "True" else "False"
  "CompiledExpression(" ++ p.expr.text ++ ", codegen=" ++ codegen ++ ")"

/-- The variable that a single number is meant for. -/
def soleVariable (p : Program α) : Except Cause String :=
  match p.freeVariables with
  | [] => .ok "x"
  | [name] => .ok name
  | names => .error (.scalarArgument names)

/-- The expression that a value stands for as the source of a program. -/
def source : Datum → Except Error Expr
  | .text s => Expr.ofText s
  | .tokens ts => Expr.ofTokens ts
  | .list [] => Expr.ofTokens []
  | d => .ok d.toExpr

/-- The program of a value. -/
def ofDatum (codegen : Bool) (d : Datum) : Except Error (Program α) := do
  ofExpr codegen (← source d)

/-- The bindings that an argument gives: those of a map, none, or a single number. -/
def bindingsOf (p : Program Scalar) (argument : Datum) : Except Cause (Table (Binding Scalar)) :=
  match argument with
  | .null => .ok []
  | .map entries => .ok (Binding.ofData (.ofPairs entries))
  | _ =>
    match argument.settled? with
    | none => .error (.invalidBindings argument.shown)
    | some outcome => do
      let value ← outcome
      let name ← p.soleVariable
      return [(name, .number value)]

/-- The value for an argument. -/
def call (p : Program Scalar) (argument : Datum) : Except Error Scalar := do
  p.run (← (p.bindingsOf argument).mapError .of)

end Program

end Reckoner
