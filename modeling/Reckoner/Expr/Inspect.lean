import Reckoner.Error
import Reckoner.Expr.Basic

/-!
# Trees as constructor terms

`inspect` writes a tree with the name of every node, which tells trees apart that are printed
alike.
-/

namespace Reckoner.Expr

mutual

/-- The tree as a term. -/
def inspect : Expr → String
  | number x => "Number(" ++ Double.text x ++ ")"
  | imaginary x => "Imaginary(" ++ Double.text x ++ ")"
  | constant name => "Constant('" ++ name ++ "')"
  | var name => "Variable('" ++ name ++ "')"
  | negate e => "UnaryMinus(" ++ inspect e ++ ")"
  | binary op l r =>
    "BinaryOp(" ++ Text.quoted op ++ ", left=" ++ inspect l ++ ", right=" ++ inspect r ++ ")"
  | call name args =>
    "Call('" ++ name ++ "', [" ++ Text.commaSeparated (inspectAll args) ++ "])"
  | blank => "Node()"
  | foreign _ shown => shown

/-- The arguments as terms. -/
def inspectAll : List Expr → List String
  | [] => []
  | e :: rest => inspect e :: inspectAll rest

end

end Reckoner.Expr
