import Reckoner.Expr.Basic
import Reckoner.Token.Lexer

/-!
# Reading expressions

Sums are the loosest, then products, then a sign in front, then powers. Sums and products group
from the left, powers from the right; a sign may stand in front of any operand, of an exponent
too. The tokens are read once from left to right: `Frame` is what is still open at a token, and a
token closes the frames that bind tighter than it.
-/

namespace Reckoner.Expr

/-- How tightly an operator binds the operand on its left and the one on its right. -/
def bindingPower? : String → Option (Nat × Nat)
  | "+" | "-" => some (10, 11)
  | "*" | "/" => some (20, 21)
  | "^" => some (41, 40)
  | _ => none

/-- How tightly a sign binds its operand. -/
def signPower : Nat := 30

/-- What has been read and waits for an operand or for a closing parenthesis. -/
inductive Frame where
  /-- An operator with its left operand. -/
  | binary (op : String) (left : Expr)
  /-- A minus sign. -/
  | minus
  /-- A plus sign, which leaves no trace in the tree. -/
  | plus
  /-- An open parenthesis at a position. -/
  | group (opening : Int)
  /-- An open argument list with the arguments that are complete, the last one first. -/
  | call (name : String) (done : List Expr)

namespace Frame

/-- How tightly a frame binds the operand on its right; a parenthesis does not. -/
def power? : Frame → Option Nat
  | binary op _ => (bindingPower? op).map (·.2)
  | minus | plus => some signPower
  | group _ | call .. => none

/-- A frame whose operand is complete. -/
def close : Frame → Expr → Expr
  | binary op left, e => .binary op left e
  | minus, e => .negate e
  | _, e => e

end Frame

/-- Closes the frames that bind tighter than the given power. -/
def reduce (power : Nat) : List Frame → Expr → List Frame × Expr
  | [], e => ([], e)
  | frame :: stack, e =>
    if frame.power?.any (power < ·) then reduce power stack (frame.close e)
    else (frame :: stack, e)

/-- Closes the frames down to the innermost open parenthesis. -/
def reduceAll : List Frame → Expr → List Frame × Expr := reduce 0

/-- The complaint about a token that cannot follow a complete operand, given the innermost open
parenthesis. -/
def misplaced : List Frame → Token → Cause
  | .group opening :: _, _ => .unclosedParenthesis opening
  | .call name _ :: _, _ => .unclosedArguments name
  | _, ⟨.closeParen, _, _⟩ => .unmatchedParenthesis
  | _, token => .trailingInput token.shown

/-- Reads tokens to the end, from the open frames and, where one has just been completed, an
operand. Tokens that give out count as the end at the given position. -/
def readFrom (stop : Int) (stack : List Frame) (operand : Option Expr) :
    List Token → Except Error Expr
  | [] =>
    match operand with
    | none => .error (.located .missingOperand stop)
    | some e =>
      match reduceAll stack e with
      | ([], e) => .ok e
      | (stack, _) =>
        .error (.located (misplaced stack { lexeme := .finish, position := stop }) stop)
  | token :: rest =>
    let fail (c : Cause) : Except Error Expr := .error (.located c token.position)
    match operand with
    | none =>
      match token.lexeme with
      | .number x => readFrom stop stack (some (.number x)) rest
      | .imaginary x => readFrom stop stack (some (.imaginary x)) rest
      | .constant name => readFrom stop stack (some (.constant name)) rest
      | .var name =>
        match rest with
        | ⟨.openParen, _, _⟩ :: ⟨.closeParen, _, _⟩ :: rest =>
          readFrom stop stack (some (.call name [])) rest
        | ⟨.openParen, _, _⟩ :: rest => readFrom stop (.call name [] :: stack) none rest
        | rest => readFrom stop stack (some (.var name)) rest
      | .function name =>
        match rest with
        | ⟨.openParen, _, _⟩ :: ⟨.closeParen, _, _⟩ :: rest =>
          readFrom stop stack (some (.call name [])) rest
        | ⟨.openParen, _, _⟩ :: rest => readFrom stop (.call name [] :: stack) none rest
        | other :: _ => .error (.located (.missingParenthesis name) other.position)
        | [] => .error (.located (.missingParenthesis name) stop)
      | .openParen => readFrom stop (.group token.position :: stack) none rest
      | .operator "-" => readFrom stop (.minus :: stack) none rest
      | .operator "+" => readFrom stop (.plus :: stack) none rest
      | .closeParen => fail .unmatchedParenthesis
      | .finish => fail .missingOperand
      | .unusableNumber _ why => .error (.of why.cause)
      | _ => fail (.unexpectedToken token.shown)
    | some e =>
      match token.lexeme with
      | .operator op =>
        match bindingPower? op with
        | none => .error (.of (.missingName op))
        | some (left, _) =>
          let (stack, e) := reduce left stack e
          readFrom stop (.binary op e :: stack) none rest
      | .unusableOperator why => .error (.of why.cause)
      | .closeParen =>
        match reduceAll stack e with
        | (.group _ :: stack, e) => readFrom stop stack (some e) rest
        | (.call name done :: stack, e) =>
          readFrom stop stack (some (.call name (done.reverse ++ [e]))) rest
        | (stack, _) => fail (misplaced stack token)
      | .comma =>
        match reduceAll stack e with
        | (.call name done :: stack, e) => readFrom stop (.call name (e :: done) :: stack) none rest
        | (stack, _) => fail (misplaced stack token)
      | .finish =>
        match reduceAll stack e with
        | ([], e) => .ok e
        | (stack, _) => fail (misplaced stack token)
      | _ => fail (misplaced (reduceAll stack e).1 token)

/-- The position behind the last token, where the end is taken to be if it is missing. -/
def endPosition (tokens : List Token) : Int :=
  match tokens.getLast? with
  | none => 0
  | some t => t.position + 1

/-- The tree of a list of tokens. -/
def ofTokens (tokens : List Token) : Except Error Expr :=
  readFrom (endPosition tokens) [] none tokens

/-- The tree of tokens that were read from a text. -/
def ofTokensOf (text : String) (tokens : List Token) : Except Error Expr :=
  (ofTokens tokens).mapError (·.within text)

/-- The tree of a text in plain notation. -/
def ofPlain (text : String) : Except Error Expr := do
  ofTokensOf text (← Token.tokenize text)

end Reckoner.Expr
