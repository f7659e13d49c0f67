import Reckoner.Datum

/-!
# Tokens from callers

A caller makes a token of a kind, a value and a position. Any value will do as long as it is not
needed: only a number and an operator that are used have to be some.
-/

namespace Reckoner

/-- The kinds of tokens, by the names that callers use. -/
inductive TokenKind where
  | number | imaginary | operator | function | var | constant | openParen | closeParen | comma
  | finish
  deriving DecidableEq, Repr

namespace Token

/-- The value of a number token. -/
def numeral (d : Datum) : Except Misfit Float :=
  match d with
  | .text s =>
    match Double.read? s.toList with
    | some x => .ok x
    | none => .error (.unreadable d.shown)
  | _ =>
    match d.toScalar?.bind Scalar.toFloat? with
    | some (.ok x) => .ok x
    | some (.error _) => .error .tooLarge
    | none => .error (.notANumber d.kind)

/-- The lexeme of a number, or else of an imaginary number. -/
def numberLexeme (withUnit : Bool) (d : Datum) : Lexeme :=
  match numeral d with
  | .ok x => if withUnit then .imaginary x else .number x
  | .error why => .unusableNumber withUnit why

/-- The lexeme of an operator. -/
def operatorLexeme : Datum → Lexeme
  | .text s => .operator s
  | .list items => .unusableOperator (.noKey (Datum.list items).kind)
  | .tokens ts => .unusableOperator (.noKey (Datum.tokens ts).kind)
  | .map entries => .unusableOperator (.noKey (Datum.map entries).kind)
  | d => .unusableOperator (.noOperator d.shown)

/-- A value in words. -/
def wordsOf (d : Datum) : String := d.plain.toOption.getD d.shown

/-- The lexeme of a kind with a value. -/
def lexemeOf (kind : TokenKind) (d : Datum) : Lexeme :=
  match kind with
  | .number => numberLexeme false d
  | .imaginary => numberLexeme true d
  | .operator => operatorLexeme d
  | .function => .function (wordsOf d)
  | .var => .var (wordsOf d)
  | .constant => .constant (wordsOf d)
  | .openParen => .openParen
  | .closeParen => .closeParen
  | .comma => .comma
  | .finish => .finish

/-- The token of a kind with a value at a position. It goes by its value, if there is one. -/
def given (kind : TokenKind) (d : Datum) (position : Int) : Token :=
  let lexeme := lexemeOf kind d
  let caption : Caption :=
    match d with
    | .null => ⟨lexeme.kind, none⟩
    | d => ⟨wordsOf d, some d.shown⟩
  if caption = ⟨lexeme.shown, lexeme.listed?⟩ then { lexeme, position }
  else { lexeme, position, caption := some caption }

end Token

end Reckoner
