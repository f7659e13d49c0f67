import Reckoner.Error

/-!
# Tokens

A token is a lexeme and the position where it starts. Texts are read into tokens that end with
the lexeme `finish`. Tokens that callers make may besides have a caption, and their values may turn
out to be of no use.
-/

namespace Reckoner

/-- Why a value from a caller is of no use in a token. -/
inductive Misfit where
  /-- A text that spells no number. -/
  | unreadable (shown : String)
  /-- A whole number beyond the doubles. -/
  | tooLarge
  /-- A value of a kind that no number is made of. -/
  | notANumber (type : String)
  /-- A value that is no operator. -/
  | noOperator (shown : String)
  /-- A value that nothing can be looked up by. -/
  | noKey (type : String)
  deriving DecidableEq, Repr

/-- The cause that comes up where the value is needed. -/
def Misfit.cause : Misfit → Cause
  | unreadable shown => .unreadableNumber shown
  | tooLarge => .arithmetic .wholeTooLarge
  | notANumber type => .notConvertible false type
  | noOperator shown => .missingKey shown
  | noKey type => .unhashable type

/-- What a piece of text stands for. -/
inductive Lexeme where
  | number (value : Float)
  | imaginary (value : Float)
  | operator (symbol : String)
  | function (name : String)
  | var (name : String)
  | constant (name : String)
  | openParen
  | closeParen
  | comma
  | finish
  /-- A number, or else an imaginary number, whose value cannot be used. -/
  | unusableNumber (withUnit : Bool) (why : Misfit)
  /-- An operator whose value cannot be used. -/
  | unusableOperator (why : Misfit)
  deriving DecidableEq, Inhabited

namespace Lexeme

/-- The kind of a lexeme in small letters. -/
def kind : Lexeme → String
  | number _ => "number"
  | imaginary _ => "imaginary"
  | operator _ => "operator"
  | function _ => "function"
  | var _ => "variable"
  | constant _ => "constant"
  | openParen => "lparen"
  | closeParen => "rparen"
  | comma => "comma"
  | finish => "eof"
  | unusableNumber withUnit _ => if withUnit then "imaginary" else "number"
  | unusableOperator _ => "operator"

/-- The text of the value that a lexeme carries. -/
def value? : Lexeme → Option String
  | number x | imaginary x => some (Double.text x)
  | operator s | function s | var s | constant s => some s
  | _ => none

/-- What a message calls the lexeme: its value, or its kind. -/
def shown (l : Lexeme) : String := l.value?.getD l.kind

/-- The value as it stands in a listing: names are quoted. -/
def listed? : Lexeme → Option String
  | number x | imaginary x => some (Double.text x)
  | operator s | function s | var s | constant s => some (Text.quoted s)
  | _ => none

end Lexeme

/-- What a token is called instead of its lexeme. -/
structure Caption where
  /-- The name in a message. -/
  shown : String
  /-- The value in a listing, if there is one. -/
  listed : Option String
  deriving DecidableEq

/-- A lexeme at a position. -/
structure Token where
  lexeme : Lexeme
  position : Int
  caption : Option Caption := none
  deriving DecidableEq, Inhabited

namespace Token

/-- What a message calls the token. -/
def shown (t : Token) : String :=
  match t.caption with
  | some c => c.shown
  | none => t.lexeme.shown

/-- The value as it stands in a listing. -/
def listed? (t : Token) : Option String :=
  match t.caption with
  | some c => c.listed
  | none => t.lexeme.listed?

/-- A token in a listing. -/
def text (t : Token) : String :=
  let value := match t.listed? with
    | some v => ", " ++ v
    | none => ""
  "Token(" ++ t.lexeme.kind.toUpper ++ value ++ "@" ++ toString t.position ++ ")"

/-- A listing of tokens. -/
def listing (tokens : List Token) : String :=
  "[" ++ Text.commaSeparated (tokens.map text) ++ "]"

end Token

end Reckoner
