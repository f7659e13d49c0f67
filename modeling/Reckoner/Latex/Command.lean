import Reckoner.Scalar.Function
import Reckoner.Text.Numeral

/-!
# LaTeX commands

What a backslash introduces: a name of letters or a single character, and the meaning that the
name has in a formula.
-/

namespace Reckoner.Latex

open Reckoner.Text

/-- Names of Greek letters, among them the variants. -/
def greekLetters : List String := [
  "alpha", "beta", "gamma", "delta", "epsilon", "varepsilon", "zeta", "eta", "theta", "vartheta",
  "iota", "kappa", "lambda", "mu", "nu", "xi", "pi", "varpi", "rho", "varrho", "sigma",
  "varsigma", "tau", "upsilon", "phi", "varphi", "chi", "psi", "omega", "Gamma", "Delta",
  "Theta", "Lambda", "Xi", "Pi", "Sigma", "Upsilon", "Phi", "Psi", "Omega"]

/-- What a command means. -/
inductive Command where
  /-- Space without a meaning. -/
  | spacing
  | fraction
  | root
  /-- A delimiter of changing size follows, the left or the right one of a pair. -/
  | delimiter (left : Bool)
  | operator (sign : Char)
  | openBrace
  | closeBrace
  /-- A function whose name follows in a group. -/
  | namedFunction
  /-- Upright text in a group. -/
  | text
  | function (name : String)
  /-- A name that stands for itself. -/
  | operand (name : String)

/-- Commands for symbols that have another name in plain notation. -/
def symbols : List (String × String) := [("infty", "inf")]

/-- Commands for functions that have another name in plain notation. -/
def aliases : List (String × String) := [
  ("arcsin", "asin"), ("arccos", "acos"), ("arctan", "atan"),
  ("arcsinh", "asinh"), ("arccosh", "acosh"), ("arctanh", "atanh")]

/-- The commands that have a meaning besides being a name. -/
def meanings : List (String × Command) :=
  [",", ";", ":", "!", " ", "quad", "qquad"].map (·, .spacing)
    ++ ["frac", "dfrac", "tfrac"].map (·, .fraction)
    ++ ["mathrm", "mathit", "mathbf", "text", "textrm"].map (·, .text)
    ++ [("sqrt", .root), ("left", .delimiter true), ("right", .delimiter false),
      ("cdot", .operator '*'), ("times", .operator '*'), ("div", .operator '/'),
      ("\x7b", .openBrace), ("\x7d", .closeBrace), ("operatorname", .namedFunction)]
    ++ aliases.map (fun (name, plain) => (name, .function plain))
    ++ symbols.map (fun (name, plain) => (name, .operand plain))

/-- The meaning of a command. A name that is not known stands for itself. -/
def Command.ofName (name : String) : Command :=
  match meanings.lookup name with
  | some command => command
  | none => if (Function.ofName? name).isSome then .function name else .operand name

/-- The name behind a backslash, and the text behind the name: a run of letters, or a single
character. -/
def commandName : List Char → List Char × List Char
  | [] => ([], [])
  | c :: rest =>
    if isLetter c then ((c :: rest).takeWhile isLetter, (c :: rest).dropWhile isLetter)
    else ([c], rest)

/-- The name in plain notation of a command that may be the bare argument of a function. -/
def bareArgument? (name : String) : Option String :=
  if greekLetters.contains name then some name else symbols.lookup name

/-- What a delimiter becomes in plain notation, and the text behind it: a brace behind a
backslash, or a single character. -/
def delimiter? (left : Bool) : List Char → Option (String × List Char)
  | '\\' :: '{' :: rest => if left then some ("(", rest) else none
  | '\\' :: '}' :: rest => if left then none else some (")", rest)
  | '(' :: rest | '[' :: rest => if left then some ("(", rest) else none
  | ')' :: rest | ']' :: rest => if left then none else some (")", rest)
  | '|' :: rest => some (if left then "abs(" else ")", rest)
  | '.' :: rest => some ("", rest)
  | _ => none

end Reckoner.Latex
