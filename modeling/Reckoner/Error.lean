import Reckoner.Double.Reading
import Reckoner.Estimate
import Reckoner.Scalar.Function
import Reckoner.Text.Quoted

/-!
# Errors

Everything that can go wrong, as a cause. A cause has a message and, unless it is an accident of
the arithmetic or of a hand-made input, a four digit code whose first digit names its category.
An error is a cause together with the place in a text where it was found.
-/

namespace Reckoner

/-- What a tree that no text gives has in it. -/
inductive Defect where
  | notAnExpression (shown : String)
  | unknownOperator (op : String)
  | unknownConstant (name : String)
  | invalidName (name : String)
  | blankNode
  | notPrintable (shown : String)
  deriving DecidableEq

/-- Why an equation has no linear form. -/
inductive Nonlinearity where
  | power
  | product
  | divisor
  | insideFunction (name : String)
  | sampleMismatch
  deriving DecidableEq

/-- Why an iteration has no limit. -/
inductive Divergence where
  | residualAt (name : String) (x : Estimate)
  | derivativeAt (name : String) (x : Estimate)
  | iterate (iterations : Int)
  | complexSystem
  | systemResidual (iteration : Int)
  | systemExhausted (iterations : Int) (norm : Float)

/-- How the numbers of rows, columns and right-hand sides of a linear system do not fit. -/
inductive Misshape where
  /-- Rows of several lengths, or lists among the entries, below the numbers given. -/
  | ragged (counts : List Nat)
  /-- There are right-hand sides, but no rows. -/
  | flat
  /-- A row (along axis 0) or a column (along axis 1) is missing. -/
  | beyond (axis index size : Nat)
  /-- There are columns without an unknown. -/
  | surplus (columns : Nat)
  deriving DecidableEq

/-- What goes wrong. -/
inductive Cause where
  -- reading lexemes
  | secondPoint (literal : String)
  | malformedNumber (literal : String) (first : Char)
  | strayCharacter (c : Char)
  -- reading expressions
  | unclosedParenthesis (opening : Int)
  | missingParenthesis (function : String)
  | unclosedArguments (function : String)
  | unmatchedParenthesis
  | missingOperand
  | unexpectedToken (shown : String)
  | trailingInput (shown : String)
  | notAnEquation
  | emptySide
  | unbalancedBraces
  | expectedDelimiter (opening : String)
  | unknownDelimiter (command : String)
  | invalidTree (defect : Defect)
  -- evaluating
  | undefinedVariable (name : String)
  | unknownFunction (name : String)
  | arity (function : String) (expected : String) (got : Nat)
  | complexArgument (function : String)
  | circularDefinition (name : String)
  | invalidBinding (name shown : String)
  | invalidBindings (shown : String)
  | notALiteral
  | complexResult (shown : String)
  | scalarArgument (names : List String)
  | uncollectable (op : String)
  -- solving
  | unknownOptions (names : List String)
  | guessCount (expected got : Nat)
  | notInEquation (name : String)
  | emptySystem
  | ambiguous (unknowns : List String)
  | nonlinear (why : Nonlinearity)
  | infiniteSolutions
  | noSolution
  | zeroDerivative (x : Estimate)
  | maxIterations (x : Estimate) (iterations : Int)
  | noConvergence (why : Divergence)
  | singularJacobian
  -- accidents
  | arithmetic (fault : Fault)
  | missingName (name : String)
  | missingKey (shown : String)
  | unhashable (type : String)
  | blankOperation
  | notANode (type operation : String)
  | unreadableNumber (shown : String)
  | unreadableWhole (shown : String)
  | tooLongWhole (digits : Nat)
  | notConvertible (toWhole : Bool) (type : String)
  | infiniteWhole
  | undefinedWhole
  | notOrdered (sign left right : String)
  | notReal (type : String)
  | notJoinable (left right : String)
  | notACount (type : String)
  | countTooLarge
  | unsupported (operator left right : String)
  | notIterable (type : String)
  | notEnumerable (type : String)
  | notAText (index : Nat) (type : String)
  | withoutMagnitude (type : String)
  | unexpectedOption (name : String)
  | missingPrecision
  | uncountable (type : String)
  | tooManyDigits
  | precisionTooBig
  | indexOutOfRange
  | misshapen (how : Misshape)

/-- The kinds of errors that callers tell apart. -/
inductive Kind where
  | lexical | grammatical
  | evaluation | undefinedVariable | unknownFunction | arity | domain | circular
  | solving | ambiguous | nonlinear | infiniteSolutions | noSolution | zeroDerivative
  | maxIterations | noConvergence | singularJacobian
  | lookup | overflow | value | notImplemented | attribute | type | division | index
  deriving DecidableEq

namespace Defect

/-- The defect in words. -/
def message : Defect → String
  | notAnExpression shown => "not an AST node: " ++ shown
  | unknownOperator op => "unknown operator " ++ Text.quoted op
  | unknownConstant name => "unknown constant " ++ Text.quoted name
  | invalidName name => "invalid name " ++ Text.quoted name
  | blankNode => "unsupported node type Node"
  | notPrintable shown => "cannot serialize " ++ shown

end Defect

namespace Nonlinearity

/-- The reason in words. -/
def message : Nonlinearity → String
  | power => "Powers are not supported by the linear solver."
  | product => "Non-linear term in multiplication."
  | divisor => "Non-linear equation. (Division by the unknown)"
  | insideFunction name => "Unknown inside function '" ++ name ++ "' is non-linear."
  | sampleMismatch => "Coefficients do not match the residual."

end Nonlinearity

namespace Misshape

/-- Counts in parentheses; a single one has a comma behind it. -/
def shapeText : List Nat → String
  | [count] => "(" ++ toString count ++ ",)"
  | counts => "(" ++ Text.commaSeparated (counts.map toString) ++ ")"

/-- The misfit in words. -/
def message : Misshape → String
  | ragged counts =>
    "setting an array element with a sequence. The requested array has an inhomogeneous shape "
      ++ "after " ++ toString counts.length ++ " dimensions. The detected shape was "
      ++ shapeText counts ++ " + inhomogeneous part."
  | flat => "too many indices for array: array is 1-dimensional, but 2 were indexed"
  | beyond axis index size =>
    "index " ++ toString index ++ " is out of bounds for axis " ++ toString axis ++ " with size "
      ++ toString size
  | surplus columns =>
    "matmul: Input operand 1 has a mismatch in its core dimension 0, with gufunc signature "
      ++ "(n?,k),(k,m?)->(n?,m?) (size 0 is different from " ++ toString columns ++ ")"

end Misshape

namespace Divergence

/-- The reason in words. -/
def message : Divergence → String
  | residualAt name x => "Residual is not finite at " ++ name ++ " = " ++ x.words
  | derivativeAt name x => "Derivative is not finite at " ++ name ++ " = " ++ x.words
  | iterate iterations =>
    "Newton iterate diverged after " ++ toString iterations ++ " iterations"
  | complexSystem => "System residual became complex."
  | systemResidual iteration =>
    "Residual is not finite after " ++ toString iteration ++ " iterations."
  | systemExhausted iterations norm =>
    "No convergence after " ++ toString iterations ++ " iterations (residual norm "
      ++ Double.general norm 6 ++ ")."

end Divergence

namespace Cause

/-- The kind of a cause. -/
def kind : Cause → Kind
  | secondPoint _ | malformedNumber .. | strayCharacter _ => .lexical
  | unclosedParenthesis _ | missingParenthesis _ | unclosedArguments _ | unmatchedParenthesis
  | missingOperand | unexpectedToken _ | trailingInput _ | notAnEquation | emptySide
  | unbalancedBraces | expectedDelimiter _ | unknownDelimiter _ | invalidTree _ => .grammatical
  | undefinedVariable _ => .undefinedVariable
  | unknownFunction _ => .unknownFunction
  | arity .. => .arity
  | complexArgument _ => .domain
  | circularDefinition _ => .circular
  | invalidBinding .. | invalidBindings _ | notALiteral | complexResult _ | scalarArgument _
  | uncollectable _ => .evaluation
  | unknownOptions _ | guessCount .. | notInEquation _ | emptySystem => .solving
  | ambiguous _ => .ambiguous
  | nonlinear _ => .nonlinear
  | infiniteSolutions => .infiniteSolutions
  | noSolution => .noSolution
  | zeroDerivative _ => .zeroDerivative
  | maxIterations .. => .maxIterations
  | noConvergence _ => .noConvergence
  | singularJacobian => .singularJacobian
  | arithmetic .outsideDomain => .value
  | arithmetic .divisionByZero => .division
  | arithmetic _ => .overflow
  | missingName _ | missingKey _ => .lookup
  | blankOperation => .notImplemented
  | notANode .. => .attribute
  | unreadableNumber _ | unreadableWhole _ | tooLongWhole _ | undefinedWhole | missingPrecision
  | tooManyDigits | precisionTooBig => .value
  | infiniteWhole | countTooLarge => .overflow
  | notConvertible .. | notOrdered .. | notReal _ | notJoinable .. | notACount _ | unsupported ..
  | unhashable _ | notIterable _ | notEnumerable _ | notAText .. | withoutMagnitude _
  | unexpectedOption _ | uncountable _ => .type
  | indexOutOfRange | misshapen .flat | misshapen (.beyond ..) => .index
  | misshapen _ => .value

/-- The code of a cause; an accident has none. -/
def code? : Cause → Option String
  | secondPoint _ | malformedNumber .. => some "3008"
  | strayCharacter _ => some "3001"
  | unclosedParenthesis _ | unclosedArguments _ | unmatchedParenthesis => some "3009"
  | missingParenthesis _ => some "3010"
  | missingOperand => some "3027"
  | unexpectedToken _ | uncollectable _ => some "3011"
  | trailingInput _ => some "3016"
  | notAnEquation | emptySystem => some "3012"
  | emptySide => some "3022"
  | unbalancedBraces | expectedDelimiter _ | unknownDelimiter _ => some "3025"
  | invalidTree _ => some "3030"
  | undefinedVariable _ => some "3100"
  | unknownFunction _ => some "2004"
  | arity .. => some "2005"
  | complexArgument _ => some "2006"
  | circularDefinition _ => some "3101"
  | invalidBinding .. | invalidBindings _ | notALiteral => some "3102"
  | complexResult _ => some "3103"
  | scalarArgument _ => some "3104"
  | unknownOptions _ => some "3031"
  | guessCount .. => some "3032"
  | notInEquation _ => some "3020"
  | ambiguous _ => some "3002"
  | nonlinear _ => some "3005"
  | infiniteSolutions => some "3013"
  | noSolution => some "3014"
  | zeroDerivative _ => some "3017"
  | maxIterations .. => some "3018"
  | noConvergence _ => some "3019"
  | singularJacobian => some "3021"
  | _ => none

/-- The cause in words. -/
def message : Cause → String
  | secondPoint literal => "More than one '.' in number: " ++ literal
  | malformedNumber literal _ => "Invalid number literal: " ++ literal
  | strayCharacter c => "Unexpected character '" ++ c.toString ++ "'"
  | unclosedParenthesis opening =>
    "Missing closing parenthesis ')' for '(' at position " ++ toString opening
  | missingParenthesis function => "Missing opening parenthesis after function " ++ function
  | unclosedArguments function =>
    "Missing closing parenthesis after arguments of '" ++ function ++ "'"
  | unmatchedParenthesis => "Unmatched closing parenthesis ')'"
  | missingOperand => "Missing Number."
  | unexpectedToken shown => "Unexpected token: " ++ shown
  | trailingInput shown => "Unexpected input after expression: " ++ shown
  | notAnEquation => "Not an equation (no '=' found)."
  | emptySide => "One of the equation sides is empty."
  | unbalancedBraces => "Unbalanced braces in LaTeX input."
  | expectedDelimiter opening => "Expected '" ++ opening ++ "' in LaTeX input."
  | unknownDelimiter command => "Unknown delimiter after \\" ++ command
  | invalidTree defect => "Invalid AST: " ++ defect.message
  | undefinedVariable name => "Undefined variable: " ++ name
  | unknownFunction name => "Unknown function: " ++ name
  | arity function expected got =>
    "Function '" ++ function ++ "' expects " ++ expected ++ " argument(s), got " ++ toString got
  | complexArgument function => "Function '" ++ function ++ "' does not accept complex arguments"
  | circularDefinition name => "Circular variable definition: " ++ name
  | invalidBinding name shown => "Invalid binding for variable '" ++ name ++ "': " ++ shown
  | invalidBindings shown => "Invalid bindings: " ++ shown
  | notALiteral => "Only numbers can be turned into literals."
  | complexResult shown => "Complex result " ++ shown ++ " where a real number was expected"
  | scalarArgument names =>
    "Scalar argument needs a single-variable expression, found: "
      ++ Text.commaSeparated names
  | uncollectable op => "Unknown operator: " ++ op
  | unknownOptions names => "Unknown solve option(s): " ++ Text.commaSeparated names
  | guessCount expected got =>
    "Expected " ++ toString expected ++ " initial guess(es), got " ++ toString got
  | notInEquation name => "Variable not found in equation: " ++ name
  | emptySystem => "Empty system of equations."
  | ambiguous unknowns =>
    "Multiple unknowns: " ++ Text.commaSeparated unknowns
      ++ ". Specify solve_for or provide values for all but one."
  | nonlinear why => why.message
  | infiniteSolutions => "Infinite solutions (identity)."
  | noSolution => "No solution (contradiction)."
  | zeroDerivative x => "Derivative is zero at x = " ++ x.words
  | maxIterations x iterations =>
    "No convergence after " ++ toString iterations ++ " iterations (last estimate "
      ++ x.words ++ ")"
  | noConvergence why => why.message
  | singularJacobian => "Jacobian is singular; the system has no unique correction step."
  | arithmetic fault => fault.message
  | missingName name => Text.quoted name
  | missingKey shown => shown
  | unhashable type => "unhashable type: '" ++ type ++ "'"
  | blankOperation => ""
  | notANode type operation => "'" ++ type ++ "' object has no attribute '" ++ operation ++ "'"
  | unreadableNumber shown => "could not convert string to float: " ++ shown
  | unreadableWhole shown => "invalid literal for int() with base 10: " ++ shown
  | tooLongWhole digits =>
    "Exceeds the limit (" ++ toString Double.mostWholeDigits
      ++ " digits) for integer string conversion: value has " ++ toString digits
      ++ " digits; use sys.set_int_max_str_digits() to increase the limit"
  | notConvertible toWhole type =>
    if toWhole then
      "int() argument must be a string, a bytes-like object or a real number, not '" ++ type ++ "'"
    else "float() argument must be a string or a real number, not '" ++ type ++ "'"
  | infiniteWhole => "cannot convert float infinity to integer"
  | undefinedWhole => "cannot convert float NaN to integer"
  | notOrdered sign left right =>
    "'" ++ sign ++ "' not supported between instances of '" ++ left ++ "' and '" ++ right ++ "'"
  | notReal type => "must be real number, not " ++ type
  | notJoinable left right =>
    "can only concatenate " ++ left ++ " (not \"" ++ right ++ "\") to " ++ left
  | notACount type => "can't multiply sequence by non-int of type '" ++ type ++ "'"
  | countTooLarge => "cannot fit 'int' into an index-sized integer"
  | unsupported operator left right =>
    "unsupported operand type(s) for " ++ operator ++ ": '" ++ left ++ "' and '" ++ right ++ "'"
  | notIterable type => "argument of type '" ++ type ++ "' is not iterable"
  | notEnumerable type => "'" ++ type ++ "' object is not iterable"
  | notAText index type =>
    "sequence item " ++ toString index ++ ": expected str instance, " ++ type ++ " found"
  | withoutMagnitude type => "bad operand type for abs(): '" ++ type ++ "'"
  | unexpectedOption name =>
    "SolveOptions.__init__() got an unexpected keyword argument '" ++ name ++ "'"
  | missingPrecision => "Format specifier missing precision"
  | uncountable type => "'" ++ type ++ "' object cannot be interpreted as an integer"
  | tooManyDigits => "Too many decimal digits in format string"
  | precisionTooBig => "precision too big"
  | indexOutOfRange => "string index out of range"
  | misshapen how => how.message

/-- The character that a lexical cause complains about. -/
def character? : Cause → Option Char
  | secondPoint _ => some '.'
  | malformedNumber _ first => some first
  | strayCharacter c => some c
  | _ => none

end Cause

/-- Errors that belong to evaluation. -/
def Kind.isEvaluation : Kind → Bool
  | .evaluation | .undefinedVariable | .unknownFunction | .arity | .domain | .circular => true
  | _ => false

/-- A cause, the text it was found in, and the position there. -/
structure Error where
  cause : Cause
  position : Option Int := none
  equation : Option String := none

namespace Error

/-- A cause without a place. -/
def of (c : Cause) : Error := { cause := c }

/-- A cause at a position of a text. -/
def located (c : Cause) (position : Int) (equation : Option String := none) : Error :=
  { cause := c, position := some position, equation := equation }

/-- An error of the engine, which has a code; all others are accidents. -/
def isTyped (e : Error) : Bool := e.cause.code?.isSome

/-- The error names a text if it has none yet; accidents never do. -/
def within (e : Error) (text : String) : Error :=
  if e.isTyped && e.equation.isNone then { e with equation := some text } else e

/-- The message, followed by the position if there is one. -/
def text (e : Error) : String :=
  match e.position with
  | some p => e.cause.message ++ " (position " ++ toString p ++ ")"
  | none => e.cause.message

/-- The category of an error, by the first digit of its code. -/
def category (e : Error) : String :=
  match (e.cause.code?.getD "").toList.head? with
  | some '2' => "Scientific Function Error"
  | some '3' => "Calculator Error"
  | some '5' => "Configuration Error"
  | _ => "Runtime Error"

end Error

/-- A fault as an error. -/
def Fault.toError (f : Fault) : Error := .of (.arithmetic f)

end Reckoner
