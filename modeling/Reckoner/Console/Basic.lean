import Reckoner.Calculation
import Reckoner.Console.Arguments
import Reckoner.Console.Result

/-!
# The console

Every problem of the command line is worked on by itself: its result goes to the output, an error
to the error output, and the exit code tells whether there was one. Without problems there is a
prompt, which ends with the input or at a blank line. Only errors of the engine are told in this
way; an accident ends the program.
-/

namespace Reckoner.Console

/-- What has been written. -/
structure Transcript where
  out : String := ""
  err : String := ""
  deriving Inhabited

/-- A part of a session. -/
abbrev Session (β : Type) := Action Transcript β

/-- Writes to the output. -/
def say (text : String) : Session Unit := .update fun t => { t with out := t.out ++ text }

/-- Writes to the error output. -/
def complain (text : String) : Session Unit := .update fun t => { t with err := t.err ++ text }

/-- An error in words. -/
def errorLine (e : Error) : String :=
  "Error " ++ e.cause.code?.getD "" ++ " (" ++ e.category ++ "): " ++ e.text ++ "\n"

/-- The number of significant digits in steps; zero is none. -/
def digitsOf (settings : Settings) (a : Arguments) : Except Cause Datum := do
  let digits ← match a.digits with
    | some n => pure (.number (.whole n))
    | none => settings.value "significant_digits"
  return if digits.isTrue then digits else .null

/-- The text of the result of a problem. -/
def result (settings : Settings) (a : Arguments) (known : Table Datum) (problem : String) :
    Except Error (Except Cause String) := do
  let problem ← if a.latex then Latex.toPlain problem else pure problem
  let digits ← (digitsOf settings a).mapError .of
  if a.steps then
    return .ok (stepsText (← Calculation.steps settings (.text problem) known [] digits))
  else
    return answerText settings none (← Calculation.answer settings (.text problem) known [])

/-- Works on a problem: whether it went well. -/
def workOn (settings : Settings) (a : Arguments) (known : Table Datum)
    (problem : String) : Session Bool := do
  match result settings a known problem with
  | .error e =>
    if e.isTyped then do
      complain (errorLine e)
      return false
    else throw e
  | .ok text => do
    say ((← Action.ofCause text) ++ "\n")
    return true

/-- Works on problems: whether all went well. -/
def workOnAll (settings : Settings) (a : Arguments) (known : Table Datum) :
    List String → Session Bool
  | [] => return true
  | problem :: rest => do
    let well ← workOn settings a known problem
    let others ← workOnAll settings a known rest
    return well && others

/-- What stands before the input. -/
def prompt : String := ">>> "

/-- Works on a line of the input: whether there is another one to come. -/
def runLine (settings : Settings) (a : Arguments) (known : Table Datum)
    (line : String) : Session Bool :=
  if line.toList.all Text.isBlank then return false
  else do
    let _ ← workOn settings a known line
    return true

/-- Works on lines up to the first blank one. -/
def runLines (settings : Settings) (a : Arguments) (known : Table Datum) :
    List String → Session Unit
  | [] => say prompt
  | line :: rest => do
    say prompt
    if ← runLine settings a known line then runLines settings a known rest

/-- The lines of an input; a line break at the end starts no further line. -/
def linesOf (input : String) : List String :=
  let lines := input.splitOn "\n"
  if lines.getLast? = some "" then lines.dropLast else lines

/-- The variables that the command line binds, each to an expression. -/
def knownFrom (a : Arguments) : Table Datum :=
  .ofPairs (a.assignments.map fun (name, value) => (name, .text value))

/-- How a session ends. -/
inductive Ending where
  /-- The command line cannot be understood, or it asks for help. -/
  | refused (why : Refusal)
  /-- An accident. -/
  | failed (e : Error)
  /-- All problems have been worked on. -/
  | finished (code : Nat) (transcript : Transcript)

/-- The settings say whether to debug unless the command line does; they have to be there then. -/
def lookUpDebug (settings : Settings) (a : Arguments) : Session Unit := do
  if !a.debug then
    let _ ← Action.ofCause (settings.value "debug")

/-- A session for arguments that have been read. -/
def session (settings : Settings) (a : Arguments) (input : String) : Session Nat := do
  lookUpDebug settings a
  let known := knownFrom a
  if a.problems.isEmpty then
    runLines settings a known (linesOf input)
    return 0
  else
    let well ← workOnAll settings a known a.problems
    return if well then 0 else 1

/-- A session for a command line and an input. -/
def run (settings : Settings) (argv : List String) (input : String) : Ending :=
  match Arguments.read argv with
  | .error why => .refused why
  | .ok a =>
    match (session settings a input).runFrom {} with
    | (.ok code, t) => .finished code t
    | (.error e, _) => .failed e

end Reckoner.Console
