import Reckoner.Double.Reading

/-!
# Arguments of the command line

Options start with two dashes, may be shortened to a unique beginning, and take a value from the
next argument or from behind an equals sign. The problems must stand together: all that is neither
an option nor its value. Behind two dashes alone nothing is an option. An argument that starts with
a dash is still a problem if it is a negative number or holds a blank.

Help is given as soon as it is asked for. What has no meaning is therefore only noted, and refused
when all arguments have been read; an option that cannot be taken over is refused on the spot, and
one that is short for several even before anything is read.
-/

namespace Reckoner.Console

/-- The options. -/
inductive Flag where
  | help | latex | steps | digits | var | debug
  deriving DecidableEq, Repr

namespace Flag

/-- The spellings of the options. -/
def spellings : List (String × Flag) := [
  ("-h", help), ("--help", help), ("--latex", latex), ("--steps", steps), ("--digits", digits),
  ("--var", var), ("--debug", debug)]

/-- The option takes a value. -/
def takesValue : Flag → Bool
  | digits | var => true
  | _ => false

end Flag

/-- What the command line asks for. -/
structure Arguments where
  problems : List String := []
  latex : Bool := false
  steps : Bool := false
  digits : Option Int := none
  /-- Variables with their values. -/
  assignments : List (String × String) := []
  debug : Bool := false

/-- An argument by its form. -/
inductive Argument where
  /-- No option. -/
  | free (text : String)
  /-- The end of the options. -/
  | separator
  /-- An option, and the value behind its equals sign. -/
  | flag (f : Flag) (value : Option String)
  /-- What looks like an option but is none. -/
  | unknown

/-- The command line cannot be understood, or it asks for help. -/
inductive Refusal where
  | usage
  | help
  deriving DecidableEq, Repr

namespace Arguments

/-- The form of the command line. -/
def usage : String :=
  "usage: reckoner [-h] [--latex] [--steps] [--digits DIGITS] [--var NAME=VALUE] [--debug] " ++
    "[problems ...]"

/-- The part before the first equals sign, and the part behind it. -/
def splitValue (cs : List Char) : List Char × Option (List Char) :=
  match cs.dropWhile (· != '=') with
  | [] => (cs, none)
  | _ :: value => (cs.takeWhile (· != '='), some value)

/-- One digit or more of any script, up to the end or a last line break. -/
private def endsInDigits (cs : List Char) : Bool :=
  let rest := cs.dropWhile fun c => (Text.digitValue? c).isSome
  rest.length < cs.length && (rest = [] || rest = ['\n'])

/-- A minus sign and a number without an exponent. -/
def isNegativeNumber : List Char → Bool
  | '-' :: cs =>
    endsInDigits cs ||
      match cs.dropWhile fun c => (Text.digitValue? c).isSome with
      | '.' :: fraction => endsInDigits fraction
      | _ => false
  | _ => false

/-- A text as a list of characters. -/
private def optional (value : Option (List Char)) : Option String := value.map String.ofList

/-- Behind one letter that asks for help, others may follow. The first one that is no option ends
them, but neither a dash nor an equals sign may stand among them. -/
def asksForHelp : List Char → Bool
  | [] => true
  | 'h' :: cs => asksForHelp cs
  | c :: _ => c != '-' && c != '='

/-- The options whose spelling starts with a text, which the argument may be short for. -/
def shortFor (cs : List Char) : List (Flag × Option String) :=
  match cs with
  | '-' :: '-' :: _ =>
    let (front, value) := splitValue cs
    (Flag.spellings.filter fun (s, _) => front.isPrefixOf s.toList).map fun (_, f) =>
      (f, optional value)
  | '-' :: 'h' :: more => [(.help, if asksForHelp more then none else some (String.ofList more))]
  | _ => []

/-- The form of an argument that is not two dashes. -/
def classify (text : String) : Except Refusal Argument :=
  let cs := text.toList
  if cs.head? != some '-' || cs.length = 1 then .ok (.free text)
  else match Flag.spellings.lookup text with
    | some f => .ok (.flag f none)
    | none =>
      let (front, value) := splitValue cs
      match value.bind fun _ => Flag.spellings.lookup (String.ofList front) with
      | some f => .ok (.flag f (optional value))
      | none =>
        match shortFor cs with
        | [(f, value)] => .ok (.flag f value)
        | _ :: _ => .error .usage
        | [] => .ok (if isNegativeNumber cs || cs.contains ' ' then .free text else .unknown)

/-- The forms of all arguments. -/
def classifyAll : List String → Except Refusal (List Argument)
  | [] => .ok []
  | text :: rest =>
    if text = "--" then .ok (.separator :: rest.map .free)
    else do
      let argument ← classify text
      let others ← classifyAll rest
      return argument :: others

/-- A variable with its value. -/
def binding? (text : String) : Option (String × String) :=
  match splitValue text.toList with
  | (_, none) => none
  | (name, some value) =>
    let name := Text.trim name
    let value := Text.trim value
    if name.isEmpty || value.isEmpty then none
    else some (String.ofList name, String.ofList value)

/-- Takes over an option with a value. -/
def withValue (a : Arguments) (f : Flag) (value : String) : Except Refusal Arguments :=
  match f with
  | .digits =>
    match Double.readWhole value.toList with
    | .ok n => .ok { a with digits := some n }
    | .error _ => .error .usage
  | .var =>
    match binding? value with
    | some pair => .ok { a with assignments := a.assignments ++ [pair] }
    | none => .error .usage
  | _ => .error .usage

/-- Takes over an option without a value. -/
def withFlag (a : Arguments) : Flag → Except Refusal Arguments
  | .latex => .ok { a with latex := true }
  | .steps => .ok { a with steps := true }
  | .debug => .ok { a with debug := true }
  | .help => .error .help
  | _ => .error .usage

/-- The problems in a run of arguments, of which the first two dashes alone are none. -/
def problemsOf (run : List String) : List String := run.erase "--"

end Arguments

/-- How far a command line has been read. -/
structure Reading where
  arguments : Arguments := {}
  /-- The run of problems that is being collected. -/
  waiting : List String := []
  /-- There has been a run of problems. -/
  closed : Bool := false
  /-- There has been something that has no meaning. -/
  stray : Bool := false

namespace Reading

/-- The run of problems ends. A second one has no meaning. -/
def close (r : Reading) : Reading :=
  if r.waiting.isEmpty then r
  else if r.closed then { r with waiting := [], stray := true }
  else
    { r with
      arguments := { r.arguments with problems := Arguments.problemsOf r.waiting }
      waiting := []
      closed := true }

/-- All arguments have been read. -/
def finish (r : Reading) : Except Refusal Arguments :=
  if r.close.stray then .error .usage else .ok r.close.arguments

/-- Takes over an option behind the problems that precede it. -/
def withOption (r : Reading) (take : Arguments → Except Refusal Arguments) :
    Except Refusal Reading :=
  (take r.close.arguments).map fun a => { r.close with arguments := a }

/-- Reads the rest of the arguments. -/
def readAll (r : Reading) : List Argument → Except Refusal Arguments
  | [] => r.finish
  | .free text :: rest => readAll { r with waiting := r.waiting ++ [text] } rest
  | .separator :: rest => readAll { r with waiting := r.waiting ++ ["--"] } rest
  | .unknown :: rest => readAll { r.close with stray := true } rest
  | .flag f (some value) :: rest =>
    match r.withOption (·.withValue f value) with
    | .ok r => readAll r rest
    | .error refusal => .error refusal
  | .flag f none :: rest =>
    if f.takesValue then
      match rest with
      | .free value :: rest =>
        match r.withOption (·.withValue f value) with
        | .ok r => readAll r rest
        | .error refusal => .error refusal
      | _ => .error .usage
    else match r.withOption (·.withFlag f) with
      | .ok r => readAll r rest
      | .error refusal => .error refusal

end Reading

namespace Arguments

/-- The arguments of a command line. -/
def read (argv : List String) : Except Refusal Arguments := do
  ({} : Reading).readAll (← classifyAll argv)

end Arguments

end Reckoner.Console
