import Reckoner.Settings.Basic

/-!
# Options of solving

Options come from the caller in two layers, of which the second overrides the first. What neither
gives is taken from the settings.
-/

namespace Reckoner

/-- The options that a solution is sought with. -/
structure Options where
  /-- The unknown, or several of them. -/
  solveFor : Datum
  /-- First estimates: one for every unknown, one each in order, or one each by name. -/
  guess : Datum
  tolerance : Float
  maxIterations : Int
  stepTolerance : Float
  /-- How often residual and derivative may be evaluated. -/
  maxEvaluations : Datum
  /-- The derivative of the residual. -/
  derivative : Datum

namespace Options

/-- The names of the options. -/
def fieldNames : List String :=
  ["solve_for", "initial_guess", "tolerance", "max_iterations", "xtol", "max_nfev", "fprime"]

/-- The names that are no options, in alphabetical order. -/
def unknownNames (given : Table Datum) : List String :=
  (given.names.filter (!fieldNames.contains ·)).mergeSort (· ≤ ·)

/-- A value that is more than nothing. -/
private def isGiven : Datum → Bool
  | .null => false
  | _ => true

/-- The first of two values unless it is nothing. -/
private def orElse (given default : Datum) : Datum := if isGiven given then given else default

/-- The two layers in one. -/
def merge (given overrides : Table Datum) : Except Cause (Table Datum) :=
  match unknownNames given with
  | name :: names => .error (.unknownOptions (name :: names))
  | [] =>
    let overrides := overrides.filter (isGiven ·.2)
    match (Table.names overrides).find? (!fieldNames.contains ·) with
    | some name => .error (.unexpectedOption name)
    | none => .ok (given.insertAll overrides)

/-- The options that two layers and the settings give. -/
def build (settings : Settings) (given overrides : Table Datum) : Except Cause Options := do
  let given ← merge given overrides
  let option (name : String) : Datum := (given.find? name).getD .null
  let tolerance ← (orElse (option "tolerance") (← settings.value "tolerance")).toFloat
  let guess ←
    if isGiven (option "initial_guess") then pure (option "initial_guess")
    else Datum.number <$> Scalar.real <$> (← settings.value "initial_guess").toFloat
  let maxIterations ←
    (orElse (option "max_iterations") (← settings.value "max_iterations")).toWhole
  let stepTolerance ←
    if isGiven (option "xtol") then (option "xtol").toFloat else pure tolerance
  return {
    solveFor := option "solve_for"
    guess := guess
    tolerance := tolerance
    maxIterations := maxIterations
    stepTolerance := stepTolerance
    maxEvaluations := option "max_nfev"
    derivative := option "fprime" }

/-- One first estimate for each unknown from a list of them. -/
private def inOrder (names : List String) (items : List (Except Cause Float)) :
    Except Cause (List Datum) :=
  if items.length = names.length then
    items.mapM fun item => return .number (.real (← item))
  else .error (.guessCount names.length items.length)

/-- The first estimate of each unknown. -/
def startValues (o : Options) (settings : Settings) (names : List String) :
    Except Cause (List Datum) :=
  match o.guess with
  | .map entries => do
    let standard ← (← settings.value "initial_guess").toFloat
    names.mapM fun name =>
      match Table.find? (.ofPairs entries) name with
      | some d => Datum.number <$> Scalar.real <$> d.toFloat
      | none => return .number (.real standard)
  | .list items => inOrder names (items.map Datum.toFloat)
  | .tokens ts => inOrder names (ts.map fun _ => .error (.notConvertible false "Token"))
  | d => .ok (names.map fun _ => d)

/-- The first estimate of a single unknown, where it is a number. -/
def startValue (o : Options) (settings : Settings) (name : String) : Except Cause Scalar := do
  match ← o.startValues settings [name] with
  | d :: _ =>
    match d.toScalar? with
    | some x => return x
    | none => throw (.withoutMagnitude d.kind)
  | [] => throw (.guessCount 1 0)

/-- The expression that a single unknown is bound to in place of a first estimate, if it is. -/
def opening? (o : Options) : Option Datum :=
  match o.guess with
  | .text _ | .tree _ | .equation _ => some o.guess
  | _ => none

/-- What an estimate is before any step, and afterwards: a truth value counts as a number, but is
none as long as no step has been made. -/
def estimateAt (o : Options) (steps : Nat) (x : Scalar) : Estimate :=
  match steps, o.guess with
  | 0, .bool b => .truth b
  | _, _ => .number x

end Options

end Reckoner
