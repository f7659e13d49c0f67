import Reckoner.Console.Basic
import Reckoner.Installation
import Reckoner.Settings.Store

/-!
# The program

The settings are read from a file in the current folder. Everything else is decided by the
console; here it is only read and written.
-/

namespace Reckoner.Main

/-- The text of a file that can be read. -/
def readText? (path : String) : IO (Option String) := do
  try
    return some (← IO.FS.readFile path)
  catch _ => return none

/-- The parts of the installation that are there. -/
def presentParts : IO (List String) := do
  let paths := Installation.required.map Installation.Part.path
  paths.filterM fun path => return (← readText? path).isSome

/-- Writes what a session has written. -/
def flush (t : Console.Transcript) : IO Unit := do
  IO.print t.out
  (← IO.getStdout).flush
  IO.eprint t.err

/-- Runs a part of a session and writes what it has written; nothing after an accident. -/
def perform {β : Type} (part : Console.Session β) : IO (Option β) := do
  match part.runFrom {} with
  | (.ok result, t) =>
    flush t
    return some result
  | (.error e, t) =>
    flush t
    IO.eprintln e.text
    return none

/-- Asks for lines and works on each of them; the exit code. -/
partial def converse (settings : Settings) (a : Console.Arguments) : IO UInt32 := do
  flush { out := Console.prompt }
  let line ← (← IO.getStdin).getLine
  if line.isEmpty then return 0
  let line := (line.dropEndWhile (· == '\n')).toString
  let part := Console.runLine settings a (Console.knownFrom a) line
  match ← perform part with
  | some true => converse settings a
  | some false => return 0
  | none => return 1

/-- Runs the console on a command line; the exit code. -/
def runConsole (settings : Settings) (argv : List String) : IO UInt32 := do
  match Console.Arguments.read argv with
  | .error .help =>
    IO.println Console.Arguments.usage
    return 0
  | .error .usage =>
    IO.eprintln Console.Arguments.usage
    return 2
  | .ok a =>
    if a.problems.isEmpty then
      match ← perform (Console.lookUpDebug settings a) with
      | some _ => converse settings a
      | none => return 1
    else return ((← perform (Console.session settings a "")).getD 1).toUInt32

end Reckoner.Main

open Reckoner in
/-- The command line. -/
def main (argv : List String) : IO UInt32 := do
  match Installation.complaint? (← Main.presentParts) with
  | some text =>
    IO.print text
    return 1
  | none =>
    let settings := (Settings.Store.mk (← Main.readText? "config.json") true).load
    Main.runConsole settings argv
