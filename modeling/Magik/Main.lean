/-
  Magik.Main — the commands on the files of the machine.
-/

import Magik.CommandLine.Run

namespace Magik.CommandLine

def usage : String :=
  "usage: magik [--types FILE]... [--package NAME] [--no-defaults] [--no-unused] COMMAND\n" ++
  "  types FILE       types of every definition and of every name that is read\n" ++
  "  scopes FILE      the scopes with their entries\n" ++
  "  check PATH...    diagnostics; directories are searched for .magik files"

def FileError.ofSystem : IO.Error → FileError
  | .noFileOrDirectory .. => .missing
  | .inappropriateType _ code _ => if code = 20 || code = -20 then .notDirectory else .isDirectory
  | e => .other (toString e)

def attempt {α : Type} (action : IO α) : IO (Except FileError α) := do
  match ← action.toBaseIO with
  | .ok value => return .ok value
  | .error e => return .error (.ofSystem e)

def kindOfType : IO.FS.FileType → FileKind
  | .dir => .directory
  | .file => .file
  | _ => .special

/-- The files of the machine, from the current directory. -/
def machineFiles : Files IO where
  kind path := attempt do return kindOfType (← ((← IO.currentDir) / path).metadata).type
  names path := attempt do return (← ((← IO.currentDir) / path).readDir).toList.map (·.fileName)
  read path := attempt (IO.FS.readBinFile path)

/-- A failure as it is shown, its causes indented under it. -/
def failureText : List String → String
  | [] => ""
  | [outer] => "Error: " ++ outer
  | outer :: causes =>
    "Error: " ++ outer ++ "\n\nCaused by:" ++ String.join (causes.flatMap Text.lines |>.map ("\n    " ++ ·))

end Magik.CommandLine

open Magik.CommandLine in
def main (arguments : List String) : IO UInt32 := do
  match Invocation.ofArguments? arguments with
  | none =>
    IO.eprintln usage
    return 2
  | some invocation =>
    let outcome ← run machineFiles invocation
    IO.print outcome.output.answers
    IO.eprint outcome.output.complaints
    if outcome.succeeded then return 0
    IO.eprintln (failureText outcome.causes)
    return 1
