/-
  Magik.CommandLine.Arguments — what a command line asks for.

  Options stand before or after the name of the command. An option given after it takes
  the place of the same option given before it; within one of the two places only
  `--types` may be repeated. A lone `--` ends the options. A command line that asks for
  nothing sensible has no reading at all.
-/

import Magik.Text.Basic

namespace Magik.CommandLine

/-- An option with a value. -/
inductive Setting where
  | types
  | package
  deriving DecidableEq, Repr

/-- An option without one. -/
inductive Switch where
  | noDefaults
  | noUnused
  deriving DecidableEq, Repr

/-- A part of the command line. -/
inductive Word where
  | setting (setting : Setting) (value : String)
  | switch (switch : Switch)
  | operand (text : String)
  /-- From here on everything is an operand. -/
  | divider
  deriving DecidableEq, Repr

def Word.isOption : Word → Bool
  | .setting .. | .switch _ => true
  | _ => false

def Word.operand? : Word → Option String
  | .operand text => some text
  | _ => none

def setting? : String → Option Setting
  | "--types" => some .types
  | "--package" => some .package
  | _ => none

def switch? : String → Option Switch
  | "--no-defaults" => some .noDefaults
  | "--no-unused" => some .noUnused
  | _ => none

/-- Whether an argument is meant as an option. -/
def looksLikeOption (argument : String) : Bool :=
  argument.toList.head? = some '-' && argument ≠ "-"

/-- Reads arguments into words; none if an option is not known or its value is missing
or not wanted. -/
def words : List String → Option (List Word)
  | [] => some []
  | argument :: rest =>
    if argument = "--" then some (.divider :: rest.map .operand)
    else if !looksLikeOption argument then (words rest).map (.operand argument :: ·)
    else
      match Text.splitFirst '=' argument.toList with
      | some (name, value) => do
        let setting ← setting? (String.ofList name)
        return .setting setting (String.ofList value) :: (← words rest)
      | none =>
        match switch? argument with
        | some switch => (words rest).map (.switch switch :: ·)
        | none =>
          match setting? argument, rest with
          | some setting, value :: rest =>
            if looksLikeOption value then none else (words rest).map (.setting setting value :: ·)
          | _, _ => none

/-- The options of one place. -/
structure Options where
  types : List String
  package : Option String
  noDefaults : Bool
  noUnused : Bool
  deriving DecidableEq, Repr

namespace Options

def empty : Options := ⟨[], none, false, false⟩

/-- One more option; none if it was given before or names no file. -/
def add (o : Options) : Word → Option Options
  | .setting .types file => if file = "" then none else some { o with types := o.types ++ [file] }
  | .setting .package name => if o.package.isSome then none else some { o with package := some name }
  | .switch .noDefaults => if o.noDefaults then none else some { o with noDefaults := true }
  | .switch .noUnused => if o.noUnused then none else some { o with noUnused := true }
  | _ => some o

def ofWords (ws : List Word) : Option Options := ws.foldlM add empty

/-- The options of the inner place over those of the outer. -/
def overriding (inner outer : Options) : Options where
  types := if inner.types.isEmpty then outer.types else inner.types
  package := inner.package.or outer.package
  noDefaults := inner.noDefaults || outer.noDefaults
  noUnused := inner.noUnused || outer.noUnused

end Options

inductive Command where
  /-- List the types of a file. -/
  | types (input : String)
  /-- List the scopes of a file. -/
  | scopes (input : String)
  /-- Report what is wrong in files and in directories of files. -/
  | check (inputs : List String)
  deriving DecidableEq, Repr

/-- The command of a name with its operands, none of which may be empty. -/
def Command.ofOperands? (name : String) (operands : List String) : Option Command :=
  if operands.contains "" then none
  else
    match name, operands with
    | "types", [input] => some (.types input)
    | "scopes", [input] => some (.scopes input)
    | "check", input :: inputs => some (.check (input :: inputs))
    | _, _ => none

structure Invocation where
  options : Options
  command : Command
  deriving DecidableEq, Repr

namespace Invocation

def ofWords? (ws : List Word) : Option Invocation :=
  match ws.dropWhile Word.isOption with
  | .operand name :: rest => do
    let outer ← Options.ofWords (ws.takeWhile Word.isOption)
    let inner ← Options.ofWords rest
    let command ← Command.ofOperands? name (rest.filterMap Word.operand?)
    return ⟨inner.overriding outer, command⟩
  | _ => none

/-- What the arguments ask for. -/
def ofArguments? (arguments : List String) : Option Invocation := (words arguments).bind ofWords?

end Invocation

end Magik.CommandLine
