/-
  Magik.Definitions.Load — definitions from text, one instruction per line.

  Blank lines and lines that start with `//` are skipped. Loading stops at the first line
  that is no instruction; what the lines before it said stays.
-/

import Magik.Definitions.Basic
import Magik.Definitions.Instruction

namespace Magik.Definitions

/-- Types of instructions without a package are those of the system package. -/
def typeName (text : String) : TypeName := .parse text (some systemPackage)

def typeSet (text : String) : TypeSet := .parse text (some systemPackage)

/-- Results that are not given are not known. -/
def results : Option String → Results
  | some text => .parse text (some systemPackage)
  | none => .unknown

def apply (d : Definitions) : Instruction → Definitions
  | .exemplar name parents => d.addExemplar (typeName name) (if parents = [] then [.object] else parents.map typeName)
  | .method type name parameters result loopResult =>
    d.addMethod ⟨typeName type, name, parameters, results result, results loopResult⟩
  | .global name type => d.addGlobal (typeName name) (typeSet type)
  | .condition name parent => d.addCondition name parent
  | .operator operator left right result => d.addOperator operator (typeName left) (typeName right) (typeSet result)

structure LoadError where
  /-- The line, counted from one. -/
  line : Nat
  text : String
  failure : Instruction.Failure

def LoadError.message (e : LoadError) : String := e.failure.message

/-- What is wrong, without the place. A line that is no JSON document is called just that,
    whatever else is wrong with it. -/
def LoadError.summary (e : LoadError) : String :=
  match Json.read e.text with
  | .ok _ => e.failure.cause.message
  | .error _ => "invalid JSON"

def isComment (line : List Char) : Bool := line.take 2 = ['/', '/']

/-- The lines from a number on; how many instructions they hold, or what went wrong. -/
def loadLines (d : Definitions) (count line : Nat) : List String → Definitions × Except LoadError Nat
  | [] => (d, .ok count)
  | text :: rest =>
    let trimmed := Text.trim text.toList
    if trimmed = [] ∨ isComment trimmed then loadLines d count (line + 1) rest
    else
      let text := String.ofList trimmed
      match Instruction.decode text with
      | .ok instruction => loadLines (d.apply instruction) (count + 1) (line + 1) rest
      | .error failure => (d, .error ⟨line, text, failure⟩)

/-- Adds the definitions of a text; how many instructions it holds, or what went wrong. -/
def load (d : Definitions) (text : String) : Definitions × Except LoadError Nat :=
  loadLines d 0 1 (Text.lines text)

end Magik.Definitions
