/-
  Magik.Diagnostic — errors and warnings about a source, in the order they were found.
-/

import Magik.Span

namespace Magik

inductive Level where
  | error
  | warning
  deriving DecidableEq, Repr

def Level.text : Level → String
  | .error => "error"
  | .warning => "warning"

structure Diagnostic where
  level : Level
  message : String
  /-- Where it points; none when the text could not be divided into tokens. -/
  span : Option Span
  deriving DecidableEq, Repr

namespace Diagnostic

def error (message : String) (span : Option Span) : Diagnostic := ⟨.error, message, span⟩

def warning (message : String) (span : Option Span) : Diagnostic := ⟨.warning, message, span⟩

def text (d : Diagnostic) : String :=
  match d.span with
  | some s => s!"{d.level.text}: {d.message} at line {s.line}, column {s.column}"
  | none => s!"{d.level.text}: {d.message}"

/-- One line each. -/
def textOf (ds : List Diagnostic) : String := "\n".intercalate (ds.map text)

def hasErrors (ds : List Diagnostic) : Bool := ds.any fun d => d.level = .error

end Diagnostic

end Magik
