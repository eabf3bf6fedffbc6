/-
  Magik.SourceText — a source, and excerpts of it that show a diagnostic.

  The line that a diagnostic is about is shown behind a margin of six blanks, a tab as four
  blanks. The carets start under the column where the span starts; there is at least one. If
  the span ends on a later line, they run to the end of the line as shown.
-/

import Magik.Diagnostic
import Magik.Text.Basic

namespace Magik

structure SourceText where
  path : String
  contents : String
  deriving Repr

/-- The line with a number counted from one. -/
def SourceText.line? (source : SourceText) : Nat → Option String
  | 0 => none
  | n + 1 => (Text.lines source.contents)[n]?

namespace Report

def margin : String := "      "

/-- How wide a character is shown. -/
def shownWidth (c : Char) : Nat := if c = '\t' then 4 else 1

/-- The line as shown: a tab is four blanks. -/
def shown (line : List Char) : List Char :=
  line.flatMap fun c => if c = '\t' then List.replicate 4 ' ' else [c]

/-- Blanks as wide as what is shown before a column. -/
def indentTo (column : Nat) (line : List Char) : List Char :=
  (line.take (column - 1)).flatMap fun c => List.replicate (shownWidth c) ' '

/-- How many carets mark a span on the line where it starts. -/
def caretCount (span : Span) (line : List Char) : Nat :=
  max 1 (if span.endLine = span.line then span.endColumn - span.column + 1
    else (shown line).length - (span.column - 1))

/-- The carets, as far right as the part they mark. -/
def caretLine (span : Span) (line : List Char) : List Char :=
  indentTo span.column line ++ List.replicate (caretCount span line) '^'

def marker : Level → String
  | .error => "  -"
  | .warning => "  ~"

/-- The line a span starts on, with its carets. -/
def excerpt (source : SourceText) (span : Span) : List String :=
  match source.line? span.line with
  | none => []
  | some line => [margin ++ String.ofList (shown line.toList), margin ++ String.ofList (caretLine span line.toList)]

/-- The lines that show a diagnostic. -/
def diagnosticLines (source : SourceText) (d : Diagnostic) : List String :=
  s!"{marker d.level} {d.level.text}: {d.message}" ::
    match d.span with
    | none => []
    | some span => s!"     --> {source.path}:{span.line}:{span.column}" :: excerpt source span

end Report

end Magik
