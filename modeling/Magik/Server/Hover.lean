/-
  Magik.Server.Hover — what is shown about the place under the cursor.
-/

import Magik.Analysis
import Magik.Server.Range

namespace Magik.Server

/-- A text set as source code. -/
def fenced (code : String) : String := "```magik\n" ++ code ++ "\n```\n"

/-- What is shown about a name: the types it has at this place. -/
def describeEntry (a : Analysis) (number id : Nat) (e : Entry) : Option String :=
  let types := ((a.findings.results.find? number).map Results.first).or (a.believedTypes? id)
  types.map fun t => fenced (e.name ++ ": " ++ t.text) ++ e.kind.describe

/-- What is shown about any other node. -/
def describeNode (a : Analysis) (n : Node) : Option String :=
  match n.kind with
  | .method header =>
    (a.findings.results.find? n.number).map fun r =>
      fenced ("_method " ++ header.exemplar ++ "." ++ header.name) ++ "returns " ++ r.text
  | .procedure .. => (a.findings.procedureResults.find? n.number).map fun r => fenced "_proc" ++ "returns " ++ r.text
  | kind => (a.findings.results.find? n.number).map fun r => kind.describe ++ ": `" ++ r.text ++ "`"

def describe (a : Analysis) (n : Node) : Option String :=
  match a.scopes.entryOf? n.number with
  | some id => (a.scopes.entryAt? id).bind (describeEntry a n.number id)
  | none => describeNode a n

/-- What is shown at a position, and the span it is about. -/
def hoverAt (a : Analysis) (p : Position) : Option (String × Span) :=
  (a.tree.nodeAt? (p.line + 1) (p.character + 1)).bind fun n => (describe a n).map fun text => (text, n.span)

end Magik.Server
