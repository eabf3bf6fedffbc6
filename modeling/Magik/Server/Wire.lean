/-
  Magik.Server.Wire — replies and notices as the documents that are sent.
-/

import Magik.Json.Value
import Magik.Server.Session

namespace Magik.Server

open Magik.Json (Value)

def number (n : Nat) : Value := .integer n

def Position.toJson (p : Position) : Value := .object [("line", number p.line), ("character", number p.character)]

def Range.toJson (r : Range) : Value := .object [("start", r.start.toJson), ("end", r.stop.toJson)]

/-- The number of a severity. -/
def severity : Level → Nat
  | .error => 1
  | .warning => 2

def Mark.toJson (m : Mark) : Value :=
  .object [("range", m.range.toJson), ("severity", number (severity m.level)), ("source", .string "magik-analysis"),
    ("message", .string m.message)]

def Hover.toJson (h : Hover) : Value :=
  .object [("contents", .object [("kind", .string "markdown"), ("value", .string h.text)]), ("range", h.range.toJson)]

def serverName : String := "magik-lsp"

def serverVersion : String := "0.1.0"

/-- Documents are synchronised as a whole, and hovers are answered. -/
def serverCapabilities : Value :=
  .object [("capabilities", .object [("textDocumentSync", number 1), ("hoverProvider", .bool true)]),
    ("serverInfo", .object [("name", .string serverName), ("version", .string serverVersion)])]

def Refusal.toJson : Refusal → Value
  | .ended => .object [("code", .integer (-32600)), ("message", .string "Invalid request")]
  | .badParameters message => .object [("code", .integer (-32602)), ("message", .string message)]

/-- The result or error that is sent; none for a notification. -/
def Reply.toJson : Reply → Option Value
  | .silence => none
  | .capabilities => some (.object [("result", serverCapabilities)])
  | .hover found => some (.object [("result", (found.map Hover.toJson).getD .null)])
  | .done => some (.object [("result", .null)])
  | .refused why => some (.object [("error", why.toJson)])

def LogLevel.toJson : LogLevel → Value
  | .error => number 1
  | .info => number 3

def Notice.method : Notice → String
  | .publish .. => "textDocument/publishDiagnostics"
  | .log .. => "window/logMessage"

def Notice.params : Notice → Value
  | .publish uri marks version =>
    .object ([("uri", .string uri), ("diagnostics", .array (marks.map Mark.toJson))] ++
      (version.map fun v => ("version", Value.integer v)).toList)
  | .log level text => .object [("type", level.toJson), ("message", .string text)]

end Magik.Server
