/-
  Magik.Server.Message — requests as the client sends them: a method and its parameters.

  A structure is an object, or an array of all its fields in their order; fields that
  nobody asks for are passed over, and of a repeated one the last counts. Anything wrong
  in the parameters makes the whole message count for nothing, and a request that expects
  an answer is told what it is.
-/

import Magik.Json.Value
import Magik.Server.Session
import Magik.Uri.Read

namespace Magik.Server

open Magik.Json (Value)

inductive ParameterError where
  | missing (field : String)
  | mistyped (found : Value) (expected : String)
  | refused (found : Value) (expected : String)
  | miscounted (found : Nat) (expected : String)

def ParameterError.message : ParameterError → String
  | .missing field => "missing field " ++ Json.backquoted field
  | .mistyped found expected => "invalid type: " ++ found.describe ++ ", expected " ++ expected
  | .refused found expected => "invalid value: " ++ found.describe ++ ", expected " ++ expected
  | .miscounted found expected => "invalid length " ++ toString found ++ ", expected " ++ expected

namespace Message

/-- A structure with the names of its fields. -/
structure Shape where
  title : String
  fields : List String

/-- The fields of a structure by their names, those that count first. -/
def Shape.read (shape : Shape) : Value → Except ParameterError (List (String × Value))
  | .object members => .ok members.reverse
  | .array items =>
    let count := shape.fields.length
    if items.length = count then .ok (shape.fields.zip items)
    else .error (.miscounted items.length s!"struct {shape.title} with {count} elements")
  | v => .error (.mistyped v ("struct " ++ shape.title))

/-- A field that has to be there. -/
def required (fields : List (String × Value)) (name : String) : Except ParameterError Value :=
  match fields.lookup name with
  | some v => .ok v
  | none => .error (.missing name)

/-- A field that may be left out or null. -/
def optional {α : Type} (decode : Value → Except ParameterError α) (fields : List (String × Value)) (name : String) :
    Except ParameterError (Option α) :=
  match fields.lookup name with
  | none | some .null => .ok none
  | some v => (decode v).map some

def readText : Value → Except ParameterError String
  | .string s => .ok s
  | v => .error (.mistyped v "a string")

/-- An integer from `least` to `most`. -/
def readInteger (title : String) (least most : Int) : Value → Except ParameterError Int
  | .integer n => if least ≤ n ∧ n ≤ most then .ok n else .error (.refused (.integer n) title)
  | v => .error (.mistyped v title)

def readWord (v : Value) : Except ParameterError Nat := (readInteger "u32" 0 (Nat.pow 2 32 - 1 : Nat) v).map Int.toNat

def readVersion : Value → Except ParameterError Int := readInteger "i32" (-(Nat.pow 2 31 : Nat)) (Nat.pow 2 31 - 1 : Nat)

/-- A locator in its written form. -/
def readUri : Value → Except ParameterError String
  | .string s =>
    match Uri.read s with
    | .ok uri => .ok uri.text
    | .error fault => .error (.refused (.string s) fault.message)
  | v => .error (.mistyped v "a string representing an URL")

def readPosition (v : Value) : Except ParameterError Position := do
  let fields ← Shape.read ⟨"Position", ["line", "character"]⟩ v
  return ⟨← readWord (← required fields "line"), ← readWord (← required fields "character")⟩

def readRange (v : Value) : Except ParameterError Range := do
  let fields ← Shape.read ⟨"Range", ["start", "end"]⟩ v
  return ⟨← readPosition (← required fields "start"), ← readPosition (← required fields "end")⟩

def readChange (v : Value) : Except ParameterError Change := do
  let fields ← Shape.read ⟨"TextDocumentContentChangeEvent", ["range", "rangeLength", "text"]⟩ v
  let range ← optional readRange fields "range"
  let _ ← optional readWord fields "rangeLength"
  return ⟨range, ← readText (← required fields "text")⟩

def readChanges : Value → Except ParameterError (List Change)
  | .array items => items.mapM readChange
  | v => .error (.mistyped v "a sequence")

/-- The locator of the document that a message is about. -/
def readTarget (v : Value) : Except ParameterError String := do
  let fields ← Shape.read ⟨"TextDocumentIdentifier", ["uri"]⟩ v
  readUri (← required fields "uri")

def readOpened (params : Value) : Except ParameterError Request := do
  let fields ← Shape.read ⟨"DidOpenTextDocumentParams", ["textDocument"]⟩ params
  let fields ← Shape.read ⟨"TextDocumentItem", ["uri", "languageId", "version", "text"]⟩ (← required fields "textDocument")
  let uri ← readUri (← required fields "uri")
  let _ ← readText (← required fields "languageId")
  let version ← readVersion (← required fields "version")
  return .opened uri version (← readText (← required fields "text"))

def readChanged (params : Value) : Except ParameterError Request := do
  let fields ← Shape.read ⟨"DidChangeTextDocumentParams", ["textDocument", "contentChanges"]⟩ params
  let document ← Shape.read ⟨"VersionedTextDocumentIdentifier", ["uri", "version"]⟩ (← required fields "textDocument")
  let uri ← readUri (← required document "uri")
  let version ← readVersion (← required document "version")
  return .changed uri version (← readChanges (← required fields "contentChanges"))

def readClosed (params : Value) : Except ParameterError Request := do
  let fields ← Shape.read ⟨"DidCloseTextDocumentParams", ["textDocument"]⟩ params
  return .closed (← readTarget (← required fields "textDocument"))

def readHover (params : Value) : Except ParameterError Request := do
  let fields ← Shape.read ⟨"HoverParams", ["textDocument", "position"]⟩ params
  let uri ← readTarget (← required fields "textDocument")
  return .hover uri (← readPosition (← required fields "position"))

end Message

/-- The methods that the server knows. -/
inductive Method where
  | connect
  | connected
  | opened
  | changed
  | closed
  | hover
  | shutdown
  deriving DecidableEq, Repr

namespace Method

def ofName? : String → Option Method
  | "initialize" => some .connect
  | "initialized" => some .connected
  | "textDocument/didOpen" => some .opened
  | "textDocument/didChange" => some .changed
  | "textDocument/didClose" => some .closed
  | "textDocument/hover" => some .hover
  | "shutdown" => some .shutdown
  | _ => none

/-- Whether the client waits for an answer. -/
def isAnswered : Method → Bool
  | .connect | .hover | .shutdown => true
  | .connected | .opened | .changed | .closed => false

/-- The request that a method with parameters is. -/
def request (params : Value) : Method → Except ParameterError Request
  | .connect => .ok .connect
  | .connected => .ok .connected
  | .opened => Message.readOpened params
  | .changed => Message.readChanged params
  | .closed => Message.readClosed params
  | .hover => Message.readHover params
  | .shutdown => .ok .shutdown

end Method

/-- The answer to a message. After the end its parameters are not looked at. -/
def Session.receive (s : Session) (method : Method) (params : Value) : Reply × List Notice × Session :=
  if s.ended then s.refuse method.isAnswered .ended
  else
    match method.request params with
    | .ok r => s.handle r
    | .error e => s.refuse method.isAnswered (.badParameters e.message)

end Magik.Server
