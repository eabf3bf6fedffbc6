/-
  Magik.Definitions.Instruction — definitions as JSON documents.

  A document is an object with the name of the instruction under `instruction`, or an
  array that starts with it and goes on with the fields in their order. The name is checked
  where it stands; the fields wait until the document has been read, so what is wrong with
  them has no place in the text. In an object they are checked in the order they stand in,
  fields that nobody asks for aside, and what is missing is noticed last.
-/

import Magik.Json.Read
import Magik.Json.Value
import Magik.Table

namespace Magik

inductive Instruction where
  | exemplar (name : String) (parents : List String)
  | method (type name : String) (parameters : List String) (result loopResult : Option String)
  | global (name type : String)
  | condition (name : String) (parent : Option String)
  | operator (operator left right result : String)
  deriving DecidableEq, Repr

namespace Instruction

/-! ## What can be wrong -/

inductive Expected where
  | text
  | texts
  | tag
  | document
  deriving DecidableEq, Repr

def Expected.describe : Expected → String
  | .text => "a string"
  | .texts => "a sequence"
  | .tag => "variant identifier"
  | .document => "internally tagged enum Instruction"

inductive DecodeError where
  | malformed (fault : Json.Fault)
  | missing (field : String)
  | duplicate (field : String)
  | unknown (tag : String)
  | mistyped (found : Json.Value) (expected : Expected)
  | tooShort (length : Nat) (title : String) (fields : Nat)
  | tooLong (length fields : Nat)

def tags : List String := ["exemplar", "method", "global", "condition", "binary_operator"]

def DecodeError.message : DecodeError → String
  | .malformed fault => fault.message
  | .missing field => "missing field " ++ Json.backquoted field
  | .duplicate field => "duplicate field " ++ Json.backquoted field
  | .unknown tag =>
    "unknown variant " ++ Json.backquoted tag ++ ", expected one of " ++ ", ".intercalate (tags.map Json.backquoted)
  | .mistyped found expected => "invalid type: " ++ found.describe ++ ", expected " ++ expected.describe
  | .tooShort length title fields =>
    "invalid length " ++ toString length ++ ", expected struct variant Instruction::" ++ title ++ " with " ++
      toString fields ++ " elements"
  | .tooLong length fields =>
    "invalid length " ++ toString length ++ ", expected " ++ toString fields ++ " elements in sequence"

/-! ## Fields -/

inductive Shape where
  | text
  /-- A text or null. -/
  | optionalText
  | texts
  deriving DecidableEq, Repr

/-- What a field holds. -/
inductive Held where
  | text (s : String)
  | nothing
  | texts (ss : List String)
  deriving DecidableEq, Repr

def readText : Json.Value → Except DecodeError String
  | .string s => .ok s
  | v => .error (.mistyped v .text)

def Shape.read : Shape → Json.Value → Except DecodeError Held
  | .text, v => (readText v).map .text
  | .optionalText, .null => .ok .nothing
  | .optionalText, v => (readText v).map .text
  | .texts, .array vs => (vs.mapM readText).map .texts
  | .texts, v => .error (.mistyped v .texts)

/-- What a field holds when it is left out; none if it must not be. -/
def Shape.absent : Shape → Option Held
  | .text => none
  | .optionalText => some .nothing
  | .texts => some (.texts [])

/-- The fields that have been read. -/
abbrev Fields := Table String Held

def text (fields : Fields) (name : String) : String :=
  match fields.find? name with
  | some (.text s) => s
  | _ => ""

def text? (fields : Fields) (name : String) : Option String :=
  match fields.find? name with
  | some (.text s) => some s
  | _ => none

def texts (fields : Fields) (name : String) : List String :=
  match fields.find? name with
  | some (.texts ss) => ss
  | _ => []

/-! ## Forms -/

/-- How an instruction is written. -/
structure Form where
  title : String
  fields : List (String × Shape)
  make : Fields → Instruction

def form? : String → Option Form
  | "exemplar" =>
    some ⟨"Exemplar", [("name", .text), ("parents", .texts)], fun f => .exemplar (text f "name") (texts f "parents")⟩
  | "method" =>
    some ⟨"Method",
      [("type", .text), ("name", .text), ("parameters", .texts), ("result", .optionalText), ("loop_result", .optionalText)],
      fun f => .method (text f "type") (text f "name") (texts f "parameters") (text? f "result") (text? f "loop_result")⟩
  | "global" =>
    some ⟨"Global", [("name", .text), ("type", .text)], fun f => .global (text f "name") (text f "type")⟩
  | "condition" =>
    some ⟨"Condition", [("name", .text), ("parent", .optionalText)], fun f => .condition (text f "name") (text? f "parent")⟩
  | "binary_operator" =>
    some ⟨"BinaryOperator", [("operator", .text), ("lhs_type", .text), ("rhs_type", .text), ("result_type", .text)],
      fun f => .operator (text f "operator") (text f "lhs_type") (text f "rhs_type") (text f "result_type")⟩
  | _ => none

abbrev Outcome (α : Type) := Except (Json.Stop DecodeError) α

/-- What is wrong with the text itself. -/
def ofJson {α : Type} (reading : Json.Outcome α) : Outcome α :=
  reading.mapError (Json.Stop.map .malformed)

/-- The form that comes next by its name. A bracket in its place is not passed. -/
def readTag (cs : List Char) : Outcome (Form × List Char) :=
  match Json.skipSpace cs with
  | '[' :: rest => .error (.before (.mistyped (.array []) .tag) ('[' :: rest))
  | '\x7b' :: rest => .error (.before (.mistyped (.object []) .tag) ('\x7b' :: rest))
  | scalar => do
    match ← ofJson (Json.readScalar scalar) with
    | (.string s, rest) =>
      match form? s with
      | some form => return (form, rest)
      | none => .error (.before (.unknown s) rest)
    | (v, rest) => .error (.before (.mistyped v .tag) rest)

/-! ## Objects -/

def tagField : String := "instruction"

/-- Where a second tag is noticed: before what follows its name, or after the bracket that
    follows. -/
def secondTag (cs : List Char) : Json.Stop DecodeError :=
  match Json.skipSpace cs with
  | '\x7d' :: rest => .before (.duplicate tagField) rest
  | rest => .before (.duplicate tagField) rest

/-- A member: the form if it is the tag. -/
def readEntry (depth : Nat) (tagged : Bool) (cs : List Char) :
    Outcome ((Form ⊕ String × Json.Value) × List Char) := do
  let (name, rest) ← ofJson (Json.readString [] cs.tail)
  if name = tagField then
    if tagged then .error (secondTag rest)
    else
      let (form, rest) ← readTag (← ofJson (Json.readColon rest))
      return (.inl form, rest)
  else
    let (v, rest) ← ofJson (Json.readValue depth (← ofJson (Json.readColon rest)))
    return (.inr (name, v), rest)

/-- The form that the members up to the closing bracket name, and the other members, of at
    most so many. -/
def readEntriesUpTo (depth : Nat) :
    Nat → Option Form → Bool → List (String × Json.Value) → List Char →
      Outcome ((Form × List (String × Json.Value)) × List Char)
  | 0, _, _, _, cs => .error (.before (.malformed .endInObject) cs)
  | count + 1, found, first, done, cs => do
    match ← ofJson (Json.Bracket.curly.next first cs) with
    | (false, rest) =>
      match found with
      | some form => return ((form, done.reverse), rest)
      | none => .error (.before (.missing tagField) rest)
    | (true, rest) =>
      match ← readEntry depth found.isSome rest with
      | (.inl form, rest) => readEntriesUpTo depth count (some form) false done rest
      | (.inr member, rest) => readEntriesUpTo depth count found false (member :: done) rest

/-- The form that the members up to the closing bracket name, and the other members. -/
def readEntries (depth : Nat) (cs : List Char) : Outcome ((Form × List (String × Json.Value)) × List Char) :=
  readEntriesUpTo depth (cs.length + 1) none true [] cs

/-- The fields of a form among the members. -/
def readMembers (form : Form) : Fields → List (String × Json.Value) → Except DecodeError Fields
  | fields, [] => .ok fields
  | fields, (name, v) :: rest =>
    match form.fields.lookup name with
    | none => readMembers form fields rest
    | some shape =>
      if fields.contains name then .error (.duplicate name)
      else
        match shape.read v with
        | .ok held => readMembers form (fields.insert name held) rest
        | .error e => .error e

/-- The first field that is missing. -/
def missing? (form : Form) (fields : Fields) : Option String :=
  (form.fields.find? fun (name, shape) => !fields.contains name && shape.absent.isNone).map (·.1)

def ofMembers (form : Form) (members : List (String × Json.Value)) : Except DecodeError Instruction := do
  let fields ← readMembers form .empty members
  match missing? form fields with
  | some name => .error (.missing name)
  | none => .ok (form.make fields)

/-! ## Arrays -/

/-- Fields by position; `at_` counts those read. -/
def readPositions (form : Form) (at_ : Nat) :
    Fields → List (String × Shape) → List Json.Value → Except DecodeError Fields
  | fields, [], vs => if vs = [] then .ok fields else .error (.tooLong (at_ + vs.length) at_)
  | fields, (name, shape) :: more, [] =>
    match shape.absent with
    | some held => readPositions form at_ (fields.insert name held) more []
    | none => .error (.tooShort at_ form.title form.fields.length)
  | fields, (name, shape) :: more, v :: vs =>
    match shape.read v with
    | .ok held => readPositions form (at_ + 1) (fields.insert name held) more vs
    | .error e => .error e

def ofItems (form : Form) (items : List Json.Value) : Except DecodeError Instruction := do
  let fields ← readPositions form 0 .empty form.fields items
  return form.make fields

/-- The form that the first item names, and the items after it. -/
def readSequence (depth : Nat) (cs : List Char) : Outcome ((Form × List Json.Value) × List Char) := do
  match ← ofJson (Json.Bracket.square.next true cs) with
  | (false, rest) => .error (.before (.missing tagField) rest)
  | (true, rest) =>
    let (form, rest) ← readTag rest
    let (items, rest) ← ofJson (Json.Bracket.square.readItems (Json.readValue depth) false rest)
    return ((form, items), rest)

/-! ## Documents -/

/-- A document and the instruction that it is, or what is wrong with its fields. -/
def readDocument (cs : List Char) : Outcome (Except DecodeError Instruction × List Char) := do
  match Json.skipSpace cs with
  | '\x7b' :: rest =>
    let ((form, members), rest) ← readEntries (Json.deepest - 1) rest
    return (ofMembers form members, rest)
  | '[' :: rest =>
    let ((form, items), rest) ← readSequence (Json.deepest - 1) rest
    return (ofItems form items, rest)
  | scalar =>
    let (v, rest) ← ofJson (Json.readScalar scalar)
    .error (.before (.mistyped v .document) rest)

/-- Why a text is no instruction. -/
structure Failure where
  cause : DecodeError
  /-- The bytes up to the place; none if it has no place. -/
  column : Option Nat

def Failure.message (f : Failure) : String :=
  match f.column with
  | some column => s!"{f.cause.message} at line 1 column {column}"
  | none => f.cause.message

/-- The instruction that a line of text is. What follows the document is looked at last. -/
def decode (text : String) : Except Failure Instruction :=
  let fail {α : Type} (stop : Json.Stop DecodeError) : Except Failure α :=
    .error ⟨stop.cause, some (stop.column text.utf8ByteSize)⟩
  match readDocument text.toList with
  | .error stop => fail stop
  | .ok (.error cause, _) => .error ⟨cause, none⟩
  | .ok (.ok instruction, rest) =>
    match ofJson (Json.readEnd rest) with
    | .error stop => fail stop
    | .ok () => .ok instruction

end Instruction

end Magik
