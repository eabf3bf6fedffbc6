/-
  Magik.Server.Session — the language server: documents that are open, and what is said
  about them.

  Handling an open or changed document takes four steps: it is stored, its snapshot is
  analysed, the version stored by then is compared with that of the snapshot, and only if
  they agree are the diagnostics published. A closed document is removed and its
  diagnostics are cleared. After the client has asked for the end, notifications are
  passed over and requests are refused.
-/

import Magik.Definitions.BuiltIn
import Magik.Definitions.Load
import Magik.Server.Hover

namespace Magik.Server

structure Document where
  version : Int
  text : String
  deriving DecidableEq, Repr

structure Session where
  definitions : Definitions
  /-- By the text of their locators. -/
  documents : Table String Document
  /-- Whether the client has asked for the end. -/
  ended : Bool

/-- A diagnostic as an editor shows it. -/
structure Mark where
  range : Range
  level : Level
  message : String
  deriving DecidableEq, Repr

def Mark.ofDiagnostic (d : Diagnostic) : Mark := ⟨(d.span.map Range.ofSpan).getD .origin, d.level, d.message⟩

inductive LogLevel where
  | error
  | info
  deriving DecidableEq, Repr

/-- What the server tells the client on its own account. -/
inductive Notice where
  | publish (uri : String) (marks : List Mark) (version : Option Int)
  | log (level : LogLevel) (text : String)
  deriving DecidableEq, Repr

structure Change where
  /-- The part that is replaced; none if the text is the whole. -/
  range : Option Range
  text : String
  deriving DecidableEq, Repr

inductive Request where
  | connect
  | connected
  | opened (uri : String) (version : Int) (text : String)
  | changed (uri : String) (version : Int) (changes : List Change)
  | closed (uri : String)
  | hover (uri : String) (position : Position)
  | shutdown
  deriving DecidableEq, Repr

/-- Whether the client waits for an answer. -/
def Request.isAnswered : Request → Bool
  | .connect | .hover .. | .shutdown => true
  | .connected | .opened .. | .changed .. | .closed _ => false

structure Hover where
  text : String
  range : Range
  deriving DecidableEq, Repr

/-- Why a request is refused. -/
inductive Refusal where
  | ended
  | badParameters (message : String)
  deriving DecidableEq, Repr

inductive Reply where
  /-- A notification is not answered. -/
  | silence
  | capabilities
  | hover (found : Option Hover)
  | done
  | refused (why : Refusal)
  deriving DecidableEq, Repr

/-- The built-in definitions and those of a file, if one is named; its text is missing if
    it cannot be read. A file with anything wrong in it counts for nothing. The flag says
    whether something was wrong. -/
def loadDefinitions (file : Option (Option String)) : Definitions × Bool :=
  match file with
  | none => (.builtIn, false)
  | some none => (.builtIn, true)
  | some (some text) =>
    match Definitions.builtIn.load text with
    | (d, .ok _) => (d, false)
    | (_, .error _) => (.builtIn, true)

namespace Session

def start (definitions : Definitions) : Session := ⟨definitions, .empty, false⟩

/-! ## Steps -/

def store (s : Session) (uri : String) (d : Document) : Session := { s with documents := s.documents.insert uri d }

def remove (s : Session) (uri : String) : Session := { s with documents := s.documents.erase uri }

/-- The diagnostics of a snapshot. -/
def analyse (s : Session) (d : Document) : List Mark :=
  (Analysis.diagnosticsOf s.definitions .standard d.text).map Mark.ofDiagnostic

/-- Whether the stored document is still of the version of a snapshot. -/
def isCurrent (s : Session) (uri : String) (d : Document) : Bool :=
  (s.documents.find? uri).any fun stored => stored.version = d.version

/-- The diagnostics of a snapshot, unless a newer version has come in. -/
def publish (s : Session) (uri : String) (d : Document) (marks : List Mark) : List Notice :=
  if s.isCurrent uri d then [.publish uri marks (some d.version)] else []

/-! ## Requests -/

/-- Stores a document and publishes its diagnostics. -/
def update (s : Session) (uri : String) (d : Document) : List Notice × Session :=
  let s := s.store uri d
  (s.publish uri d (s.analyse d), s)

/-- The last change carries the whole text; a part of it is refused. -/
def change (s : Session) (uri : String) (version : Int) (changes : List Change) : List Notice × Session :=
  match changes.getLast? with
  | none => ([], s)
  | some ⟨some _, _⟩ => ([.log .error ("received an incremental change for " ++ uri)], s)
  | some ⟨none, text⟩ => s.update uri ⟨version, text⟩

def hover (s : Session) (uri : String) (p : Position) : Option Hover :=
  (s.documents.find? uri).bind fun d =>
    match Analysis.ofText 0 s.definitions .standard d.text with
    | .ok a => (hoverAt a p).map fun (text, span) => ⟨text, .ofSpan span⟩
    | .error _ => none

/-- The answer to a request before the end, what the client is told besides, and the session
    after it. -/
def serve (s : Session) : Request → Reply × List Notice × Session
  | .connect => (.capabilities, [], s)
  | .connected => (.silence, [.log .info "magik language server initialized"], s)
  | .opened uri version text => (.silence, s.update uri ⟨version, text⟩)
  | .changed uri version changes => (.silence, s.change uri version changes)
  | .closed uri => (.silence, [.publish uri [] none], s.remove uri)
  | .hover uri p => (.hover (s.hover uri p), [], s)
  | .shutdown => (.done, [], { s with ended := true })

/-- The answer to what cannot be served. -/
def refuse (s : Session) (isRequest : Bool) (why : Refusal) : Reply × List Notice × Session :=
  (if isRequest then .refused why else .silence, [], s)

/-- The answer to a request at any time. -/
def handle (s : Session) (r : Request) : Reply × List Notice × Session :=
  if s.ended then s.refuse r.isAnswered .ended else s.serve r

end Session

end Magik.Server
