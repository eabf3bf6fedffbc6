/-
  Magik.CommandLine.Run — the commands.

  A command prints as it goes and may fail on the way; what it printed until then stays
  printed. A failure is a chain of messages, outermost first. Definitions are loaded
  before anything is read, and all paths to be checked are looked up before the first of
  them is read.
-/

import Magik.CommandLine.Arguments
import Magik.CommandLine.Files
import Magik.Definitions.BuiltIn
import Magik.Definitions.Load
import Magik.Report.Listing
import Magik.SourceText

namespace Magik.CommandLine

/-- Messages from the outermost to what caused it. -/
structure Failure where
  causes : List String
  deriving DecidableEq, Repr

/-- What was printed: answers, and complaints. -/
structure Output where
  answers : String
  complaints : String
  deriving DecidableEq, Repr

abbrev Job (m : Type → Type) := ExceptT Failure (StateT Output m)

namespace Job

variable {m : Type → Type} [Monad m]

def fail {α : Type} (causes : List String) : Job m α := throw ⟨causes⟩

def answer (lines : List String) : Job m Unit :=
  modify fun o => { o with answers := lines.foldl (fun text line => text ++ line ++ "\n") o.answers }

def complain (lines : List String) : Job m Unit :=
  modify fun o => { o with complaints := lines.foldl (fun text line => text ++ line ++ "\n") o.complaints }

/-- What a look-up gives; its error becomes the cause of a failure. -/
def orFail {α : Type} (message : String) (look : m (Except FileError α)) : Job m α := do
  match ← (monadLift look : StateT Output m (Except FileError α)) with
  | .ok value => return value
  | .error e => fail [message, e.message]

def ofBytes (bytes : ByteArray) : Except FileError String :=
  match String.fromUTF8? bytes with
  | some text => .ok text
  | none => .error .notText

/-- The text of a file. -/
def readText (files : Files m) (message path : String) : Job m String :=
  orFail message do return (← files.read path).bind ofBytes

/-! ## Definitions -/

/-- Definitions and those of a file. -/
def loadFile (files : Files m) (definitions : Definitions) (path : String) : Job m Definitions := do
  let text ← readText files ("failed to read definitions " ++ path) path
  match definitions.load text with
  | (definitions, .ok _) => return definitions
  | (_, .error e) => fail ["failed to load definitions " ++ path, s!"invalid definition on line {e.line}: {e.message}"]

def loadDefinitions (files : Files m) (options : Options) : Job m Definitions :=
  options.types.foldlM (loadFile files) (if options.noDefaults then .empty else .builtIn)

/-! ## One file -/

def readSource (files : Files m) (path : String) : Job m SourceText := do
  return ⟨path, ← readText files ("failed to read " ++ path) path⟩

def complainAbout (source : SourceText) (ds : List Diagnostic) : Job m Unit :=
  complain (ds.flatMap (Report.diagnosticLines source))

/-- The analysis of a file, after complaints about its errors. -/
def analyse (files : Files m) (definitions : Definitions) (options : AnalysisOptions) (path : String) :
    Job m Analysis := do
  let source ← readSource files path
  match Analysis.ofText 0 definitions options source.contents with
  | .ok a =>
    complainAbout source (a.diagnostics.filter fun d => d.level = .error)
    return a
  | .error failure =>
    complainAbout source failure.diagnostics
    fail ["failed to analyze " ++ path, failure.message]

/-! ## Many files -/

/-- Whether a name in a directory is that of a source. -/
def isSourceName (name : String) : Bool := Path.extension? name = some "magik"

/-- Whether a search goes on to a path inside a directory. -/
def isWanted (files : Files m) (path : String) : Job m Bool := do
  match ← (monadLift (files.kind path) : StateT Output m (Except FileError FileKind)) with
  | .ok .directory => return true
  | _ => return ((Path.components path).getLast?.any fun
    | .name text => isSourceName text
    | _ => false)

/-- The paths found so far, with the file of a path or the sources inside a directory. -/
def collect (files : Files m) (found : List String) (path : String) : Job m (List String) := do
  match ← orFail ("failed to access " ++ path) (files.kind path) with
  | .file => return Path.insert path found
  | .special => return found
  | .directory =>
    let names ← orFail ("failed to read directory " ++ path) (files.names path)
    (Path.sort (names.map (Path.child path))).foldlM (fun found child => do
      if ← isWanted files child then
        if _h : path.utf8ByteSize < child.utf8ByteSize ∧ child.utf8ByteSize < pathLimit then
          collect files found child
        else fail ["failed to access " ++ child, FileError.nameTooLong.message]
      else return found) found
termination_by pathLimit - path.utf8ByteSize
decreasing_by omega

/-- Checks a file and says whether it has errors. -/
def checkFile (files : Files m) (definitions : Definitions) (options : AnalysisOptions) (path : String) :
    Job m Bool := do
  let source ← readSource files path
  let ds := Analysis.diagnosticsOf definitions options source.contents
  if ds.isEmpty then answer ["ok " ++ path] else complainAbout source ds
  return Diagnostic.hasErrors ds

def check (files : Files m) (definitions : Definitions) (options : AnalysisOptions) (inputs : List String) :
    Job m Unit := do
  let paths ← inputs.foldlM (collect files) []
  if paths.isEmpty then fail ["no .magik files found"]
  let verdicts ← paths.mapM (checkFile files definitions options)
  let failed := verdicts.count true
  if failed > 0 then fail [s!"{failed} of {paths.length} file(s) have errors"]
  answer [s!"checked {paths.length} file(s)"]

/-! ## Commands -/

def analysisOptions (options : Options) : AnalysisOptions where
  package := options.package.getD AnalysisOptions.standard.package
  reportUnused := !options.noUnused

def perform (files : Files m) (invocation : Invocation) : Job m Unit := do
  let definitions ← loadDefinitions files invocation.options
  let options := analysisOptions invocation.options
  match invocation.command with
  | .types input => answer (Report.typeLines (← analyse files definitions options input))
  | .scopes input => answer (Report.scopeLines (← analyse files definitions options input))
  | .check inputs => check files definitions options inputs

end Job

/-- How a command ended. -/
structure Outcome where
  output : Output
  /-- Empty if it succeeded. -/
  causes : List String
  deriving DecidableEq, Repr

def Outcome.succeeded (o : Outcome) : Bool := o.causes.isEmpty

def run {m : Type → Type} [Monad m] (files : Files m) (invocation : Invocation) : m Outcome := do
  match ← StateT.run (ExceptT.run (Job.perform files invocation)) ⟨"", ""⟩ with
  | (.ok (), output) => return ⟨output, []⟩
  | (.error failure, output) => return ⟨output, failure.causes⟩

end Magik.CommandLine
