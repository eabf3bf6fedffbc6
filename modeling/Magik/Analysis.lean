/-
  Magik.Analysis — everything that is found out about a file.

  Only a text that cannot be read into tokens has no analysis; malformed parts are in the
  tree and among the diagnostics. What is asked of an analysis is asked about a node of a
  tree, and a node of another tree is refused.
-/

import Magik.Grammar.File
import Magik.Reasoning.Reason
import Magik.Scope.Build
import Magik.Token.Lexer

namespace Magik

structure AnalysisOptions where
  /-- The package in force until the file names one. -/
  package : String
  /-- Whether variables that nothing reads are reported. -/
  reportUnused : Bool
  deriving DecidableEq, Repr

def AnalysisOptions.standard : AnalysisOptions := ⟨systemPackage, true⟩

structure Analysis where
  /-- Tells the tree from other trees. -/
  id : Nat
  tree : SyntaxTree
  scopes : ScopeTree
  findings : Findings
  diagnostics : List Diagnostic

/-- A node of a tree. -/
structure NodeReference where
  tree : Nat
  number : Nat
  deriving DecidableEq, Repr

/-- What is wrong with a text that has no analysis. -/
structure ParseFailure where
  diagnostics : List Diagnostic

def ParseFailure.message (f : ParseFailure) : String := "source failed to parse:\n" ++ Diagnostic.textOf f.diagnostics

/-- A node that belongs to another tree. -/
structure ForeignNode where
  node : NodeReference
  deriving DecidableEq, Repr

namespace Analysis

def unusedMessage (name : String) : String := "unused variable '" ++ name ++ "'"

/-- The warnings about entries that nothing reads. -/
def unusedWarnings (tree : SyntaxTree) (scopes : ScopeTree) : List Diagnostic :=
  scopes.unused.map fun e => .warning (unusedMessage e.name) ((tree.find? e.node).map Node.span)

/-- The analysis of tokens. -/
def ofTokens (id : Nat) (definitions : Definitions) (options : AnalysisOptions) (tokens : List Token) : Analysis :=
  match Grammar.parse tokens with
  | (tree, problems) =>
    let scopes := ScopeTree.build tree
    { id
      tree
      scopes
      findings := World.findings ⟨scopes, definitions⟩ options.package tree
      diagnostics := problems ++ if options.reportUnused then unusedWarnings tree scopes else [] }

/-- The analysis of a text. -/
def ofText (id : Nat) (definitions : Definitions) (options : AnalysisOptions) (text : String) :
    Except ParseFailure Analysis :=
  match Token.scan text with
  | .ok tokens => .ok (ofTokens id definitions options tokens)
  | .error e => .error ⟨[.error e.message none]⟩

/-- The diagnostics of a text, whether it has an analysis or not. -/
def diagnosticsOf (definitions : Definitions) (options : AnalysisOptions) (text : String) : List Diagnostic :=
  match ofText 0 definitions options text with
  | .ok a => a.diagnostics
  | .error failure => failure.diagnostics

/-! ## Questions -/

def rootReference (a : Analysis) : NodeReference := ⟨a.id, a.tree.root.number⟩

def contains (a : Analysis) (n : NodeReference) : Bool := n.tree = a.id && n.number < a.tree.size

/-- The node, if it is one of this tree. -/
def node? (a : Analysis) (n : NodeReference) : Option Node := if n.tree = a.id then a.tree.find? n.number else none

/-- Answers a question about a node of this tree. -/
def ask {α : Type} (a : Analysis) (n : NodeReference) (answer : α) : Except ForeignNode α :=
  if a.contains n then .ok answer else .error ⟨n⟩

/-- What a node gives back, if it was reasoned about. -/
def recorded? (a : Analysis) (n : NodeReference) : Except ForeignNode (Option Results) :=
  a.ask n (a.findings.results.find? n.number)

/-- What a node gives back; not known if it was never reasoned about. -/
def resultOf (a : Analysis) (n : NodeReference) : Except ForeignNode Results :=
  a.ask n ((a.findings.results.find? n.number).getD .unknown)

def loopResultOf? (a : Analysis) (n : NodeReference) : Except ForeignNode (Option Results) :=
  a.ask n (a.findings.loopResults.find? n.number)

def procedureResultOf? (a : Analysis) (n : NodeReference) : Except ForeignNode (Option Results) :=
  a.ask n (a.findings.procedureResults.find? n.number)

def restrictionOf? (a : Analysis) (n : NodeReference) : Except ForeignNode (Option Restriction) :=
  a.ask n (a.findings.restrictions.find? n.number)

def scopeOf? (a : Analysis) (n : NodeReference) : Except ForeignNode (Option Nat) :=
  a.ask n (a.scopes.scopeOf? n.number)

def entryOf? (a : Analysis) (n : NodeReference) : Except ForeignNode (Option Nat) :=
  a.ask n (a.scopes.entryOf? n.number)

def believedTypes? (a : Analysis) (entry : Nat) : Option TypeSet := a.findings.believed.find? entry

end Analysis

end Magik
