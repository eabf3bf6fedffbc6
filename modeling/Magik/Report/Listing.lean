/-
  Magik.Report.Listing — the types and the scopes of a file, a line for each.
-/

import Magik.Analysis

namespace Magik.Report

/-! ## Types -/

/-- The children of a node that it assigns to. -/
def assigned (n : Node) : List Node :=
  match n.kind with
  | .assignment | .augmentedAssignment _ => n.children.take 1
  | .multipleAssignment => n.children.dropLast
  | _ => []

/-- The numbers of the nodes that are assigned to. -/
def targets (tree : SyntaxTree) : List Nat := tree.nodes.flatMap fun n => (assigned n).map Node.number

/-- What the listing calls a node and what it says about it; definitions and names that
are read have a line. -/
def typeItem? (a : Analysis) (targets : List Nat) (n : Node) : Option (String × String) :=
  let results := a.findings.results.find? n.number
  match n.kind with
  | .method header => results.map fun r => (s!"{header.exemplar}.{header.name}", r.text)
  | .procedure name _ _ =>
    (a.findings.procedureResults.find? n.number).map fun r => ("_proc " ++ name.getD "(anonymous)", r.text)
  | .identifier name => if targets.contains n.number then none else results.map fun r => (name, r.first.text)
  | _ => none

/-- The types of definitions and of names that are read, in the order of the file. -/
def typeLines (a : Analysis) : List String :=
  let targets := targets a.tree
  a.tree.root.descendants.filterMap fun n =>
    (typeItem? a targets n).map fun e => s!"{n.span.line}:{n.span.column} {e.1}: {e.2}"

/-! ## Scopes -/

def scopeTitle : Scope.Kind → String
  | .global => "Global"
  | .procedure => "Procedure"
  | .body => "Body"

def indentation (depth : Nat) : String := String.ofList (List.replicate (2 * depth) ' ')

/-- A scope and its entries. -/
def ownScopeLines (a : Analysis) (depth : Nat) (s : Scope) : List String :=
  let place := match a.tree.find? s.node with
    | some n => s!"{n.span.line}:{n.span.column}"
    | none => ""
  s!"{indentation depth}{scopeTitle s.kind} scope ({place})" ::
    s.names.pairs.filterMap fun p => (a.scopes.entryAt? p.2).map fun e =>
      s!"{indentation depth}  {p.1} [{e.kind.describe}] {e.usages.length} usage(s)"

/-- A scope, its entries and the scopes inside it, each two blanks further in. -/
def scopeLinesFrom (a : Analysis) (id depth : Nat) : List String :=
  match a.scopes.scopes[id]? with
  | none => []
  | some s => ownScopeLines a depth s ++ s.children.flatMap fun child =>
    if _h : id < child ∧ child < a.scopes.scopes.length then scopeLinesFrom a child (depth + 1) else []
termination_by a.scopes.scopes.length - id
decreasing_by omega

def scopeLines (a : Analysis) : List String := scopeLinesFrom a 0 0

end Magik.Report
