/-
  Magik.Scope.Build — the scopes of a syntax tree.

  One walk in the order of evaluation: an assigned or declared value before the name that
  gets it, so that the name is not yet known inside (a `_recursive` name is). The first
  declaration of a name in a scope is the one that counts. A name that nobody declared is
  global where it is read, and where it is assigned it belongs to the procedure around,
  unless it is written with a package.
-/

import Magik.Scope.Basic
import Magik.Syntax.Node

namespace Magik.ScopeTree

/-! ## Steps -/

def start (root : Nat) : ScopeTree where
  scopes := [⟨.global, none, root, [], .empty⟩]
  entries := []
  placed := .empty
  opened := Table.empty.insert root 0
  resolved := .empty

/-- Puts a node into a scope. -/
def place (node scope : Nat) (t : ScopeTree) : ScopeTree := { t with placed := t.placed.insert node scope }

/-- Lets a node refer to an entry. -/
def resolve (node entry : Nat) (t : ScopeTree) : ScopeTree := { t with resolved := t.resolved.insert node entry }

/-- Opens a scope for a node inside a scope; it gets the next number. -/
def openScope (kind : Scope.Kind) (node parent : Nat) (t : ScopeTree) : ScopeTree :=
  let id := t.scopes.length
  { t with
    scopes := (t.scopes.modify parent fun s => { s with children := s.children ++ [id] }) ++
      [⟨kind, some parent, node, [], .empty⟩]
    opened := t.opened.insert node id }

/-- The entry of a name in a scope, declared now unless the scope has it. -/
def declareIn (scope : Nat) (name : String) (kind : Entry.Kind) (node : Nat) (t : ScopeTree) : Nat × ScopeTree :=
  match t.entryIn? name scope with
  | some entry => (entry, t)
  | none =>
    let id := t.entries.length
    (id, { t with
      entries := t.entries ++ [⟨kind, name, node, scope, none, []⟩]
      scopes := t.scopes.modify scope fun s => { s with names := s.names.insert name id } })

/-- Declares a name for the node that stands for it. -/
def declare (scope : Nat) (name : String) (kind : Entry.Kind) (node : Nat) (t : ScopeTree) : Nat × ScopeTree :=
  match t.declareIn scope name kind node with
  | (entry, t) => (entry, t.resolve node entry)

/-- Notes that a node uses an entry. -/
def use (entry node : Nat) (t : ScopeTree) : ScopeTree :=
  { t with entries := t.entries.modify entry fun e => { e with usages := e.usages ++ [node] } }

/-- Notes which entry an entry takes over. -/
def link (entry target : Nat) (t : ScopeTree) : ScopeTree :=
  { t with entries := t.entries.modify entry fun e => { e with imported := some target } }

/-- A name that is read. -/
def read (scope : Nat) (name : String) (node : Nat) (t : ScopeTree) : ScopeTree :=
  match t.lookup scope name with
  | some entry => (t.use entry node).resolve node entry
  | none =>
    match t.declareIn 0 name .global node with
    | (entry, t) => (t.use entry node).resolve node entry

/-- A name that is assigned. -/
def assign (scope : Nat) (name : String) (node : Nat) (t : ScopeTree) : ScopeTree :=
  match t.lookup scope name with
  | some entry => t.resolve node entry
  | none =>
    if ':' ∈ name.toList then (t.declare 0 name .global node).2
    else (t.declare ((t.procedureScope? scope).getD 0) name .definition node).2

/-- Links an entry to the nearest one of its name outside its procedure, if that can be
    imported. -/
def linkImport (scope entry : Nat) (name : String) (node : Nat) (t : ScopeTree) : ScopeTree :=
  let outside := ((t.procedureScope? scope).bind fun i => t.scopes[i]?.bind (·.parent)).elim [] t.outward
  match outside.findSome? (t.entryIn? name) with
  | none => t
  | some target =>
    if (t.entryAt? target).any fun e => e.kind.isImportable then (t.use target node).link entry target else t

/-- A declared variable, its value aside. -/
def declareVariable (scope : Nat) (kind : Entry.Kind) (name : String) (node : Nat) (t : ScopeTree) : ScopeTree :=
  match t.declare scope name kind node with
  | (entry, t) => if kind = .imported then t.linkImport scope entry name node else t

def declareParameter (scope : Nat) (t : ScopeTree) (p : Node) : ScopeTree :=
  let t := t.place p.number scope
  match p.kind with
  | .parameter name _ => (t.declare scope name .parameter p.number).2
  | _ => t

def declareLoopVariable (scope : Nat) (t : ScopeTree) (v : Node) : ScopeTree :=
  let t := t.place v.number scope
  match v.kind with
  | .loopVariable name => (t.declare scope name .localVariable v.number).2
  | _ => t

/-- A variable that shares its value with others. -/
def declareShared (scope : Nat) (kind : Entry.Kind) (t : ScopeTree) (v : Node) : ScopeTree :=
  let t := t.place v.number scope
  match v.kind with
  | .declared name => t.declareVariable scope kind name v.number
  | _ => t

/-! ## The walk -/

mutual

/-- A node in a scope. -/
def walk (scope : Nat) : Node → ScopeTree → ScopeTree
  | ⟨number, kind, _, children⟩, t =>
    let t := t.place number scope
    match kind with
    | .method _ | .procedure .. => walkDefinition scope number children t
    | .body =>
      let inner := t.scopes.length
      walkAll inner children ((t.openScope .body number scope).place number inner)
    | .forLoop _ => walkFor scope [] children t
    | .attempt => walkAttempt scope none children t
    | .declaration modifier true =>
      children.dropLast.foldl (declareShared scope (.ofModifier modifier)) (walkLast scope children t)
    | .declaration modifier false => walkVariables scope (.ofModifier modifier) children t
    | .assignment | .augmentedAssignment _ | .multipleAssignment =>
      walkTargets scope children (walkLast scope children t)
    | .identifier name => t.read scope name number
    | _ => walkAll scope children t

def walkAll (scope : Nat) : List Node → ScopeTree → ScopeTree
  | [], t => t
  | n :: ns, t => walkAll scope ns (walk scope n t)

/-- The last of some nodes. -/
def walkLast (scope : Nat) : List Node → ScopeTree → ScopeTree
  | [], t => t
  | [n], t => walk scope n t
  | _ :: ns, t => walkLast scope ns t

/-- The names that get a value: all but the last of some nodes. -/
def walkTargets (scope : Nat) : List Node → ScopeTree → ScopeTree
  | [], t => t
  | [_], t => t
  | n :: ns, t =>
    walkTargets scope ns <|
      match n.identifierName? with
      | some name => (t.place n.number scope).assign scope name n.number
      | none => walk scope n t

/-- A method or procedure: its parameters and its body share one scope. -/
def walkDefinition (scope number : Nat) : List Node → ScopeTree → ScopeTree
  | [⟨list, _, _, parameters⟩, ⟨body, _, _, statements⟩], t =>
    let inner := t.scopes.length
    let t := (t.openScope .procedure number scope).place list inner
    let t := (parameters.foldl (declareParameter inner) t).place body inner
    walkAll inner statements { t with opened := t.opened.insert body inner }
  | _, t => t

/-- A for loop: its variables live in the scope of its body. -/
def walkFor (scope : Nat) (vars : List Node) : List Node → ScopeTree → ScopeTree
  | [], t => t
  | [_], t => t
  | [iterable, ⟨body, _, _, statements⟩], t =>
    let t := walk scope iterable t
    let inner := t.scopes.length
    let t := (t.openScope .body body scope).place body inner
    walkAll inner statements (vars.foldl (declareLoopVariable inner) t)
  | v :: ns, t => walkFor scope (vars ++ [v]) ns t

/-- A try: its variable lives in the scope of each handler. -/
def walkAttempt (scope : Nat) (binding : Option (String × Nat)) : List Node → ScopeTree → ScopeTree
  | [], t => t
  | ⟨number, .attemptVariable name, _, _⟩ :: ns, t =>
    walkAttempt scope (some (name, number)) ns (t.place number scope)
  | ⟨number, .handler _, _, [⟨body, _, _, statements⟩]⟩ :: ns, t =>
    let t := t.place number scope
    let inner := t.scopes.length
    let t := (t.openScope .body body scope).place body inner
    let t := match binding with
      | some (name, node) => (t.declare inner name .localVariable node).2
      | none => t
    walkAttempt scope binding ns (walkAll inner statements t)
  | n :: ns, t => walkAttempt scope binding ns (walk scope n t)

/-- Variables with values of their own. -/
def walkVariables (scope : Nat) (kind : Entry.Kind) : List Node → ScopeTree → ScopeTree
  | [], t => t
  | ⟨number, .declared name, _, values⟩ :: ns, t =>
    let t := t.place number scope
    let t :=
      if kind = .recursive then walkAll scope values (t.declareVariable scope kind name number)
      else (walkAll scope values t).declareVariable scope kind name number
    walkVariables scope kind ns t
  | n :: ns, t => walkVariables scope kind ns (t.place n.number scope)

end

/-- The scopes of a tree. -/
def build (tree : SyntaxTree) : ScopeTree := walk 0 tree.root (start tree.root.number)

end Magik.ScopeTree
