/-
  Magik.Scope.Basic — scopes, the entries stored in them, and how names are looked up.

  Scopes and entries are numbered from zero in the order they were opened and declared;
  scope 0 is the global one and the parent of a scope has a smaller number. A body sees
  its parent. A procedure sees nothing between itself and the global scope: names of an
  enclosing procedure have to be imported.
-/

import Magik.Syntax.Operator
import Magik.Table

namespace Magik

namespace Scope

inductive Kind where
  | global
  | procedure
  | body
  deriving DecidableEq, Repr

end Scope

structure Scope where
  kind : Scope.Kind
  /-- The scope around this one. -/
  parent : Option Nat
  /-- The node that opened it. -/
  node : Nat
  children : List Nat
  /-- Names and their entries. -/
  names : Table String Nat
  deriving Repr

namespace Entry

inductive Kind where
  | localVariable
  | global
  | dynamic
  | imported
  | recursive
  | constant
  | parameter
  /-- Made known by an assignment. -/
  | definition
  deriving DecidableEq, Repr

namespace Kind

def describe : Kind → String
  | .localVariable => "local"
  | .global => "global"
  | .dynamic => "dynamic"
  | .imported => "import"
  | .recursive => "recursive"
  | .constant => "constant"
  | .parameter => "parameter"
  | .definition => "definition"

def ofModifier : Modifier → Kind
  | .localVariable => .localVariable
  | .constant => .constant
  | .global => .global
  | .dynamic => .dynamic
  | .imported => .imported
  | .recursive => .recursive

/-- What an `_import` can take over from an enclosing procedure. -/
def isImportable : Kind → Bool
  | .localVariable | .constant | .parameter => true
  | _ => false

/-- What is of no use unless it is read. -/
def needsUse : Kind → Bool
  | .localVariable | .definition | .constant => true
  | _ => false

end Kind

end Entry

structure Entry where
  kind : Entry.Kind
  name : String
  /-- The node that declared it. -/
  node : Nat
  /-- The scope it is stored in. -/
  scope : Nat
  /-- The entry of an enclosing procedure that it takes over. -/
  imported : Option Nat
  /-- The nodes that read or import it. -/
  usages : List Nat
  deriving Repr

structure ScopeTree where
  scopes : List Scope
  entries : List Entry
  /-- The innermost scope of each node; a body is inside the scope it opens. -/
  placed : Table Nat Nat
  /-- The scope each node opens. -/
  opened : Table Nat Nat
  /-- The entry each name in the tree refers to. -/
  resolved : Table Nat Nat

namespace ScopeTree

def scopeOf? (t : ScopeTree) (node : Nat) : Option Nat := t.placed.find? node

def scopeOpenedBy? (t : ScopeTree) (node : Nat) : Option Nat := t.opened.find? node

def entryOf? (t : ScopeTree) (node : Nat) : Option Nat := t.resolved.find? node

def entryAt? (t : ScopeTree) (id : Nat) : Option Entry := t.entries[id]?

/-! ## Ways outward -/

/-- The scopes met by following steps to smaller numbers. -/
def way (step : Nat → Option Nat) (id : Nat) : List Nat :=
  id :: match step id with
    | none => []
    | some next => if next < id then way step next else []
termination_by id

/-- The scopes around a scope, itself first. -/
def outward (t : ScopeTree) (id : Nat) : List Nat := way (fun i => t.scopes[i]?.bind (·.parent)) id

/-- Where a name that is not in a scope is looked for next. -/
def nextVisible (s : Scope) : Option Nat :=
  match s.kind with
  | .body => s.parent
  | .procedure => some 0
  | .global => none

/-- The scopes a scope sees, itself first. -/
def visible (t : ScopeTree) (id : Nat) : List Nat := way (fun i => t.scopes[i]?.bind nextVisible) id

/-- The entry of a name in one scope. -/
def entryIn? (t : ScopeTree) (name : String) (id : Nat) : Option Nat := t.scopes[id]?.bind fun s => s.names.find? name

/-- The entry that a name means in a scope. -/
def lookup (t : ScopeTree) (id : Nat) (name : String) : Option Nat := (t.visible id).findSome? (t.entryIn? name)

/-- The nearest procedure scope, a scope itself included. -/
def procedureScope? (t : ScopeTree) (id : Nat) : Option Nat :=
  (t.outward id).find? fun i => t.scopes[i]?.any fun s => s.kind = .procedure

/-! ## Unused entries -/

def isUnused (e : Entry) : Bool := e.kind.needsUse && e.usages.isEmpty

/-- Locals, definitions and constants that nothing reads or imports. -/
def unused (t : ScopeTree) : List Entry := t.entries.filter isUnused

/-- Their numbers. -/
def unusedIds (t : ScopeTree) : List Nat :=
  (t.entries.zipIdx.filter fun p => isUnused p.1).map (·.2)

end ScopeTree

end Magik
