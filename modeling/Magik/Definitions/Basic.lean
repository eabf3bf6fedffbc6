/-
  Magik.Definitions.Basic — what is known about the world outside a file: exemplars and
  their parents, methods, globals, conditions and binary operators.

  Parents may be missing from the table, repeated or circular. A method is searched for
  on the receiver and then breadth-first on its ancestors; an exemplar is taken out of
  the table once its parents are in the queue, so the search ends.
-/

import Magik.Table
import Magik.Types.Results

namespace Magik

structure Exemplar where
  name : TypeName
  parents : List TypeName
  deriving DecidableEq, Repr

structure Method where
  receiver : TypeName
  name : String
  parameters : List String
  /-- What it gives back; the receiver's type may stand in it. -/
  result : Results
  /-- What it gives to each round of a loop over it. -/
  loopResult : Results
  deriving DecidableEq, Repr

structure Condition where
  name : String
  parent : Option String
  deriving DecidableEq, Repr

structure Definitions where
  exemplars : Table TypeName Exemplar
  methods : Table (TypeName × String) Method
  globals : Table TypeName TypeSet
  conditions : Table String Condition
  operators : Table (String × TypeName × TypeName) TypeSet

namespace Definitions

def empty : Definitions := ⟨.empty, .empty, .empty, .empty, .empty⟩

/-! ## Additions: the last one of a name counts -/

def addExemplar (d : Definitions) (name : TypeName) (parents : List TypeName) : Definitions :=
  { d with exemplars := d.exemplars.insert name ⟨name, parents⟩ }

def addMethod (d : Definitions) (m : Method) : Definitions :=
  { d with methods := d.methods.insert (m.receiver, m.name) m }

def addGlobal (d : Definitions) (name : TypeName) (types : TypeSet) : Definitions :=
  { d with globals := d.globals.insert name types }

def addCondition (d : Definitions) (name : String) (parent : Option String) : Definitions :=
  { d with conditions := d.conditions.insert name ⟨name, parent⟩ }

def addOperator (d : Definitions) (operator : String) (left right : TypeName) (result : TypeSet) : Definitions :=
  { d with operators := d.operators.insert (operator, left, right) result }

/-! ## Look-ups -/

def exemplar? (d : Definitions) (name : TypeName) : Option Exemplar := d.exemplars.find? name

def global? (d : Definitions) (name : TypeName) : Option TypeSet := d.globals.find? name

def condition? (d : Definitions) (name : String) : Option Condition := d.conditions.find? name

def operator? (d : Definitions) (operator : String) (left right : TypeName) : Option TypeSet :=
  d.operators.find? (operator, left, right)

/-- The first type of a queue that has a method, ancestors joining at the end. -/
def search (methods : Table (TypeName × String) Method) (name : String) (left : Table TypeName Exemplar)
    (queue : List TypeName) : Option Method :=
  match queue with
  | [] => none
  | t :: rest =>
    match methods.find? (t, name) with
    | some m => some m
    | none =>
      match _h : left.find? t with
      | some e => search methods name (left.erase t) (rest ++ e.parents)
      | none => search methods name left rest
termination_by (left.size, queue.length)
decreasing_by
  · exact Prod.Lex.left _ _ (Table.size_erase_lt _h)
  · exact Prod.Lex.right _ (by simp)

/-- The method of a name on a type or the nearest of its ancestors. -/
def method? (d : Definitions) (type : TypeName) (name : String) : Option Method :=
  search d.methods name d.exemplars [type]

/-- The condition that all errors descend from. -/
def errorCondition : String := "error"

def leadsToError (left : Table String Condition) (name : String) : Bool :=
  if name = errorCondition then true
  else
    match _h : left.find? name with
    | some ⟨_, some parent⟩ => leadsToError (left.erase name) parent
    | _ => false
termination_by left.size
decreasing_by exact Table.size_erase_lt _h

/-- Whether a condition is an error or descends from it. -/
def isError (d : Definitions) (name : String) : Bool := leadsToError d.conditions name

end Definitions

end Magik
