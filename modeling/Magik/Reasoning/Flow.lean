/-
  Magik.Reasoning.Flow — what reasoning carries along.

  A `Flow` is what is believed on the way to a place. A `Frame` belongs to a method or
  procedure, `Around` to a node: the nodes it is inside of. `Memory` only grows with what
  has been found; values on their way to the construct that gives them back wait in it.
-/

import Magik.Narrowing.Restriction
import Magik.Syntax.Node
import Magik.Types.Results

namespace Magik

/-! ## Beliefs -/

structure Flow where
  /-- The types each entry is believed to have. -/
  believed : Table Nat TypeSet
  /-- Whether the way has left its construct for good. -/
  exited : Bool

namespace Flow

def start : Flow := ⟨.empty, false⟩

def believe (f : Flow) (entry : Nat) (types : TypeSet) : Flow := { f with believed := f.believed.insert entry types }

def exit (f : Flow) : Flow := { f with exited := true }

end Flow

/-- What holds throughout a method or procedure. -/
structure Frame where
  /-- The types of the receiver, if there is one. -/
  receiver : Option TypeSet
  /-- What was believed of the entries outside when the procedure was defined. -/
  imports : Table Nat TypeSet

namespace Frame

/-- The frame of a file. -/
def outermost : Frame := ⟨none, .empty⟩

def receiverTypes (f : Frame) : TypeSet := f.receiver.getD (.single .receiver)

end Frame

/-! ## Surroundings -/

/-- The nodes around a node, innermost first, and the frame it is in. -/
structure Around where
  path : List (Nat × Node.Kind)
  frame : Frame

namespace Around

def file : Around := ⟨[], .outermost⟩

/-- One node further in. -/
def within (a : Around) (number : Nat) (kind : Node.Kind) : Around := { a with path := (number, kind) :: a.path }

/-- The nearest method or procedure. -/
def definition? (a : Around) : Option Nat := (a.path.find? fun p => p.2.isDefinition).map (·.1)

/-- Constructs that give back what is emitted in them. -/
def givesBack : Node.Kind → Bool
  | .conditional | .forLoop _ | .whileLoop _ | .plainLoop _ | .block | .attempt | .protect | .lock | .catching
  | .method _ | .procedure .. => true
  | _ => false

/-- Where an emitted value goes. -/
def emitTarget? (a : Around) : Option (Nat × Node.Kind) := a.path.find? fun p => givesBack p.2

/-- The label of a loop; none if a node is no loop. -/
def loopLabel? : Node.Kind → Option (Option String)
  | .forLoop label | .whileLoop label | .plainLoop label => some label
  | _ => none

/-- The loop that a `_leave` leaves: the nearest one, or the nearest one of its label,
    within the same definition. -/
def loopIn? (label : Option String) : List (Nat × Node.Kind) → Option Nat
  | [] => none
  | (number, kind) :: rest =>
    if kind.isDefinition then none
    else
      match loopLabel? kind with
      | some own => if label = none ∨ label = own then some number else loopIn? label rest
      | none => loopIn? label rest

def loopTarget? (a : Around) (label : Option String) : Option Nat := loopIn? label a.path

def isHandler : Node.Kind → Bool
  | .handler _ => true
  | _ => false

/-- Whether a node of a kind lies in the body of a try, within the same definition; its
    handlers do not count. -/
def attemptedIn (inner : Node.Kind) : List (Nat × Node.Kind) → Bool
  | [] => false
  | (_, kind) :: rest =>
    if kind = .attempt && !isHandler inner then true
    else if kind.isDefinition then false
    else attemptedIn kind rest

def isAttempted (a : Around) (kind : Node.Kind) : Bool := attemptedIn kind a.path

end Around

/-! ## Findings -/

structure Findings where
  /-- What each node gives back. -/
  results : Table Nat Results
  /-- What iterators give to each round of a loop over them. -/
  loopResults : Table Nat Results
  /-- What calling a procedure gives back. -/
  procedureResults : Table Nat Results
  /-- The types an entry has at the end of its life. -/
  believed : Table Nat TypeSet
  /-- The restriction of each condition. -/
  restrictions : Table Nat Restriction

def Findings.empty : Findings := ⟨.empty, .empty, .empty, .empty, .empty⟩

structure Memory where
  findings : Findings
  /-- Values on their way to a construct. -/
  emitted : Table Nat Results
  /-- Values on their way to a definition. -/
  returned : Table Nat Results
  /-- Values of each round on their way to a definition. -/
  looped : Table Nat Results
  /-- The procedures that entries were last assigned. -/
  procedures : Table Nat Nat
  /-- The package in force. -/
  package : String

def Memory.start (package : String) : Memory := ⟨.empty, .empty, .empty, .empty, .empty, package⟩

/-- Adds a value to those waiting for a node. -/
def accumulate (waiting : Table Nat Results) (owner : Nat) (value : Results) : Table Nat Results :=
  waiting.insert owner (((waiting.find? owner).map (·.combine value)).getD value)

/-! ## Steps -/

structure Moment where
  flow : Flow
  memory : Memory

/-- A piece of reasoning: it changes the moment and has an outcome. -/
abbrev Reason (α : Type) := StateM Moment α

namespace Reason

def flow : Reason Flow := fun m => (m.flow, m)

def memory : Reason Memory := fun m => (m.memory, m)

def setFlow (f : Flow) : Reason Unit := fun m => ((), { m with flow := f })

def changeFlow (change : Flow → Flow) : Reason Unit := fun m => ((), { m with flow := change m.flow })

def changeMemory (change : Memory → Memory) : Reason Unit := fun m => ((), { m with memory := change m.memory })

def changeFindings (change : Findings → Findings) : Reason Unit :=
  changeMemory fun k => { k with findings := change k.findings }

/-- Reasons along another flow: the flow at its end. The current flow stays. -/
def along {α : Type} (start : Flow) (p : Reason α) : Reason Flow := fun m =>
  match p { m with flow := start } with
  | (_, m') => (m'.flow, { m' with flow := m.flow })

def exit : Reason Unit := changeFlow Flow.exit

def believe (entry : Nat) (types : TypeSet) : Reason Unit := changeFlow fun f => f.believe entry types

/-- Notes what a node gives back. -/
def record (number : Nat) (r : Results) : Reason Unit :=
  changeFindings fun f => { f with results := f.results.insert number r }

def recordLoop (number : Nat) (r : Results) : Reason Unit :=
  changeFindings fun f => { f with loopResults := f.loopResults.insert number r }

def recordProcedure (number : Nat) (r : Results) : Reason Unit :=
  changeFindings fun f => { f with procedureResults := f.procedureResults.insert number r }

def recordRestriction (number : Nat) (r : Restriction) : Reason Unit :=
  changeFindings fun f => { f with restrictions := f.restrictions.insert number r }

/-- Notes beliefs for good. -/
def settle (believed : Table Nat TypeSet) : Reason Unit :=
  changeFindings fun f => { f with believed := f.believed.insertAll believed }

/-- Notes for good what only a flow that has ended believed. -/
def retire (outer inner : Flow) : Reason Unit :=
  settle ⟨inner.believed.pairs.filter fun p => !outer.believed.contains p.1⟩

def emit (owner : Nat) (r : Results) : Reason Unit :=
  changeMemory fun k => { k with emitted := accumulate k.emitted owner r }

def giveBack (owner : Nat) (r : Results) : Reason Unit :=
  changeMemory fun k => { k with returned := accumulate k.returned owner r }

def loopWith (owner : Nat) (r : Results) : Reason Unit :=
  changeMemory fun k => { k with looped := accumulate k.looped owner r }

/-- Takes what was emitted for a construct. -/
def takeEmitted (number : Nat) : Reason Results := fun m =>
  ((m.memory.emitted.find? number).getD .nothing,
   { m with memory := { m.memory with emitted := m.memory.emitted.erase number } })

/-- Takes what was returned from a definition. -/
def takeReturned (number : Nat) : Reason Results := fun m =>
  ((m.memory.returned.find? number).getD .nothing,
   { m with memory := { m.memory with returned := m.memory.returned.erase number } })

/-- Takes what each round of a loop over a definition gets, if anything. -/
def takeLooped (number : Nat) : Reason (Option Results) := fun m =>
  (m.memory.looped.find? number, { m with memory := { m.memory with looped := m.memory.looped.erase number } })

end Reason

end Magik
