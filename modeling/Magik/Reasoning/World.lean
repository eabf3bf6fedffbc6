/-
  Magik.Reasoning.World — what names, operators and methods mean to the reasoning.
-/

import Magik.Definitions.Basic
import Magik.Narrowing.Derive
import Magik.Reasoning.Flow

namespace Magik

/-- What stays the same while a file is reasoned about. -/
structure World where
  scopes : ScopeTree
  definitions : Definitions

namespace World

/-! ## Names -/

/-- The types a global name may stand for: as written with a package, else in the package
    in force and then in the system package. -/
def candidates (package name : String) : List TypeName :=
  if ':' ∈ name.toList then [.parse name none]
  else .parse name (some package) :: if package = systemPackage then [] else [.system name]

/-- What one candidate is known as. -/
def candidateTypes? (w : World) (t : TypeName) : Option TypeSet :=
  if (w.definitions.exemplar? t).isSome then some (.single t) else w.definitions.global? t

/-- The types of a global. -/
def globalTypes (w : World) (package name : String) : TypeSet :=
  ((candidates package name).findSome? w.candidateTypes?).getD .undefined

def isExemplar (w : World) (package name : String) : Bool :=
  (candidates package name).any fun t => (w.definitions.exemplar? t).isSome

/-- The exemplar of a method; the first candidate if none is known. -/
def exemplar (w : World) (package name : String) : TypeName :=
  let named := candidates package name
  ((named.find? fun t => (w.definitions.exemplar? t).isSome).or named.head?).getD .undefined

/-- The types of an entry along a flow. Globals and dynamics that no belief covers are
    looked up. -/
def entryTypes (w : World) (package : String) (f : Flow) (entry : Nat) : TypeSet :=
  match f.believed.find? entry with
  | some types => types
  | none =>
    match w.scopes.entryAt? entry with
    | some e => if e.kind = .global ∨ e.kind = .dynamic then w.globalTypes package e.name else .undefined
    | none => .undefined

/-! ## Operators and methods -/

/-- The types of an operation: all pairs of operand types have to be known. -/
def operatorTypes (w : World) (operator : BinaryOperator) (left right : TypeSet) : TypeSet :=
  if left.isUndefined || right.isUndefined then .undefined
  else
    let pairs := left.members.flatMap fun l => right.members.map fun r => w.definitions.operator? operator.symbol l r
    match pairs.mapM id with
    | some known => .ofList (known.flatMap TypeSet.members)
    | none => .undefined

/-- What a method gives back and gives to each round when called on one type. -/
def invokeOn (w : World) (name : String) (t : TypeName) : Option (Results × Results) :=
  (w.definitions.method? t name).map fun m =>
    (m.result.withReceiver (.single t), m.loopResult.withReceiver (.single t))

/-- The same for all types of the receiver; all of them have to know the method. -/
def invoke (w : World) (types : TypeSet) (name : String) : Option (Results × Results) :=
  if types.isUndefined then none
  else
    match types.members.mapM (w.invokeOn name) with
    | some (first :: rest) => some (rest.foldl (fun a b => (a.1.combine b.1, a.2.combine b.2)) first)
    | _ => none

/-- The procedure last assigned to an entry, or to the one it takes over. -/
def procedureOf? (w : World) (procedures : Table Nat Nat) (entry : Nat) : Option Nat :=
  match procedures.find? entry with
  | some number => some number
  | none =>
    match (w.scopes.entryAt? entry).bind (·.imported) with
    | some target => if target < entry then w.procedureOf? procedures target else none
    | none => none
termination_by entry

/-! ## Literals -/

/-- The largest integer that is not a bignum. -/
def largestSmallInteger : Nat := Nat.pow 2 29

def literalTypes (frame : Frame) : Literal → TypeSet
  | .integer value => .single (if largestSmallInteger < value then .bignum else .integer)
  | .float _ => .single .float
  | .string _ => .single .text16
  | .symbol _ => .single .symbol
  | .character _ => .single .character
  | .unset => .unset
  | .maybe => .single .maybe
  | .true | .false => .single .boolean
  | .self | .clone => frame.receiverTypes
  | .super => .undefined
  | .thisThread => .ofList [.lightThread, .heavyThread]
  | .globalReference _ => .single .globalVariable

/-! ## Conditions and branches -/

/-- The restriction of a condition whose parts have been reasoned about. -/
def restriction (w : World) (k : Memory) (condition : Node) : Restriction :=
  Evidence.derive
    { scopes := w.scopes
      valueTypes := fun number => ((k.findings.results.find? number).map Results.first).getD .undefined
      isExemplar := w.isExemplar k.package }
    condition

/-- A flow on which restrictions hold. -/
def narrowed (w : World) (package : String) (base : Flow) (restrictions : List Restriction) : Flow :=
  let current := w.entryTypes package base
  (Restriction.combine restrictions current).pairs.foldl (fun f p => f.believe p.1 (p.2.apply (current p.1))) base

/-- Whether an entry is stored in a scope that one of some nodes opened. -/
def isStoredWithin (w : World) (numbers : List Nat) (entry : Nat) : Bool :=
  ((w.scopes.entryAt? entry).bind fun e => w.scopes.scopes[e.scope]?).any fun s => numbers.contains s.node

/-- The union of what the flows say of an entry. A flow that says nothing of an entry
    stored inside the construct never saw it. -/
def mergedTypes? (w : World) (package : String) (inside : List Nat) (live : List Flow) (entry : Nat) : Option TypeSet :=
  let seen := live.filterMap fun f =>
    match f.believed.find? entry with
    | some types => some types
    | none => if w.isStoredWithin inside entry then none else some (w.entryTypes package f entry)
  match seen with
  | [] => none
  | first :: rest => some (rest.foldl TypeSet.union first)

/-- The members of a set, those that were there before in their old order. -/
def inOrderOf (before : Option TypeSet) (types : TypeSet) : TypeSet :=
  match before with
  | some old =>
    if types.isUndefined then types
    else .ofList (old.members.filter types.contains ++ types.members.filter fun t => !old.contains t)
  | none => types

/-- The flow after a construct whose branches ended in these live flows. -/
def mergeLive (w : World) (package : String) (inside : List Nat) (before : Flow) (live : List Flow) : Flow :=
  let entries := (live.flatMap fun f => f.believed.keys).eraseDups
  { believed := entries.foldl (fun merged entry =>
      match w.mergedTypes? package inside live entry with
      | some types => merged.insert entry (inOrderOf (before.believed.find? entry) types)
      | none => merged) .empty
    exited := false }

/-- Joins the branches of a construct: those that exited do not count, and if all did, so
    does the flow. -/
def merge (w : World) (inside : List Nat) (before : Flow) (outcomes : List Flow) : Reason Unit := do
  (outcomes.filter (·.exited)).forM (Reason.retire before)
  match outcomes.filter (!·.exited) with
  | [] => Reason.setFlow before.exit
  | live => Reason.setFlow (w.mergeLive (← Reason.memory).package inside before live)

end World

end Magik
