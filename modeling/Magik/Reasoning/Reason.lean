/-
  Magik.Reasoning.Reason — the types of values, followed through a file.

  One pass forward. Every method and procedure starts with a flow of its own. A conditional
  goes through each of its branches on a copy of the flow, with what the conditions say,
  and joins the branches that did not exit. A loop goes through its body once, on a copy,
  and leaves the flow as it was. Every value has its types noted at its node.
-/

import Magik.Reasoning.World
import Magik.Types.TypeDoc

namespace Magik.World

/-! ## Single steps -/

def isProcedure (n : Node) : Bool :=
  match n.kind with
  | .procedure .. => true
  | _ => false

/-- The number of a value that is the definition of a procedure. -/
def procedureNumber? (n : Node) : Option Nat := if isProcedure n then some n.number else none

/-- Gives types, and a procedure if the value is one, to a name. -/
def assign (w : World) (number : Nat) (procedure : Option Nat) (types : TypeSet) : Reason Unit := do
  match w.scopes.entryOf? number with
  | some entry =>
    Reason.changeMemory fun k =>
      { k with procedures := procedure.elim (k.procedures.erase entry) (k.procedures.insert entry) }
    Reason.believe entry types
  | none => pure ()
  Reason.record number (.single types)

/-- Gives the slots of a result, from an index on, to names. -/
def assignEach (w : World) (r : Results) (index : Nat) : List Node → Reason Unit
  | [] => pure ()
  | n :: ns => do
    w.assign n.number none (r.get index)
    w.assignEach r (index + 1) ns

/-- What a name that is read gives back. -/
def readName (w : World) (number : Nat) : Reason Results := do
  match w.scopes.entryOf? number with
  | some entry => return .single (w.entryTypes (← Reason.memory).package (← Reason.flow) entry)
  | none => return .single .undefined

/-- The types of a declared name without a value. -/
def undeclaredTypes (w : World) (around : Around) (modifier : Modifier) (number : Nat) : Reason TypeSet := do
  let entry := w.scopes.entryOf? number
  match modifier with
  | .localVariable | .constant | .recursive => return .unset
  | .imported =>
    let target := (entry.bind w.scopes.entryAt?).bind (·.imported)
    return (target.bind around.frame.imports.find?).getD .undefined
  | .global | .dynamic =>
    return (entry.map (w.entryTypes (← Reason.memory).package (← Reason.flow))).getD .undefined

/-- The first slot of one of several results. -/
def firstOf (rs : List Results) (i : Nat) : TypeSet := (rs[i]?.getD .unknown).first

def binaryTypes (w : World) (operator : BinaryOperator) (left right : TypeSet) : TypeSet :=
  match operator with
  | .identical | .notIdentical | .xor => .single .boolean
  | .and | .andIf | .or | .orIf => (TypeSet.single .boolean).union right
  | _ => w.operatorTypes operator left right

def unaryResults (w : World) (operator : UnaryOperator) (types : TypeSet) : Results :=
  match operator with
  | .not | .tilde => .ofType .boolean
  | .negate => ((w.invoke types "negated").map (·.1)).getD .unknown
  | .plus => ((w.invoke types "unary_plus").map (·.1)).getD .unknown

/-- One value keeps all its slots; several give their first. -/
def valuesOf : List Results → Results
  | [] => .nothing
  | [r] => r
  | rs => .slots (rs.map Results.first)

/-- Whether an invocation raises an error that nothing around it catches. -/
def raisesError (w : World) (around : Around) (name : String) (children : List Node) : Bool :=
  match children with
  | ⟨_, .identifier receiver, _, _⟩ :: ⟨_, .literal (.symbol condition), _, _⟩ :: _ =>
    name = "raise" && (receiver = "condition" || receiver = "sw:condition") && w.definitions.isError condition &&
      !around.isAttempted (.invocation name)
  | _ => false

def invocation (w : World) (around : Around) (number : Nat) (name : String) (children : List Node) (rs : List Results) :
    Reason Results := do
  if w.raisesError around name children then Reason.exit
  match w.invoke (firstOf rs 0) name with
  | some (result, rounds) =>
    unless rounds.toList.isEmpty do Reason.recordLoop number rounds
    return result
  | none => return .unknown

/-- The procedure that a call calls, if it is known. -/
def calledProcedure? (w : World) (k : Memory) (callee : Node) : Option Nat :=
  match callee.kind with
  | .procedure .. => some callee.number
  | .identifier _ => (w.scopes.entryOf? callee.number).bind (w.procedureOf? k.procedures)
  | _ => none

def call (w : World) (number : Nat) (children : List Node) : Reason Results := do
  let k ← Reason.memory
  match children.head?.bind (w.calledProcedure? k) with
  | none => return .unknown
  | some procedure =>
    match k.findings.loopResults.find? procedure with
    | some rounds => Reason.recordLoop number rounds
    | none => pure ()
    return (k.findings.procedureResults.find? procedure).getD .unknown

def parameterTypes (doc : TypeDoc) (name : String) : ParameterMode → TypeSet
  | .gather => .single .vector
  | .optional => ((doc.parameter? name).getD .undefined).union .unset
  | .required | .assigned => (doc.parameter? name).getD .undefined

/-- Notes the types of parameters; the flow that a body starts with. -/
def parameters (w : World) (doc : TypeDoc) : Flow → List Node → Reason Flow
  | f, [] => return f
  | f, ⟨number, .parameter name mode, _, _⟩ :: rest => do
    let types := parameterTypes doc name mode
    Reason.record number (.single types)
    let f := (w.scopes.entryOf? number).elim f fun entry => f.believe entry types
    w.parameters doc f rest
  | f, _ :: rest => w.parameters doc f rest

/-- Notes the types of loop variables; the flow that a body starts with. -/
def loopVariables (w : World) (rounds : Option Results) (index : Nat) : Flow → List Node → Reason Flow
  | f, [] => return f
  | f, v :: rest => do
    let types := (rounds.map (·.get index)).getD .undefined
    Reason.record v.number (.single types)
    let f := (w.scopes.entryOf? v.number).elim f fun entry => f.believe entry types
    w.loopVariables rounds (index + 1) f rest

/-- The flow that a handler starts with: its variable is a condition. -/
def handlerFlow (w : World) (before : Flow) (binding : Option String) (handler : Node) : Flow :=
  let scope := (handler.child? 0).bind fun body => w.scopes.scopeOpenedBy? body.number
  match scope.bind fun id => binding.bind fun name => w.scopes.entryIn? name id with
  | some entry => before.believe entry (.single .condition)
  | none => before

/-- What a value statement delivers, and where. -/
def deliver (around : Around) (kind : Node.Kind) (r : Results) : Reason Unit :=
  match kind with
  | .returned => do
    around.definition?.forM fun owner => Reason.giveBack owner r
    Reason.exit
  | .emitted =>
    around.emitTarget?.forM fun (owner, target) =>
      if target.isDefinition then Reason.giveBack owner r else Reason.emit owner r
  | .leave label => do
    (around.loopTarget? label).forM fun owner => Reason.emit owner r
    Reason.exit
  | .loopBody => around.definition?.forM fun owner => Reason.loopWith owner r
  | _ => pure ()

/-- What was returned from a definition whose body has been gone through. -/
def finish (number : Nat) : Reason Results := do
  (← Reason.takeLooped number).forM fun rounds => Reason.recordLoop number rounds
  Reason.takeReturned number

/-! ## The pass -/

mutual

/-- A node; what it gives back. -/
def reason (w : World) (around : Around) : Node → Reason Results
  | ⟨number, kind, _, children⟩ => do
    let inner := around.within number kind
    let result ← match kind with
      | .package name => do
        Reason.changeMemory fun k => { k with package := name }
        pure Results.nothing
      | .literal value => pure (.single (literalTypes around.frame value))
      | .vector => do
        let _ ← reasonEach w inner children
        pure (.ofType .vector)
      | .identifier _ => w.readName number
      | .assignment => do
        let r ← reasonLast w inner children
        children.head?.forM fun target =>
          w.assign target.number (children.getLast?.bind procedureNumber?) r.first
        pure r
      | .augmentedAssignment operator => do
        let rs ← reasonEach w inner children
        let types := w.operatorTypes operator (firstOf rs 0) (firstOf rs 1)
        children.head?.forM fun target => w.assign target.number none types
        pure (.single types)
      | .multipleAssignment => do
        let r ← reasonLast w inner children
        w.assignEach r 0 children.dropLast
        pure r
      | .declaration _ true => do
        let r ← reasonLast w inner children
        w.assignEach r 0 children.dropLast
        pure r
      | .declaration modifier false => reasonVariables w inner modifier .nothing children
      | .binary operator => do
        let rs ← reasonEach w inner children
        pure (.single (w.binaryTypes operator (firstOf rs 0) (firstOf rs 1)))
      | .unary operator => do
        let rs ← reasonEach w inner children
        pure (w.unaryResults operator (firstOf rs 0))
      | .invocation name => do
        let rs ← reasonEach w inner children
        w.invocation around number name children rs
      | .call => do
        let _ ← reasonEach w inner children
        w.call number children
      | .returned | .emitted | .leave _ | .loopBody => do
        let rs ← reasonEach w inner children
        deliver around kind (valuesOf rs)
        pure .nothing
      | .continued _ | .thrown => do
        let _ ← reasonEach w inner children
        Reason.exit
        pure .nothing
      | .conditional => do
        let before ← Reason.flow
        let outcomes ← reasonBranches w inner before [] children
        w.merge (number :: (Node.drain children).map Node.number) before outcomes
        Reason.takeEmitted number
      | .forLoop _ => do
        reasonFor w inner [] children
        Reason.takeEmitted number
      | .whileLoop _ => do
        reasonWhile w inner children
        Reason.takeEmitted number
      | .plainLoop _ => do
        let before ← Reason.flow
        let after ← Reason.along before (reasonEach w inner children)
        Reason.retire before after
        Reason.takeEmitted number
      | .attempt => do
        let before ← Reason.flow
        let outcomes ← reasonAttempt w inner before none children
        w.merge (number :: (Node.drain children).map Node.number) before outcomes
        Reason.takeEmitted number
      | .block | .protect | .lock | .catching => do
        let _ ← reasonEach w inner children
        Reason.takeEmitted number
      | .method header => do
        let receiver := TypeSet.single (w.exemplar (← Reason.memory).package header.exemplar)
        reasonDefinition w { inner with frame := ⟨some receiver, .empty⟩ } (TypeDoc.ofLines header.doc systemPackage) children
        finish number
      | .procedure _ _ doc => do
        let imports := around.frame.imports.insertAll (← Reason.flow).believed
        reasonDefinition w { inner with frame := ⟨around.frame.receiver, imports⟩ } (TypeDoc.ofLines doc systemPackage) children
        Reason.recordProcedure number (← finish number)
        pure (.ofType .procedure)
      | .syntaxError => pure .unknown
      | _ => do
        let _ ← reasonEach w inner children
        pure .nothing
    Reason.record number result
    return result

/-- Several nodes in order; what each gives back. -/
def reasonEach (w : World) (around : Around) : List Node → Reason (List Results)
  | [] => return []
  | n :: ns => do
    let r ← reason w around n
    let rs ← reasonEach w around ns
    return r :: rs

/-- The last of several nodes; what it gives back. -/
def reasonLast (w : World) (around : Around) : List Node → Reason Results
  | [] => return .nothing
  | [n] => reason w around n
  | _ :: ns => reasonLast w around ns

/-- Declared names; what the last value gives back. -/
def reasonVariables (w : World) (around : Around) (modifier : Modifier) (last : Results) : List Node → Reason Results
  | [] => return last
  | ⟨number, kind, _, [value]⟩ :: ns => do
    let r ← reason w (around.within number kind) value
    w.assign number (procedureNumber? value) r.first
    reasonVariables w around modifier r ns
  | v :: ns => do
    let types ← w.undeclaredTypes around modifier v.number
    w.assign v.number none types
    reasonVariables w around modifier last ns

/-- The branches of a conditional: the flows they end in. A branch is reached when the
    conditions before it are false; without an `_else` there is one more way through. -/
def reasonBranches (w : World) (around : Around) (before : Flow) (denied : List Restriction) :
    List Node → Reason (List Flow)
  | [] => return [w.narrowed (← Reason.memory).package before denied]
  | ⟨number, kind, _, [condition, body]⟩ :: ns => do
    let inner := around.within number kind
    let package := (← Reason.memory).package
    let tested ← Reason.along (w.narrowed package before denied) (reason w inner condition)
    let r := w.restriction (← Reason.memory) condition
    let outcome ← Reason.along (w.narrowed package tested (denied ++ [r])) (reason w inner body)
    Reason.recordRestriction condition.number r
    let outcomes ← reasonBranches w around before (denied ++ [r.negate]) ns
    return outcome :: outcomes
  | ⟨number, kind, _, children⟩ :: _ => do
    let package := (← Reason.memory).package
    let outcome ← Reason.along (w.narrowed package before denied) (reasonEach w (around.within number kind) children)
    return [outcome]

/-- The parts of a for loop; its variables have been passed. -/
def reasonFor (w : World) (around : Around) (vars : List Node) : List Node → Reason Unit
  | [] => pure ()
  | [_] => pure ()
  | [iterable, body] => do
    let _ ← reason w around iterable
    let before ← Reason.flow
    let rounds := (← Reason.memory).findings.loopResults.find? iterable.number
    let start ← w.loopVariables rounds 0 before vars
    let after ← Reason.along start (reason w around body)
    Reason.retire before after
  | v :: ns => reasonFor w around (vars ++ [v]) ns

/-- The condition and the body of a while loop. -/
def reasonWhile (w : World) (around : Around) : List Node → Reason Unit
  | [condition, body] => do
    let _ ← reason w around condition
    let before ← Reason.flow
    let k ← Reason.memory
    let r := w.restriction k condition
    Reason.recordRestriction condition.number r
    let after ← Reason.along (w.narrowed k.package before [r]) (reason w around body)
    Reason.retire before after
  | _ => pure ()

/-- The parts of a try: the flows that its body and its handlers end in. -/
def reasonAttempt (w : World) (around : Around) (before : Flow) (binding : Option String) :
    List Node → Reason (List Flow)
  | [] => return []
  | n :: ns => do
    match n.kind with
    | .attemptVariable name => do
      Reason.record n.number (.ofType .condition)
      reasonAttempt w around before (some name) ns
    | .handler _ => do
      let outcome ← Reason.along (w.handlerFlow before binding n) (reason w around n)
      let outcomes ← reasonAttempt w around before binding ns
      return outcome :: outcomes
    | _ => do
      let outcome ← Reason.along before (reason w around n)
      let outcomes ← reasonAttempt w around before binding ns
      return outcome :: outcomes

/-- The parameters and the body of a definition. -/
def reasonDefinition (w : World) (around : Around) (doc : TypeDoc) : List Node → Reason Unit
  | [list, body] => do
    let start ← w.parameters doc .start list.children
    let after ← Reason.along start (reason w around body)
    Reason.settle after.believed
  | _ => pure ()

end

/-- What is found in a file. -/
def findings (w : World) (package : String) (tree : SyntaxTree) : Findings :=
  let items := w.reasonEach (Around.file.within tree.root.number tree.root.kind) tree.root.children
  match (do let _ ← items; Reason.settle (← Reason.flow).believed : Reason Unit) ⟨.start, .start package⟩ with
  | (_, m) => m.memory.findings

end Magik.World
