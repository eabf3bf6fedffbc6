/-
  Magik.Proofs.Reasoning.Passage — what going through a node does to the memory.

  `Passes around n k k'`: going through `n`, with these nodes around it, leaves the memory
  `k'` where it found `k`. A node takes up its parts in order and then does one of five
  things: it notes nothing of itself, it notes what it gives back, it sends its values to
  one of the nodes around it, or it takes what was sent to it, as a construct or as a
  definition. What else happens on the way is quiet: it is noted at names that the node
  gives values to, and nothing is sent or taken.
-/

import Magik.Proofs.Reasoning.Frame
import Magik.Proofs.Reasoning.Rules

namespace Magik

variable {n : Node}

open Node (numbersAll)

/-! ## Values on their way -/

namespace Memory

/-- What was sent to a node; nothing if no value was. -/
def sentTo (k : Memory) (c : Channel) (number : Nat) : Results := ((k.waiting c).find? number).getD .nothing

def send (k : Memory) (r : Results) : Channel × Nat → Memory
  | (.emitted, owner) => { k with emitted := accumulate k.emitted owner r }
  | (.returned, owner) => { k with returned := accumulate k.returned owner r }
  | (.looped, owner) => { k with looped := accumulate k.looped owner r }

def take (k : Memory) (number : Nat) : Channel → Memory
  | .emitted => { k with emitted := k.emitted.erase number }
  | .returned => { k with returned := k.returned.erase number }
  | .looped => { k with looped := k.looped.erase number }

def noteProcedure (k : Memory) (number : Nat) (r : Results) : Memory :=
  { k with findings := { k.findings with procedureResults := k.findings.procedureResults.insert number r } }

/-- Takes what was sent to a definition; what each round of a loop gets is noted. -/
def finish (k : Memory) (number : Nat) : Memory :=
  (((k.looped.find? number).elim (k.take number .looped) ((k.take number .looped).noteLoop number))).take number .returned

end Memory

namespace Node

namespace Kind

/-- Nodes of which nothing is noted. -/
def isSilent : Kind → Bool
  | .file | .parameterList | .branch | .otherwise => true
  | _ => false

/-- Nodes that neither send values nor are sent any. -/
def isOrdinary (k : Kind) : Bool := !k.isSilent && !k.delivers && !Around.givesBack k

/-- Constructs inside of definitions that values are sent to. -/
def isConstruct (k : Kind) : Bool := Around.givesBack k && !k.isDefinition

end Kind

/-- The nearest loop around a statement that it can leave: one of its definition, and of its
    label if it has one. -/
def loopLeft? (label : Option String) (around : List Node) : Option Node :=
  (around.takeWhile fun p => !p.kind.isDefinition).find? fun p =>
    (Around.loopLabel? p.kind).any fun own => label = none ∨ label = own

/-- Where the values of a statement go, with these nodes around it. -/
def destination? (around : List Node) : Kind → Option (Channel × Nat)
  | .returned => (around.find? fun p => p.kind.isDefinition).map fun p => (.returned, p.number)
  | .emitted => (around.find? fun p => Around.givesBack p.kind).map fun p =>
      (if p.kind.isDefinition then .returned else .emitted, p.number)
  | .leave label => (loopLeft? label around).map fun p => (.emitted, p.number)
  | .loopBody => (around.find? fun p => p.kind.isDefinition).map fun p => (.looped, p.number)
  | _ => none

/-- What is noted of a node. -/
def resultIn (f : Findings) (n : Node) : Results := (f.results.find? n.number).getD .unknown

/-- The values of a statement: all slots of its one part, or the first slot of each of several. -/
def valuesIn (f : Findings) (n : Node) : Results :=
  match n.children with
  | [] => .nothing
  | [c] => c.resultIn f
  | cs => .slots (cs.map fun c => (c.resultIn f).first)

theorem valuesIn_eq (f : Findings) (n : Node) : n.valuesIn f = World.valuesOf (n.children.map (resultIn f)) := by
  unfold valuesIn
  match n.children with
  | [] => rfl
  | [c] => rfl
  | c :: d :: cs => simp [World.valuesOf, Function.comp_def]

theorem valuesIn_congr {f f' : Findings} (n : Node)
    (h : ∀ c ∈ n.children, f'.results.find? c.number = f.results.find? c.number) : n.valuesIn f' = n.valuesIn f := by
  have hresults : n.children.map (resultIn f') = n.children.map (resultIn f) :=
    List.map_congr_left fun c hc => by rw [resultIn, h c hc, resultIn]
  rw [valuesIn_eq, hresults, ← valuesIn_eq]

end Node

/-! ## Passages -/

/-- Names among the children of a node, which it gives values to in its own time. -/
def Late (n : Node) (late : List Node) : Prop := ∀ v ∈ late, v ∈ n.children ∧ v.children = [] ∧ v.kind.isOrdinary

/-- What a node does when its parts have been gone through, and what is noted of it. -/
inductive Closing (around : List Node) (n : Node) (k : Memory) : Memory → Results → Prop
  | ordinary {k' r} (hk : n.kind.isOrdinary) (hq : Quiet [n.number] [] k k') : Closing around n k k' r
  | statement (hk : n.kind.delivers) :
      Closing around n k ((Node.destination? around n.kind).elim k (k.send (n.valuesIn k.findings))) .nothing
  | construct (hk : n.kind.isConstruct) : Closing around n k (k.take n.number .emitted) (k.sentTo .emitted n.number)
  | method {header} (hk : n.kind = .method header) :
      Closing around n k (k.finish n.number) (k.sentTo .returned n.number)
  | procedure {name iterates doc} (hk : n.kind = .procedure name iterates doc) :
      Closing around n k ((k.finish n.number).noteProcedure n.number (k.sentTo .returned n.number)) (.ofType .procedure)

mutual

inductive Passes : List Node → Node → Memory → Memory → Prop
  | silent {around n k k'} (hk : n.kind.isSilent) (h : Parts around n [] n.children k k') : Passes around n k k'
  | closed {around n late k k₁ k₂ r} (hl : Late n late) (h : Parts around n late n.children k k₁)
      (hn : ∀ v ∈ late, (k₁.findings.results.find? v.number).isSome) (hq : Closing around n k₁ k₂ r) :
      Passes around n k (k₂.note n.number r)

/-- The parts of a node, in order. -/
inductive Parts : List Node → Node → List Node → List Node → Memory → Memory → Prop
  | done {around n late k} : Parts around n late [] k k
  | quiet {around n late parts k k' k''} (hq : Quiet (late.map Node.number) (numbersAll n.children) k k')
      (hs : Parts around n late parts k' k'') : Parts around n late parts k k''
  | visit {around n late c parts k k' k''} (h : Passes (n :: around) c k k') (hs : Parts around n late parts k' k'') :
      Parts around n late (c :: parts) k k''
  | skip {around n late v parts k k'} (hv : v ∈ late) (hs : Parts around n late parts k k') :
      Parts around n late (v :: parts) k k'

end

/-! ## What is left as it is -/

namespace Memory

variable (k : Memory) (number : Nat) (r : Results)

@[simp] theorem waiting_note : (k.note number r).waiting = k.waiting := rfl

@[simp] theorem waiting_noteProcedure : (k.noteProcedure number r).waiting = k.waiting := rfl

@[simp] theorem findings_send (d : Channel × Nat) : (k.send r d).findings = k.findings := by
  obtain ⟨c, owner⟩ := d
  cases c <;> rfl

@[simp] theorem findings_take (c : Channel) : (k.take number c).findings = k.findings := by
  cases c <;> rfl

theorem find?_waiting_send (c c' : Channel) (owner j : Nat) :
    ((k.send r (c, owner)).waiting c').find? j =
      if c = c' ∧ owner = j then some ((((k.waiting c).find? owner).map (·.combine r)).getD r)
      else (k.waiting c').find? j := by
  cases c <;> cases c' <;> simp [send, waiting, accumulate, Table.find?_insert]

theorem find?_waiting_take (c c' : Channel) (j : Nat) :
    ((k.take number c).waiting c').find? j = if c = c' ∧ number = j then none else (k.waiting c').find? j := by
  cases c <;> cases c' <;> simp [take, waiting, Table.find?_erase]

variable {number} {numbers conditions : List Nat} (hn : number ∈ numbers)

include hn in
theorem notes_noteProcedure : NotesAt numbers conditions k (k.noteProcedure number r) := by
  refine ⟨fun {j} hj => ⟨rfl, rfl, ?_⟩, fun _ => rfl, id⟩
  have hne : number ≠ j := fun he => hj (he ▸ hn)
  simp [noteProcedure, Table.find?_insert, hne]

include hn in
theorem notes_finish : NotesAt numbers conditions k (k.finish number) := by
  unfold finish
  cases k.looped.find? number with
  | none => exact .of_findings_eq (by simp)
  | some rounds =>
    have htaken : NotesAt numbers conditions k (k.take number .looped) := .of_findings_eq (by simp)
    exact (htaken.trans (.noteLoop rounds hn)).trans (.of_findings_eq (by simp))

end Memory

theorem number_not_mem_children (h : n.numbers.Nodup) : n.number ∉ numbersAll n.children := by
  rw [Node.numbers_eq, List.nodup_cons] at h
  exact h.1

theorem Late.nil (n : Node) : Late n [] := fun _ h => by cases h

theorem Late.not_mem {late : List Node} {j : Nat} (hl : Late n late) (hj : j ∉ numbersAll n.children) :
    j ∉ late.map Node.number := fun h => by
  obtain ⟨v, hv, rfl⟩ := List.mem_map.mp h
  exact hj (Node.numbers_subset (hl v hv).1 _ v.number_mem_numbers)

/-- A node notes what it does at itself. -/
theorem Closing.notes {around : List Node} {k k' : Memory} {r : Results} (h : Closing around n k k' r) :
    NotesAt [n.number] [] k k' := by
  have hn : n.number ∈ [n.number] := List.mem_singleton_self _
  cases h with
  | ordinary _ hq => exact hq.toNotesAt
  | statement => exact .of_findings_eq (by cases Node.destination? around n.kind <;> simp)
  | construct => exact .of_findings_eq (by simp)
  | method => exact k.notes_finish hn
  | procedure => exact (k.notes_finish hn).trans (Memory.notes_noteProcedure _ _ hn)

mutual

/-- Nothing is noted at nodes outside, nor restrictions at conditions outside. -/
theorem Passes.notes {around : List Node} {n : Node} {k k' : Memory} (h : Passes around n k k') :
    NotesAt n.numbers n.numbers k k' := by
  have hown : [n.number] ⊆ n.numbers := by simp [n.number_mem_numbers]
  have hchildren : numbersAll n.children ⊆ n.numbers := by
    rw [Node.numbers_eq]
    exact List.subset_cons_self _ _
  match h with
  | .silent hk h => exact h.notes.mono (by simpa using hchildren) (by simpa using hchildren)
  | @Passes.closed _ _ late _ _ _ _ hl h hn hq =>
    have hlate : numbersAll n.children ++ late.map Node.number ⊆ n.numbers := by
      refine List.append_subset.mpr ⟨hchildren, fun j hj => ?_⟩
      obtain ⟨v, hv, rfl⟩ := List.mem_map.mp hj
      exact hchildren (Node.numbers_subset (hl v hv).1 _ v.number_mem_numbers)
    have hparts := h.notes.mono hlate (by simpa using hchildren)
    exact (hparts.trans (hq.notes.mono hown (List.nil_subset _))).trans (.note _ n.number_mem_numbers)

theorem Parts.notes {around late parts : List Node} {n : Node} {k k' : Memory} (h : Parts around n late parts k k') :
    NotesAt (numbersAll parts ++ late.map Node.number) (numbersAll n.children ++ numbersAll parts) k k' := by
  match h with
  | .done => exact .of_findings_eq rfl
  | .quiet hq hs =>
    exact (hq.toNotesAt.mono (List.subset_append_right _ _) (List.subset_append_left _ _)).trans hs.notes
  | .visit h hs =>
    rw [Node.numbersAll_cons]
    exact (h.notes.mono (by simp) (by simp)).trans (hs.notes.mono (by simp) (by simp))
  | .skip hv hs =>
    rw [Node.numbersAll_cons]
    exact hs.notes.mono (by simp) (by simp)

end

end Magik
