/-
  Magik.Proofs.Reasoning.Keeping — what reasoning leaves as it was.

  Only a package line changes it: whatever else is reasoned about, the package in force is
  the same as before (`Reasons.keeps`). A definition does not change the flow around it
  either (`Reasons.flow_of_isDefinition`).
-/

import Magik.Proofs.Reasoning.Recording

namespace Magik

namespace Node

/-- The node is laid out by the rules, and is neither a file nor a package line. -/
structure Inner (n : Node) : Prop where
  formed : n.Formed
  file : n.kind ≠ .file
  package {name : String} : n.kind ≠ .package name

theorem Inner.child {n c : Node} (h : n.Inner) (hc : c ∈ n.children) : c.Inner where
  formed := h.formed.child hc
  file := h.formed.layout.ne_file hc
  package hk := h.file (h.formed.layout.of_topLevel hc (.inr ⟨_, hk⟩))

theorem Inner.below {n m : Node} {as : List Node} (h : n.Inner) (hw : Way n m as) : m.Inner := by
  induction hw with
  | root => exact h
  | child _ hc ih => exact ih.child hc

/-- Nodes inside of others, each with numbers of its own. -/
structure Enclosed (ns : List Node) : Prop extends Proper ns where
  inner : ∀ n ∈ ns, n.Inner

namespace Enclosed

variable {n c : Node} {ns ms : List Node}

theorem children (h : Enclosed [n]) : Enclosed n.children where
  toProper := h.inside (by simp)
  inner _ hc := (h.inner n (by simp)).child hc

theorem of_sublist (h : Enclosed ns) (hs : ms.Sublist ns) : Enclosed ms where
  toProper := h.toProper.of_sublist hs
  inner c hc := h.inner c (hs.subset hc)

theorem of_mem (h : Enclosed ns) (hc : c ∈ ns) : Enclosed [c] := h.of_sublist (List.singleton_sublist.mpr hc)

theorem tail (h : Enclosed (c :: ns)) : Enclosed ns := h.of_sublist (List.sublist_cons_self c ns)

end Enclosed

end Node

namespace World

variable {w : World} {number : Nat} {around : Around} {ns : List Node} {α : Type} {p : Reason α} {n : Node}
  {before : Flow}

/-! ## The package in force -/

/-- The package in force stays the same. -/
def Keeps {α : Type} (p : Reason α) : Prop := ∀ m : Moment, (p m).2.memory.package = m.memory.package

theorem keeps_of_calm {numbers conditions : List Nat} (h : Calm numbers conditions p) : Keeps p :=
  fun m => (h m).package

theorem keeps_merge (inside : List Nat) (before : Flow) (outcomes : List Flow) : Keeps (w.merge inside before outcomes) :=
  keeps_of_calm (.merge inside before outcomes : Calm [] [] _)

theorem keeps_assign (number : Nat) (procedure : Option Nat) (types : TypeSet) :
    Keeps (w.assign number procedure types) := by
  unfold assign
  cases w.scopes.entryOf? number <;> exact fun _ => rfl

/-- A package stays in force, as no package line is among the nodes. -/
def inForce (w : World) (name : String) : Invariant w :=
  { ofKind w TypeSet.closed_true (supplies_true w) with
    package := (· = name)
    node := Node.Inner
    child := .child
    packaged := fun h hk => absurd hk h.package
    believed := fun _ _ _ _ => trivial
    caught := fun _ _ _ => trivial
    narrowed := fun _ _ _ => trivial
    joined := fun _ _ _ => trivial
    tested := fun _ _ _ => trivial }

theorem keeps_of_records {A : String → α → Prop} (h : ∀ name, Records (inForce w name) () (A name) p) : Keeps p := by
  intro m
  obtain ⟨hflow, hmemory⟩ := m.all_true
  exact (h m.memory.package m ⟨⟨hflow, trivial⟩, hmemory, rfl⟩).2.memory.package

theorem keeps_deliver (around : Around) (kind : Node.Kind) (r : Results) : Keeps (deliver around kind r) := by
  intro m
  obtain ⟨-, _, _, _, he⟩ := deliver_waiting around kind r m
  rw [he]

theorem Reasons.keeps {p : Reason Results} (h : Reasons w around n p) (hn : n.Inner) : Keeps p :=
  keeps_of_records fun name => h.records (I := inForce w name) (n.framed_true _) hn ()

theorem ReasonsBranches.keeps {denied : List Restriction} {p : Reason (List Flow)}
    (h : ReasonsBranches w around before denied ns p) (hn : ∀ n ∈ ns, n.Inner) : Keeps p :=
  keeps_of_records fun name => h.records (I := inForce w name) ⟨fun _ _ => trivial, trivial⟩
    (fun r _ => ⟨r.all_true, trivial⟩) (fun n _ => n.framed_true _) hn

theorem ReasonsHandlers.keeps {binding : Option String} {p : Reason (List Flow)}
    (h : ReasonsHandlers w around before binding ns p) (hn : ∀ n ∈ ns, n.Inner) : Keeps p :=
  keeps_of_records fun name => h.records (I := inForce w name) ⟨fun _ _ => trivial, trivial⟩ (fun n _ => n.framed_true _) hn

/-! ## Flows that stay as they are -/

theorem flow_finish (number : Nat) (m : Moment) : (finish number m).2.flow = m.flow := by
  unfold finish
  show ((Option.forM _ _ : Reason Unit) _).2.flow = m.flow
  cases m.memory.looped.find? number with
  | none => rfl
  | some rounds => rfl

theorem BindsParameters.flow_eq {doc : TypeDoc} {f : Flow} {ps : List Node} {p : Reason Flow}
    (h : BindsParameters w doc f ps p) (m : Moment) : (p m).2.flow = m.flow := by
  induction h generalizing m with
  | nil => rfl
  | cons _ ih => exact ih _

theorem flow_loopVariables (rounds : Option Results) (index : Nat) (f : Flow) (vars : List Node) (m : Moment) :
    (w.loopVariables rounds index f vars m).2.flow = m.flow := by
  induction vars generalizing index f m with
  | nil => rfl
  | cons v vars ih => exact ih _ _ _

theorem Starts.flow_eq {kind : Node.Kind} {heads tests : List Node} {start : Flow → Reason Flow}
    (h : Starts w kind heads tests start) (before : Flow) (m : Moment) : (start before m).2.flow = m.flow := by
  cases h with
  | forLoop => exact flow_loopVariables _ _ _ _ m
  | _ => rfl

/-- What is believed outside of a definition is what it was, behind it. -/
theorem Reasons.flow_of_isDefinition {p : Reason Results} (h : Reasons w around n p) (hk : n.kind.isDefinition)
    (m : Moment) : (p m).2.flow = m.flow := by
  cases h with
  | definition hd hp _ => cases hd <;> exact (flow_finish _ _).trans (hp.flow_eq _)
  | @straight _ _ kind _ _ _ _ _ _ hq =>
    have hnot : kind.isStraight = false := by cases kind <;> first | rfl | cases hk
    cases hnot.symm.trans hq.isStraight
  | loop _ ht _ => cases ht <;> cases hk
  | _ => cases hk

end World

end Magik
