/-
  Magik.Proofs.Reasoning.Coverage — of which nodes something is noted.

  Going through a node, something is noted of every node below it that is not silent, by
  whatever route the node is taken up (`Passes.covers`), and nothing else is noted
  (`Passes.origin`). So after a file has been gone through, the nodes with a result are
  those of the tree that are not silent.
-/

import Magik.Proofs.Grammar.WellFormed
import Magik.Proofs.Reasoning.Passing

namespace Magik

open Node (Way)

theorem Node.Kind.isSilent_of_isOrdinary {kind : Kind} (h : kind.isOrdinary) : kind.isSilent = false := by
  cases kind <;> first | rfl | cases h

theorem Closing.isSilent {around : List Node} {n : Node} {k k' : Memory} {r : Results} (h : Closing around n k k' r) :
    n.kind.isSilent = false := by
  generalize hkind : n.kind = kind
  cases h with
  | ordinary hk | statement hk | construct hk | method hk | procedure hk =>
    rw [hkind] at hk
    cases kind <;> first | rfl | cases hk

theorem Memory.isSome_results_note (k : Memory) (number : Nat) (r : Results) :
    ((k.note number r).findings.results.find? number).isSome := by
  rw [Memory.results_note, if_pos rfl]
  rfl

/-! ## Every node is noted -/

/-- Something is noted of the node and of all below it, the silent ones apart. -/
def Covers (k : Memory) (n : Node) : Prop :=
  ∀ m as, Way n m as → m.kind.isSilent = false → (k.findings.results.find? m.number).isSome

namespace Covers

variable {k k' : Memory} {n v : Node}

/-- A name with nothing below it that has been noted. -/
theorem leaf (hc : v.children = []) (hs : (k.findings.results.find? v.number).isSome) : Covers k v := by
  intro m as hw _
  rcases hw.cases_root with ⟨rfl, -⟩ | ⟨c, hmem, -⟩
  · exact hs
  · rw [hc] at hmem
    cases hmem

/-- A node that has been noted itself, or is silent. -/
theorem node (hn : n.kind.isSilent = false → (k.findings.results.find? n.number).isSome)
    (hc : ∀ c ∈ n.children, Covers k c) : Covers k n := by
  intro m as hw hs
  rcases hw.cases_root with ⟨rfl, -⟩ | ⟨c, hmem, bs, hw', -⟩
  · exact hn hs
  · exact hc c hmem m bs hw' hs

theorem later (h : Covers k n) (hk : ∀ {j}, (k.findings.results.find? j).isSome → (k'.findings.results.find? j).isSome) :
    Covers k' n :=
  fun m as hw hs => hk (h m as hw hs)

/-- A node that is noted after its parts, of which it noted some in its own time. -/
theorem noted {late : List Node} (hl : Late n late) (hn : ∀ v ∈ late, (k.findings.results.find? v.number).isSome)
    (hc : ∀ c ∈ n.children, c ∈ late ∨ Covers k c)
    (hk : ∀ {j}, (k.findings.results.find? j).isSome → (k'.findings.results.find? j).isSome) (r : Results) :
    Covers (k'.note n.number r) n := by
  refine node (fun _ => k'.isSome_results_note _ _) fun c hmem => ?_
  have hcovers : Covers k c := (hc c hmem).elim (fun hv => leaf (hl c hv).2.1 (hn c hv)) id
  exact (hcovers.later hk).later (Memory.isSome_note r _)

end Covers

mutual

theorem Passes.covers {around : List Node} {n : Node} {k k' : Memory} (h : Passes around n k k') : Covers k' n := by
  match h with
  | .silent hk h =>
    refine .node (fun hs => ?_) fun c hc => (h.covers c hc).resolve_left (by simp)
    rw [hk] at hs
    cases hs
  | .closed hl h hn hq => exact .noted hl hn h.covers hq.notes.kept _

theorem Parts.covers {around late parts : List Node} {n : Node} {k k' : Memory} (h : Parts around n late parts k k') :
    ∀ c ∈ parts, c ∈ late ∨ Covers k' c := by
  match h with
  | .done => simp
  | .quiet hq hs => exact hs.covers
  | .visit h hs => exact List.forall_mem_cons.mpr ⟨.inr (h.covers.later hs.notes.kept), hs.covers⟩
  | .skip hv hs => exact List.forall_mem_cons.mpr ⟨.inl hv, hs.covers⟩

end

/-! ## Nothing else is noted -/

/-- A node below, or the node itself, has this number and is not silent. -/
def Audible (n : Node) (number : Nat) : Prop := ∃ m as, Way n m as ∧ m.kind.isSilent = false ∧ m.number = number

namespace Audible

variable {n c : Node} {j : Nat} {k : Memory}

theorem self (h : n.kind.isSilent = false) : Audible n n.number := ⟨n, [], .root, h, rfl⟩

theorem child (h : Audible c j) (hc : c ∈ n.children) : Audible n j := by
  obtain ⟨m, as, hw, hs, he⟩ := h
  exact ⟨m, _, hw.under hc, hs, he⟩

/-- What is noted of the parts of a node is noted of nodes below it. -/
theorem of_parts {late : List Node} (hl : Late n late)
    (h : (k.findings.results.find? j).isSome ∨ j ∈ late.map Node.number ∨ ∃ c ∈ n.children, Audible c j) :
    (k.findings.results.find? j).isSome ∨ Audible n j := by
  rcases h with h | h | ⟨c, hc, h⟩
  · exact .inl h
  · obtain ⟨v, hv, rfl⟩ := List.mem_map.mp h
    exact .inr ((self (Node.Kind.isSilent_of_isOrdinary (hl v hv).2.2)).child (hl v hv).1)
  · exact .inr (h.child hc)

/-- What is noted when a node is noted last. -/
theorem of_note {r : Results} {P : Prop} (hs : n.kind.isSilent = false)
    (hj : ((k.note n.number r).findings.results.find? j).isSome)
    (h : n.number ≠ j → (k.findings.results.find? j).isSome → P ∨ Audible n j) : P ∨ Audible n j := by
  rw [Memory.results_note] at hj
  split at hj
  next he => exact .inr (he ▸ self hs)
  next hne => exact h hne hj

end Audible

mutual

theorem Passes.origin {around : List Node} {n : Node} {k k' : Memory} {j : Nat} (h : Passes around n k k')
    (hj : (k'.findings.results.find? j).isSome) : (k.findings.results.find? j).isSome ∨ Audible n j := by
  match h with
  | .silent hk h => exact Audible.of_parts (.nil n) (h.origin hj)
  | .closed hl h hn hq =>
    refine Audible.of_note hq.isSilent hj fun hne hj => Audible.of_parts hl (h.origin ?_)
    rwa [(hq.notes.same (by simpa using hne.symm)).results] at hj

theorem Parts.origin {around late parts : List Node} {n : Node} {k k' : Memory} {j : Nat}
    (h : Parts around n late parts k k') (hj : (k'.findings.results.find? j).isSome) :
    (k.findings.results.find? j).isSome ∨ j ∈ late.map Node.number ∨ ∃ c ∈ parts, Audible c j := by
  match h with
  | .done => exact .inl hj
  | .quiet hq hs =>
    by_cases hl : j ∈ late.map Node.number
    · exact .inr (.inl hl)
    · refine (hs.origin hj).imp_left fun h => ?_
      rwa [(hq.same hl).results] at h
  | .visit h hs =>
    rcases hs.origin hj with h' | h' | ⟨c, hc, h'⟩
    · exact (h.origin h').imp_right fun ha => .inr ⟨_, .head _, ha⟩
    · exact .inr (.inl h')
    · exact .inr (.inr ⟨c, .tail _ hc, h'⟩)
  | .skip hv hs =>
    refine (hs.origin hj).imp_right (Or.imp_right ?_)
    rintro ⟨c, hc, h'⟩
    exact ⟨c, .tail _ hc, h'⟩

end

/-! ## Files -/

namespace World

/-- After a file has been gone through, a result is noted at the numbers of its nodes, except of the file
    itself, of parameter lists and of the branches of conditionals, and at no other number. -/
theorem findings_cover_nodes (w : World) (package : String) (tokens : List Token) (number : Nat) :
    ((w.findings package (Grammar.parse tokens).1).results.find? number).isSome ↔
      ∃ n ∈ (Grammar.parse tokens).1.nodes, n.number = number ∧
        ¬ (n.kind = .file ∨ n.kind = .parameterList ∨ n.kind = .branch ∨ n.kind = .otherwise) := by
  have hpasses := passes_file (Grammar.parse_formedFile tokens) w package
  rw [← findings_remembered]
  constructor
  · intro hsome
    obtain hbefore | ⟨m, as, hw, hs, he⟩ := hpasses.origin hsome
    · cases hbefore
    · refine ⟨m, SyntaxTree.mem_nodes_iff.mpr ⟨as, hw⟩, he, ?_⟩
      rintro (hk | hk | hk | hk) <;> rw [hk] at hs <;> cases hs
  · rintro ⟨n, hn, rfl, hk⟩
    obtain ⟨as, hw⟩ := SyntaxTree.mem_nodes_iff.mp hn
    refine hpasses.covers n as hw ?_
    cases hkind : n.kind <;> simp_all [Node.Kind.isSilent]

end World

end Magik
