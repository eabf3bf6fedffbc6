/-
  Magik.Proofs.Grammar.WellFormed — the tree of every token list is well formed.

  Whatever the tokens are, malformed or not, the nodes of the tree that is read have numbers
  of their own, each below the one it stands in, which the arena has as its parent, and
  children laid out by the rules for its kind. So the walk that builds scopes and the reasoning
  about types meet the layouts they are written for and no others.
-/

import Magik.Proofs.Grammar.Tracing
import Magik.Proofs.Reasoning.Rules
import Magik.Proofs.Scope.Steps

namespace Magik

namespace SyntaxTree

open Node (Way)

variable {tree : SyntaxTree} {n c p q : Node} {as : List Node}

/-- The node is the one that another stands in: the only one, once, stored as its parent, and numbered later. -/
structure IsParent (tree : SyntaxTree) (p c : Node) : Prop where
  mem : p ∈ tree.nodes
  child : c ∈ p.children
  once : (p.children.map Node.number).count c.number = 1
  only : ∀ q ∈ tree.nodes, c.number ∈ q.children.map Node.number → q = p
  stored : tree.parent? c.number = some p.number
  later : c.number < p.number

theorem FormedFile.isParent (h : tree.FormedFile) (hw : Way tree.root p as) (hc : c ∈ p.children) : tree.IsParent p c := by
  have hwc : Way tree.root c (p :: as) := .child hw hc
  refine ⟨mem_nodes_iff.mpr ⟨as, hw⟩, hc, ?_, fun q hq hm => ?_, ?_, (hw.formed h.formed).smaller hc⟩
  · have hnodup : (p.children.map Node.number).Nodup :=
      (Node.nodup_children (hw.nodup h.nodup)).sublist (Node.map_number_sublist p.children)
    rw [hnodup.count, if_pos (List.mem_map_of_mem hc)]
  · obtain ⟨d, hd, he⟩ := List.mem_map.mp hm
    obtain ⟨bs, hwq⟩ := mem_nodes_iff.mp hq
    obtain ⟨-, heq⟩ := (Way.child hwq hd).unique h.nodup hwc he
    cases heq
    rfl
  · exact h.parent?_of_way hwc

/-- Methods and package lines stand directly in the file. -/
theorem FormedFile.ancestors_of_topLevel (h : tree.FormedFile) (hw : Way tree.root n as)
    (hk : (∃ header, n.kind = .method header) ∨ ∃ name, n.kind = .package name) : as = [tree.root] := by
  cases hw with
  | root =>
    rw [h.file] at hk
    rcases hk with ⟨_, hk⟩ | ⟨_, hk⟩ <;> cases hk
  | child up hc =>
    have hfile := (up.formed h.formed).layout.of_topLevel hc hk
    cases up with
    | root => rfl
    | child up' hc' => exact absurd hfile ((up'.formed h.formed).layout.ne_file hc')

end SyntaxTree

namespace Grammar

open SyntaxTree (mem_nodes_iff)

/-- For every token list: each node of the tree is in the arena at its number, the file last
    and without a parent. Each other node stands in one node and once, which is stored as its
    parent and was made after it. The children of each node are laid out by the rules, methods
    and package lines directly in the file. So scopes come about by steps, and types by rules,
    that ask for these layouts. -/
theorem parse_well_formed (tokens : List Token) :
    let tree := (parse tokens).1
    tree.root.kind = .file ∧ tree.root.number + 1 = tree.size ∧ (tree.nodes.map Node.number).Nodup ∧
    (∀ n ∈ tree.nodes, tree.find? n.number = some n) ∧ tree.parent? tree.root.number = none ∧
    (∀ c ∈ tree.nodes, c.number ≠ tree.root.number → ∃ p, tree.IsParent p c) ∧
    (∀ n ∈ tree.nodes, Node.Layout n.kind n.children) ∧
    (∀ n ∈ tree.nodes, ((∃ header, n.kind = .method header) ∨ ∃ name, n.kind = .package name) →
      tree.ancestors n.number = [tree.root]) ∧
    ScopeTree.Run (ScopeTree.jobs .visit [tree.root] 0 tree.root.children)
      ((ScopeTree.start tree.root.number).place tree.root.number 0) (ScopeTree.build tree) ∧
    ∀ w package, ∃ p, World.ReasonsEach w (Around.file.within tree.root.number .file) tree.root.children p ∧
      w.findings package tree =
        ((do let _ ← p; Reason.settle (← Reason.flow).believed : Reason Unit) ⟨.start, .start package⟩).2.memory.findings := by
  intro tree
  have h : tree.FormedFile := parse_formedFile tokens
  refine ⟨h.file, h.last, ?_, fun n hn => ?_, h.parent?_of_way .root, fun c hc hne => ?_, fun n hn => ?_,
    fun n hn hk => ?_, ScopeTree.run_build h, World.findings_by_rules h⟩
  · rw [SyntaxTree.map_number_nodes]
    exact h.nodup
  · obtain ⟨as, hw⟩ := mem_nodes_iff.mp hn
    exact h.find?_of_way hw
  · obtain ⟨as, hw⟩ := mem_nodes_iff.mp hc
    cases hw with
    | root => exact absurd rfl hne
    | child up hc => exact ⟨_, h.isParent up hc⟩
  · obtain ⟨as, hw⟩ := mem_nodes_iff.mp hn
    exact (hw.formed h.formed).layout
  · obtain ⟨as, hw⟩ := mem_nodes_iff.mp hn
    rw [h.ancestors_of_way hw]
    exact h.ancestors_of_topLevel hw hk

end Grammar

end Magik
