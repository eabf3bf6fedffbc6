/-
  Magik.Proofs.Syntax.Ways — the way from a node up to the root.

  `Way root n as`: going up from `n` one meets the nodes `as`, the root last. Where no
  number occurs twice, a number has one node and one way (`Way.unique`). The nodes of a
  tree are those with a way (`mem_withDescendants_iff`).
-/

import Magik.Proofs.Syntax.Layout

namespace Magik.Node

inductive Way (root : Node) : Node → List Node → Prop
  | root : Way root root []
  | child {p c : Node} {as : List Node} (up : Way root p as) (hc : c ∈ p.children) : Way root c (p :: as)

variable {root n m c p k : Node} {as bs ns : List Node}

namespace Way

theorem trans (h : Way root n as) (h' : Way n m bs) : Way root m (bs ++ as) := by
  induction h' with
  | root => exact h
  | child _ hc ih => exact .child ih hc

/-- The same way seen from one node further up. -/
theorem under (h : Way c n as) (hc : c ∈ root.children) : Way root n (as ++ [root]) := by
  induction h with
  | root => exact .child .root hc
  | child _ hm ih => exact .child ih hm

/-- A way from a child, or no way at all. -/
theorem cases_root (h : Way root n as) :
    n = root ∧ as = [] ∨ ∃ c ∈ root.children, ∃ bs, Way c n bs ∧ as = bs ++ [root] := by
  induction h with
  | root => exact .inl ⟨rfl, rfl⟩
  | @child p m as up hm ih =>
    rcases ih with ⟨rfl, rfl⟩ | ⟨c, hc, bs, hw, rfl⟩
    · exact .inr ⟨m, hm, [], .root, rfl⟩
    · exact .inr ⟨c, hc, p :: bs, .child hw hm, rfl⟩

theorem mem_withDescendants (h : Way root n as) : n ∈ root.withDescendants := by
  induction root using Node.induction_children generalizing as with
  | node root ih =>
    rcases h.cases_root with ⟨rfl, -⟩ | ⟨c, hc, bs, hw, -⟩
    · exact .head _
    · exact Node.mem_withDescendants hc (ih c hc hw)

theorem numbers_subset (h : Way root n as) : ∀ k ∈ n.numbers, k ∈ root.numbers := by
  induction h with
  | root => exact fun _ => id
  | child _ hc ih => exact fun k hk => ih k (mem_numbers_of_child hc hk)

theorem number_mem (h : Way root n as) : n.number ∈ root.numbers := h.numbers_subset _ n.number_mem_numbers

/-- What is met going up has a way of its own. -/
theorem of_mem (h : Way root n as) (hp : p ∈ as) : ∃ bs, Way root p bs := by
  induction h with
  | root => cases hp
  | child up _ ih =>
    rcases List.mem_cons.mp hp with rfl | hp
    · exact ⟨_, up⟩
    · exact ih hp

/-- The rest of a way is the way of the node it starts from. -/
theorem of_append {pre : List Node} (h : Way root n (pre ++ p :: as)) : Way root p as := by
  induction pre generalizing n with
  | nil =>
    cases h with
    | child up _ => exact up
  | cons q pre ih =>
    cases h with
    | child up _ => exact ih up

/-- What is met going up has the node among its own. -/
theorem below_of_mem (h : Way root n as) (hp : p ∈ as) : ∃ bs, Way p n bs := by
  induction h with
  | root => cases hp
  | @child q m as up hm ih =>
    rcases List.mem_cons.mp hp with rfl | hp
    · exact ⟨_, .child .root hm⟩
    · obtain ⟨bs, hw⟩ := ih hp
      exact ⟨_, .child hw hm⟩

/-- A node is among what is below it and what is around it. -/
theorem number_mem_of_mem (h : Way root n as) (hp : p ∈ n :: as) : n.number ∈ p.numbers := by
  rcases List.mem_cons.mp hp with rfl | hp
  · exact p.number_mem_numbers
  · obtain ⟨bs, hw⟩ := h.below_of_mem hp
    exact hw.number_mem

end Way

theorem exists_way_of_mem_drain (ns : List Node) (hk : k ∈ drain ns) : ∃ n ∈ ns, ∃ as, Way n k as := by
  fun_induction drain ns with
  | case1 => cases hk
  | case2 n stack ih =>
    rcases List.mem_cons.mp hk with rfl | hk
    · exact ⟨_, by simp, [], .root⟩
    · obtain ⟨m, hm, as, hw⟩ := ih hk
      rcases List.mem_append.mp hm with hm | hm
      · exact ⟨n, by simp, _, hw.under hm⟩
      · exact ⟨m, .tail _ hm, as, hw⟩

theorem mem_withDescendants_iff : k ∈ n.withDescendants ↔ ∃ as, Way n k as := by
  constructor
  · intro hk
    rcases List.mem_cons.mp hk with rfl | hk
    · exact ⟨[], .root⟩
    · obtain ⟨c, hc, as, hw⟩ := exists_way_of_mem_drain _ hk
      exact ⟨_, hw.under hc⟩
  · intro ⟨as, hw⟩
    exact hw.mem_withDescendants

theorem mem_withDescendants_trans (h : k ∈ c.withDescendants) (hc : c ∈ n.withDescendants) : k ∈ n.withDescendants := by
  obtain ⟨as, hw⟩ := mem_withDescendants_iff.mp hc
  obtain ⟨bs, hk⟩ := mem_withDescendants_iff.mp h
  exact (hw.trans hk).mem_withDescendants

theorem mem_withDescendants_cases (h : k ∈ n.withDescendants) :
    k = n ∨ ∃ c ∈ n.children, k ∈ c.withDescendants := by
  obtain ⟨as, hw⟩ := mem_withDescendants_iff.mp h
  rcases hw.cases_root with ⟨rfl, -⟩ | ⟨c, hc, bs, hwc, -⟩
  · exact .inl rfl
  · exact .inr ⟨c, hc, hwc.mem_withDescendants⟩

/-- A node can count on all below it. -/
theorem induction_below {motive : Node → Prop}
    (node : ∀ n, (∀ c ∈ n.children, ∀ d ∈ c.withDescendants, motive d) → motive n) (n : Node) : motive n := by
  have hall : ∀ d ∈ n.withDescendants, motive d := by
    induction n using induction_children with
    | node n ih =>
      intro d hd
      rcases mem_withDescendants_cases hd with rfl | ⟨c, hc, hd⟩
      · exact node d ih
      · exact ih c hc d hd
  exact hall n Way.root.mem_withDescendants

/-! ## Distinct numbers -/

theorem nodup_of_mem (h : (numbersAll ns).Nodup) (hn : n ∈ ns) : n.numbers.Nodup := by
  induction ns with
  | nil => cases hn
  | cons m ms ih =>
    rw [numbersAll_cons, List.nodup_append] at h
    rcases List.mem_cons.mp hn with rfl | hn
    · exact h.1
    · exact ih h.2.1 hn

/-- Neighbours have no number in common. -/
theorem eq_of_mem_numbers {a b : Node} {j : Nat} (h : (numbersAll ns).Nodup) (ha : a ∈ ns) (hb : b ∈ ns)
    (hja : j ∈ a.numbers) (hjb : j ∈ b.numbers) : a = b := by
  induction ns with
  | nil => cases ha
  | cons n ns ih =>
    rw [numbersAll_cons, List.nodup_append] at h
    rcases List.mem_cons.mp ha with rfl | ha' <;> rcases List.mem_cons.mp hb with rfl | hb'
    · rfl
    · exact absurd rfl (h.2.2 j hja j (numbers_subset hb' j hjb))
    · exact absurd rfl (h.2.2 j hjb j (numbers_subset ha' j hja))
    · exact ih h.2.1 ha' hb'

theorem nodup_children (h : n.numbers.Nodup) : (numbersAll n.children).Nodup := by
  rw [numbers_eq] at h
  exact (List.nodup_cons.mp h).2

theorem numbersAll_sublist {ms : List Node} (h : ns.Sublist ms) : (numbersAll ns).Sublist (numbersAll ms) := by
  induction h with
  | slnil => exact .refl _
  | cons n _ ih =>
    rw [numbersAll_cons]
    exact ih.trans (List.sublist_append_right _ _)
  | cons_cons n _ ih =>
    rw [numbersAll_cons, numbersAll_cons]
    exact ih.append_left _

/-- Nodes laid out by the rules, each with numbers of its own. -/
structure Proper (ns : List Node) : Prop where
  formed : ∀ n ∈ ns, n.Formed
  nodup : (numbersAll ns).Nodup

namespace Proper

variable {ns ms : List Node} {j : Nat}

theorem single (hf : n.Formed) (hn : n.numbers.Nodup) : Proper [n] where
  formed := by simpa using hf
  nodup := by simpa [numbersAll_cons, numbersAll_nil] using hn

theorem of_sublist (h : Proper ns) (hs : ms.Sublist ns) : Proper ms where
  formed c hc := h.formed c (hs.subset hc)
  nodup := (numbersAll_sublist hs).nodup h.nodup

theorem of_mem (h : Proper ns) (hc : c ∈ ns) : Proper [c] := h.of_sublist (List.singleton_sublist.mpr hc)

theorem tail (h : Proper (c :: ns)) : Proper ns := h.of_sublist (List.sublist_cons_self c ns)

theorem inside (h : Proper ns) (hc : c ∈ ns) : Proper c.children where
  formed _ hd := (h.formed c hc).child hd
  nodup := nodup_children (nodup_of_mem h.nodup hc)

theorem disjoint (h : Proper (c :: ns)) (hj : j ∈ c.numbers) : j ∉ numbersAll ns := by
  have hn := h.nodup
  rw [numbersAll_cons, List.nodup_append] at hn
  exact fun hm => hn.2.2 j hj j hm rfl

theorem nodup_head (h : Proper [n]) : n.numbers.Nodup := nodup_of_mem h.nodup (by simp)

/-- The number of a node is none of those in it. -/
theorem own (h : Proper [n]) : n.number ∉ numbersAll n.children := by
  have hn := h.nodup_head
  rw [numbers_eq, List.nodup_cons] at hn
  exact hn.1

theorem not_own (h : Proper [n]) (hj : j ∈ numbersAll n.children) : j ∉ [n.number] :=
  fun hm => h.own (List.mem_singleton.mp hm ▸ hj)

end Proper

theorem Way.nodup (h : Way root n as) (hn : root.numbers.Nodup) : n.numbers.Nodup := by
  induction h with
  | root => exact hn
  | child _ hc ih => exact nodup_of_mem (nodup_children ih) hc

/-- What is met going up is not met again below. -/
theorem Way.number_not_mem (h : Way root n as) (hn : root.numbers.Nodup) (hp : p ∈ as) : p.number ∉ n.numbers := by
  induction h with
  | root => cases hp
  | @child q m as up hm ih =>
    have hsub := Node.numbers_subset hm
    rcases List.mem_cons.mp hp with rfl | hp
    · have hq := up.nodup hn
      rw [numbers_eq, List.nodup_cons] at hq
      exact fun hin => hq.1 (hsub _ hin)
    · refine fun hin => ih hp ?_
      rw [numbers_eq]
      exact .tail _ (hsub _ hin)

theorem map_number_sublist (ns : List Node) : (ns.map Node.number).Sublist (numbersAll ns) := by
  induction ns with
  | nil => simp
  | cons m ms ih =>
    rw [List.map_cons, numbersAll_cons, numbers_eq, List.cons_append]
    exact (ih.trans (List.sublist_append_right _ _)).cons_cons _

/-- A number has one node and one way up. -/
theorem Way.unique (hn : root.numbers.Nodup) (h : Way root n as) (h' : Way root m bs) (he : n.number = m.number) :
    n = m ∧ as = bs := by
  induction root using Node.induction_children generalizing as bs with
  | node root ih =>
    rw [numbers_eq, List.nodup_cons] at hn
    rcases h.cases_root with ⟨rfl, rfl⟩ | ⟨c, hc, cs, hw, rfl⟩ <;>
      rcases h'.cases_root with ⟨rfl, rfl⟩ | ⟨d, hd, ds, hw', rfl⟩
    · exact ⟨rfl, rfl⟩
    · exact absurd (he ▸ Node.numbers_subset hd _ hw'.number_mem) hn.1
    · exact absurd (he ▸ Node.numbers_subset hc _ hw.number_mem) hn.1
    · obtain rfl := eq_of_mem_numbers hn.2 hc hd hw.number_mem (he ▸ hw'.number_mem)
      obtain ⟨rfl, rfl⟩ := ih c hc (nodup_of_mem hn.2 hc) hw hw'
      exact ⟨rfl, rfl⟩

/-! ## Formed trees -/

theorem Way.formed (h : Way root n as) (hf : root.Formed) : n.Formed := by
  induction h with
  | root => exact hf
  | child _ hc ih => exact ih.child hc

theorem Proper.below (h : Proper [n]) (hw : Way n c as) : Proper [c] :=
  .single (hw.formed (h.formed n (by simp))) (hw.nodup h.nodup_head)

/-- Induction over a formed tree where a node can count on all that is below it. -/
theorem Formed.induction_below {P : Node → Prop}
    (node : ∀ {n : Node}, n.Formed → (∀ c ∈ n.children, ∀ m bs, Way c m bs → P m) → P n) (h : n.Formed) : P n := by
  suffices hall : ∀ m bs, Way n m bs → P m from hall n [] .root
  induction h with
  | node hl hs hf ih =>
    intro m bs hw
    rcases hw.cases_root with ⟨rfl, -⟩ | ⟨c, hc, cs, hw, -⟩
    · exact node (.node hl hs hf) ih
    · exact ih c hc m cs hw

/-! ## Names -/

/-- The names that a node brings in, of variables and of exemplars. -/
def Kind.names : Kind → List String
  | .method header => [header.exemplar]
  | .parameter name _ | .declared name | .loopVariable name | .attemptVariable name | .identifier name => [name]
  | _ => []

/-- All names in a tree are spelled in some way. -/
def Names (P : String → Prop) (n : Node) : Prop := ∀ m as, Way n m as → ∀ name ∈ m.kind.names, P name

theorem names_of_children {P : String → Prop} (hn : ∀ name ∈ n.kind.names, P name) (hc : ∀ c ∈ n.children, c.Names P) :
    n.Names P := by
  intro m as hw
  rcases hw.cases_root with ⟨rfl, -⟩ | ⟨c, hm, bs, hw, -⟩
  · exact hn
  · exact hc c hm m bs hw

end Magik.Node

namespace Magik.SyntaxTree

open Node (Way)

variable {t : SyntaxTree} {n : Node} {as : List Node}

theorem mem_nodes_iff : n ∈ t.nodes ↔ ∃ as, Way t.root n as := Node.mem_withDescendants_iff

theorem map_number_nodes (t : SyntaxTree) : t.nodes.map Node.number = t.root.numbers := by
  rw [nodes, Node.withDescendants, Node.descendants, List.map_cons, Node.map_number_drain, Node.numbers_eq]

end Magik.SyntaxTree
