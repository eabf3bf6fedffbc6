/-
  Magik.Proofs.Scope.Lexical — names mean entries of the constructs around them.

  Every scope that is seen from a scope was opened by a node around (`Climbs.visible_among`).
  So a name is given an entry that is stored in a scope opened by one of the nodes around the
  name, and by no other.
-/

import Magik.Proofs.Scope.Resolution

namespace Magik.ScopeTree

open Node (Way)

variable {root n b c : Node} {as : List Node} {t : ScopeTree} {todo : List Job} {A : List Nat} {s v : Nat}

namespace Climbs

/-- The scopes around one were opened by the node that opened it and by nodes around that. -/
theorem outward_among (h : Climbs root t b as s) (hv : v ∈ t.outward s) :
    ∃ c ∈ b :: as, ∃ sc, t.scopeOpenedBy? c.number = some v ∧ t.scopes[v]? = some sc ∧ sc.node = c.number := by
  induction h with
  | file ho hs _ hn =>
    rw [outward, way_zero, List.mem_singleton] at hv
    exact ⟨_, .head _, _, hv ▸ ho, hv ▸ hs, hn⟩
  | definition _ ho _ hs _ hn hp hlt heq _ ih | block _ ho _ _ hs _ hn hp hlt _ heq _ ih =>
    rw [outward_of_parent hs hp hlt] at hv
    rcases List.mem_cons.mp hv with rfl | hv
    · exact ⟨_, .head _, _, ho, hs, hn⟩
    · obtain ⟨c, hc, hrest⟩ := ih hv
      exact ⟨c, .tail _ (heq ▸ List.mem_append_right _ hc), hrest⟩
  | routine _ _ ih =>
    obtain ⟨c, hc, hrest⟩ := ih hv
    exact ⟨c, .tail _ hc, hrest⟩

theorem visible_subset (h : Climbs root t b as s) : 0 ∈ t.outward s ∧ ∀ v ∈ t.visible s, v ∈ t.outward s := by
  induction h with
  | file => simp [visible_zero, outward, way_zero]
  | definition _ _ _ hs hkind _ hp hlt _ _ ih =>
    rw [visible_of_procedure hs hkind (Nat.zero_lt_of_lt hlt), outward_of_parent hs hp hlt]
    simp [ih.1]
  | routine _ _ ih => exact ih
  | block _ _ _ _ hs hkind _ hp hlt _ _ _ ih =>
    rw [visible_of_body hs hkind hp hlt, outward_of_parent hs hp hlt]
    exact ⟨.tail _ ih.1, List.forall_mem_cons.mpr ⟨.head _, fun v hv =>
      .tail _ (ih.2 v hv)⟩⟩

/-- What is seen from the scope of a block was opened by the block or by a node around it. -/
theorem visible_among (h : Climbs root t b as s) (hv : v ∈ t.visible s) :
    ∃ c ∈ b :: as, ∃ sc, t.scopeOpenedBy? c.number = some v ∧ t.scopes[v]? = some sc ∧ sc.node = c.number :=
  h.outward_among (h.visible_subset.2 v hv)

end Climbs

/-- A node in a block opens a scope of its own. -/
theorem Sound.noted {q : Node} (h : Sound root todo t) (hw : Way root b (q :: as)) (hq : q.kind.isDefinition = false)
    (ho : t.scopeOpenedBy? b.number = some s) : t.scopes[s]?.map (·.node) = some b.number := by
  cases h.owns hw ho with
  | definition _ hs _ hn | block _ _ hs _ hn => rw [hs, Option.map_some, hn]
  | routine _ hd => cases hq.symm.trans hd

/-- Names that are read or assigned in a node mean entries stored in scopes that one of the nodes around the name
    opened: up to the node, or one of those with these numbers. -/
def Lexical (t : ScopeTree) (A : List Nat) (n : Node) : Prop :=
  ∀ ⦃k as name x⦄, Way n k as → k.kind = .identifier name → t.entryOf? k.number = some x →
    ∃ (e : Entry) (s : Scope), t.entries[x]? = some e ∧ t.scopes[e.scope]? = some s ∧ s.node ∈ (k :: as).map Node.number ++ A

theorem Lexical.child (h : Lexical t A n) (hc : c ∈ n.children) : Lexical t (n.number :: A) c := by
  intro k as name x hw hk hx
  simpa using h (hw.under hc) hk hx

theorem lexical_build {tree : SyntaxTree} (h : tree.FormedFile) : Lexical (build tree) [] tree.root := by
  intro k as name x hw hk hx
  have hr := resolving_build h
  obtain ⟨s, y, e, b, -, hy, he, -, hvisible, hb, ho⟩ := hr.exists_seat hw (Node.writtenName?_identifier hk)
  cases hx.symm.trans hy
  have hfind : as.find? (·.kind.isBlock) = some b := by
    rw [Node.seat?, hk, List.find?_cons, hk] at hb
    exact hb
  obtain ⟨pre, bs, rfl⟩ := List.append_of_mem (List.mem_of_find?_eq_some hfind)
  obtain ⟨c, hc, sc, -, hsc, hn⟩ := (hr.sound.climbs hw.of_append ho).visible_among hvisible
  refine ⟨e, sc, he, hsc, hn ▸ ?_⟩
  rw [List.append_nil, List.map_cons, List.map_append]
  exact .tail _ (List.mem_append_right _ (List.mem_map_of_mem hc))

end Magik.ScopeTree
