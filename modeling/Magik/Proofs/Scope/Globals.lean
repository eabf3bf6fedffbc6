/-
  Magik.Proofs.Scope.Globals — where the entries of global names are stored.

  A name that nobody declared is stored in the global scope. A global entry that is stored
  anywhere else was declared there by a variable, and the variable refers to it. So an
  entry that names of the file only read is found in no scope but the global one
  (`scope_eq_zero_of_reads`).
-/

import Magik.Proofs.Scope.Beside

namespace Magik.ScopeTree

open Node (Way)

variable {root : Node} {t t' : ScopeTree} {job : Job} {left todo : List Job} {scope node x : Nat} {name : String}
  {kind : Entry.Kind} {e : Entry} {tree : SyntaxTree}

/-! ## New entries -/

/-- Without new entries those of the second tree are those of the first. -/
theorem Carries.back (h : Carries t t') (hl : t'.entries.length = t.entries.length) (he : t'.entries[x]? = some e) :
    ∃ e₀, t.entries[x]? = some e₀ ∧ SameEntry e₀ e := by
  have hx : x < t.entries.length := by
    have := lt_of_entry he
    omega
  obtain ⟨e', he', hsame⟩ := h.entries (List.getElem?_eq_getElem hx)
  cases he.symm.trans he'
  exact ⟨_, List.getElem?_eq_getElem hx, hsame⟩

theorem new_declareIn (he : (t.declareIn scope name kind node).2.entries[x]? = some e) (hx : t.entries.length ≤ x) :
    x = (t.declareIn scope name kind node).1 ∧ e.kind = kind ∧ e.node = node ∧ e.scope = scope := by
  cases h : t.entryIn? name scope with
  | some y =>
    rw [declareIn_of_some h] at he
    exact absurd (lt_of_entry he) (Nat.not_lt.mpr hx)
  | none =>
    rw [declareIn_of_none h] at he ⊢
    rw [List.getElem?_append_right hx, List.getElem?_singleton] at he
    split at he
    · cases he
      exact ⟨by omega, rfl, rfl, rfl⟩
    · cases he

theorem new_read (he : (t.read scope name node).entries[x]? = some e) (hx : t.entries.length ≤ x) :
    e.kind = .global ∧ e.node = node ∧ e.scope = 0 := by
  unfold read at he
  split at he
  · have := lt_of_entry he
    simp only [resolve, use, List.length_modify] at this
    omega
  · obtain ⟨e₀, he₀, hkind, -, hnode, hscope⟩ := (Carries.use (t.declareIn 0 name .global node).1 node).back (by simp [use]) he
    rw [hkind, hnode, hscope]
    exact (new_declareIn he₀ hx).2

theorem new_assign (he : (t.assign scope name node).entries[x]? = some e) (hx : t.entries.length ≤ x) :
    e.node = node ∧ (e.kind = .global ∧ e.scope = 0 ∨ e.kind = .definition) := by
  unfold assign at he
  split at he
  · exact absurd (lt_of_entry he) (by simp only [resolve]; omega)
  · split at he
    · obtain ⟨-, hkind, hnode, hscope⟩ := new_declareIn he hx
      exact ⟨hnode, .inl ⟨hkind, hscope⟩⟩
    · obtain ⟨-, hkind, hnode, -⟩ := new_declareIn he hx
      exact ⟨hnode, .inr hkind⟩

theorem length_linkImport (t : ScopeTree) (scope entry : Nat) (name : String) (node : Nat) :
    (t.linkImport scope entry name node).entries.length = t.entries.length := by
  rw [linkImport_eq]
  split
  · rfl
  · split
    · simp [link, use]
    · rfl

theorem new_declareVariable (he : (t.declareVariable scope kind name node).entries[x]? = some e)
    (hx : t.entries.length ≤ x) :
    e.kind = kind ∧ e.node = node ∧ (t.declareVariable scope kind name node).entryOf? node = some x := by
  have hl : (t.declareVariable scope kind name node).entries.length = (t.declareIn scope name kind node).2.entries.length := by
    unfold declareVariable
    dsimp only
    split
    · rw [length_linkImport]
      rfl
    · rfl
  obtain ⟨e₀, he₀, hkind, -, hnode, -⟩ := (Carries.afterDeclareIn scope kind name node).back hl he
  obtain ⟨rfl, hk, hn, -⟩ := new_declareIn he₀ hx
  exact ⟨hkind.trans hk, hnode.trans hn, entryOf?_declareVariable t scope kind name node⟩

/-! ## Declared globals -/

/-- A global entry is stored in the global scope, or a variable that was declared refers to it. -/
def Homed (root : Node) (todo : List Job) (t : ScopeTree) : Prop :=
  ∀ (x : Nat) (e : Entry), t.entries[x]? = some e → e.kind = .global → e.scope = 0 ∨
    ∃ v as, Way root v as ∧ v.declaredName?.isSome ∧ v.number ∉ pending todo ∧ t.entryOf? v.number = some x

/-- A step adds a global entry to the global scope, or it is its node that declares it. -/
theorem Step.new_global (hs : Step job t left t') (he : t'.entries[x]? = some e) (hx : t.entries.length ≤ x)
    (hk : e.kind = .global) :
    e.scope = 0 ∨ job.role ≠ .bound ∧ job.node.declaredName?.isSome ∧ t'.entryOf? job.node.number = some x := by
  have hlt := lt_of_entry he
  cases hs with
  | read => exact .inl (new_read he hx).2.2
  | target =>
    rcases (new_assign he hx).2 with ⟨-, h0⟩ | hd
    · exact .inl h0
    · cases hk.symm.trans hd
  | declared hn => exact .inr ⟨by simp, by simp [hn], (new_declareVariable he hx).2.2⟩
  | named hn =>
    exact .inr ⟨by simp, by simp [Node.declaredName?_declared hn], (new_declareVariable he hx).2.2⟩
  | bound =>
    rw [(new_declareVariable he hx).1] at hk
    cases hk
  | _ => exact absurd hlt (Nat.not_lt.mpr hx)

theorem Homed.step (h : Homed root (job :: todo) t) (hs : Step job t left t') (hi : Sound root (job :: todo) t)
    (hn : root.numbers.Nodup) : Homed root (left ++ todo) t' := by
  intro x e he hk
  have hf : Fits root t job := hi.fits job (.head _)
  by_cases hx : x < t.entries.length
  · obtain ⟨e', he', hsame⟩ := hs.carries.entries (List.getElem?_eq_getElem hx)
    cases he.symm.trans he'
    rcases h x _ (List.getElem?_eq_getElem hx) (hsame.1.symm.trans hk) with h0 | ⟨v, as, hw, hv, hout, hr⟩
    · exact .inl (hsame.2.2.2.trans h0)
    · rw [pending_cons, List.mem_append, not_or] at hout
      refine .inr ⟨v, as, hw, hv, ?_, ?_⟩
      · rw [pending_append, List.mem_append, not_or]
        exact ⟨fun hm => hout.1 (hs.pending_subset hm), hout.2⟩
      · rw [hs.entryOf?_eq hf hn hw (by rintro name hvk; simp [Node.declaredName?, hvk] at hv) hout.1]
        exact hr
  · rcases hs.new_global he (Nat.le_of_not_lt hx) hk with h0 | ⟨hrole, hv, hr⟩
    · exact .inl h0
    · -- the node has been settled by the step, and no other job is about it
      refine .inr ⟨job.node, job.around, hf.way, hv, ?_, hr⟩
      rcases hs.perm_pending with hp | ⟨-, rfl | hbound⟩
      · have hnodup := hi.nodup
        rw [pending_cons, List.nodup_append] at hnodup
        rw [pending_append, List.mem_append, not_or]
        refine ⟨(List.nodup_cons.mp (hp.nodup_iff.mp hnodup.1)).1, fun hm => ?_⟩
        exact hnodup.2.2 _ (Job.number_mem hrole) _ hm rfl
      · exact absurd (lt_of_entry he) hx
      · exact absurd hbound hrole

theorem homed_build (h : tree.FormedFile) : Homed tree.root [] (build tree) := by
  have hrun := (run_build h).invariant (P := fun todo t => Homed tree.root todo t ∧ Sound tree.root todo t)
    fun hs hi => ⟨hi.1.step hs hi.2 h.nodup, hi.2.step hs h.nodup⟩
  exact (hrun ⟨fun _ _ he => (by cases he), .start h.nodup h.file (h.formed.items h.file)⟩).1

/-! ## Globals that are only read -/

/-- All names of the file that refer to the entry read it. -/
def OnlyRead (tree : SyntaxTree) (x : Nat) : Prop :=
  ∀ n ∈ tree.nodes, (build tree).entryOf? n.number = some x → IsRead tree n

theorem onlyRead_iff : OnlyRead tree x ↔ ∀ n ∈ tree.nodes, (build tree).entryOf? n.number = some x →
    n.identifierName?.isSome ∧ n.number ∉ Report.targets tree := by
  refine forall_congr' fun n => forall_congr' fun hn => forall_congr' fun _ => ?_
  have hname : (∃ name, n.kind = .identifier name) ↔ n.identifierName?.isSome := by
    cases hk : n.kind <;> simp [Node.identifierName?, hk]
  rw [IsRead, hname]
  exact and_iff_right hn

instance {tree : SyntaxTree} : Decidable (OnlyRead tree x) := decidable_of_iff _ onlyRead_iff.symm

theorem scope_eq_zero_of_onlyRead (h : tree.FormedFile) (he : (build tree).entryAt? x = some e) (hk : e.kind = .global)
    (hx : OnlyRead tree x) : e.scope = 0 := by
  rcases homed_build h x e he hk with h0 | ⟨v, as, hw, hv, -, hr⟩
  · exact h0
  · obtain ⟨-, ⟨name, hname⟩, -⟩ := hx v (SyntaxTree.mem_nodes_iff.mpr ⟨as, hw⟩) hr
    simp [Node.declaredName?, hname] at hv

/-- No node but the file has such an entry in the scope it opened. -/
theorem entryIn?_ne_of_onlyRead (h : tree.FormedFile) (he : (build tree).entryAt? x = some e) (hk : e.kind = .global)
    (hx : OnlyRead tree x) {b : Node} {as : List Node} (hw : Way tree.root b as) (has : as ≠ []) {s : Nat}
    (ho : (build tree).scopeOpenedBy? b.number = some s) : (build tree).entryIn? name s ≠ some x := by
  intro hin
  obtain ⟨e', he', -, hscope⟩ := (resolving_build h).named hin
  cases he.symm.trans he'
  have hzero := scope_eq_zero_of_onlyRead h he hk hx
  have hpos := (sound_build h).opened_pos hw has ho
  omega

end Magik.ScopeTree
