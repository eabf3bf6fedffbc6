/-
  Magik.Proofs.Scope.Representation — the scopes of a file are a tree, with every entry in its place.

  Scopes: the first is the global one, every other one has a parent before it that lists it
  once (`Nest`), so that following the children from the first meets each scope once
  (`Nest.traverses`). Entries: the names of a scope lead to exactly the entries stored in it,
  and entries are declared and used by nodes of the file (`Filed`). Links: an entry takes
  over an older one of its name, which can be imported and is stored outside its procedure
  (`Linked`), so that links can be followed to an end.

  All of these are kept by each edit. That the target of a link is older needs more: while
  a scope is open, what can be imported into it is older than all entries stored in its
  procedure and inside of it (`Elder`).
-/

import Magik.Proofs.Scope.Edits
import Magik.Reasoning.World

namespace Magik.ScopeTree

open Node (Way)

variable {root : Node} {t t' : ScopeTree} {job : Job} {left todo : List Job} {s scope i c x y : Nat} {name : String}
  {kind : Scope.Kind} {node parent : Nat} {sc : Scope} {tree : SyntaxTree}

/-! ## Scopes -/

/-- The scopes are a tree: each is listed once by its parent, and by nothing else. -/
structure Nest (t : ScopeTree) : Prop where
  root : ∃ sc, t.scopes[0]? = some sc ∧ sc.kind = .global ∧ sc.parent = none
  inner {i : Nat} {sc : Scope} : t.scopes[i]? = some sc → i ≠ 0 → sc.kind ≠ .global ∧
    ∃ p outer, sc.parent = some p ∧ p < i ∧ t.scopes[p]? = some outer ∧ outer.children.count i = 1
  child {i c : Nat} {sc : Scope} : t.scopes[i]? = some sc → c ∈ sc.children →
    ∃ inner, t.scopes[c]? = some inner ∧ inner.parent = some i

/-- A scope without its names and its node. -/
def shape (s : Scope) : Scope.Kind × Option Nat × List Nat := (s.kind, s.parent, s.children)

def SameShape (t t' : ScopeTree) : Prop := ∀ i : Nat, t'.scopes[i]?.map shape = t.scopes[i]?.map shape

theorem SameShape.exists {sc' : Scope} (h : SameShape t t') (hs : t'.scopes[i]? = some sc') :
    ∃ sc, t.scopes[i]? = some sc ∧ sc.kind = sc'.kind ∧ sc.parent = sc'.parent ∧ sc.children = sc'.children := by
  have he := h i
  rw [hs, Option.map_some] at he
  obtain ⟨sc, hsc, heq⟩ := Option.map_eq_some_iff.mp he.symm
  simp only [shape, Prod.mk.injEq] at heq
  exact ⟨sc, hsc, heq⟩

theorem SameShape.symm (h : SameShape t t') : SameShape t' t := fun i => (h i).symm

theorem sameShape_declareIn (t : ScopeTree) (scope : Nat) (name : String) (kind : Entry.Kind) (node : Nat) :
    SameShape t (t.declareIn scope name kind node).2 := by
  intro i
  unfold declareIn
  split
  · rfl
  · rw [List.getElem?_modify]
    cases t.scopes[i]? with
    | none => rfl
    | some sc => by_cases hi : scope = i <;> simp [hi, shape]

namespace Nest

theorem ordered (h : Nest t) : t.Ordered := by
  intro i sc p hi hp
  by_cases h0 : i = 0
  · obtain ⟨sc₀, hs₀, -, hnone⟩ := h.root
    subst h0
    cases hs₀.symm.trans hi
    rw [hnone] at hp
    cases hp
  · obtain ⟨-, q, outer, hq, hlt, -⟩ := h.inner hi h0
    cases hq.symm.trans hp
    exact hlt

theorem of_sameShape (h : Nest t) (hs : SameShape t t') : Nest t' where
  root := by
    obtain ⟨sc, hsc, hk, hp⟩ := h.root
    obtain ⟨sc', hsc', hk', hp', -⟩ := hs.symm.exists hsc
    exact ⟨sc', hsc', hk'.trans hk, hp'.trans hp⟩
  inner {i sc'} hi h0 := by
    obtain ⟨sc, hsc, hk, hp, -⟩ := hs.exists hi
    obtain ⟨hkind, p, outer, hparent, hlt, houter, hcount⟩ := h.inner hsc h0
    obtain ⟨outer', houter', -, -, hc⟩ := hs.symm.exists houter
    exact ⟨hk ▸ hkind, p, outer', hp ▸ hparent, hlt, houter', hc ▸ hcount⟩
  child {i c sc'} hi hc := by
    obtain ⟨sc, hsc, -, -, hchildren⟩ := hs.exists hi
    obtain ⟨inner, hinner, hparent⟩ := h.child hsc (hchildren ▸ hc)
    obtain ⟨inner', hinner', -, hp, -⟩ := hs.symm.exists hinner
    exact ⟨inner', hinner', hp.trans hparent⟩

end Nest

/-- The scopes after one was opened: the new one, and the others, of which one has a child more. -/
theorem of_getElem?_openScope (h : (t.openScope kind node parent).scopes[i]? = some sc) :
    i = t.scopes.length ∧ sc = ⟨kind, some parent, node, [], .empty⟩ ∨
      ∃ s, t.scopes[i]? = some s ∧ sc = if parent = i then { s with children := s.children ++ [t.scopes.length] } else s := by
  rw [openScope, List.getElem?_append] at h
  split at h
  · exact .inr (of_getElem?_modify h)
  · rename_i hlt
    rw [List.getElem?_singleton] at h
    split at h
    · rw [List.length_modify] at *
      exact .inl ⟨by omega, (Option.some.inj h).symm⟩
    · cases h

theorem getElem?_openScope (h : t.scopes[i]? = some sc) :
    (t.openScope kind node parent).scopes[i]? =
      some (if parent = i then { sc with children := sc.children ++ [t.scopes.length] } else sc) := by
  rw [openScope, List.getElem?_append_left (by simpa using (List.getElem?_eq_some_iff.mp h).1)]
  exact getElem?_modify_of_some h

theorem getElem?_openScope_new (t : ScopeTree) (kind : Scope.Kind) (node parent : Nat) :
    (t.openScope kind node parent).scopes[t.scopes.length]? = some ⟨kind, some parent, node, [], .empty⟩ := by
  simp [openScope]

theorem Nest.openScope (h : Nest t) (hk : kind ≠ .global) (hp : parent < t.scopes.length) (node : Nat) :
    Nest (t.openScope kind node parent) where
  root := by
    obtain ⟨sc, hsc, hkind, hparent⟩ := h.root
    refine ⟨_, getElem?_openScope hsc, ?_⟩
    split <;> exact ⟨hkind, hparent⟩
  inner {i sc} hi h0 := by
    rcases of_getElem?_openScope hi with ⟨rfl, rfl⟩ | ⟨s, hs, rfl⟩
    · refine ⟨hk, parent, _, rfl, hp, getElem?_openScope (List.getElem?_eq_getElem hp), ?_⟩
      -- the number is new, so the parent did not list it before
      have hnew : t.scopes.length ∉ (t.scopes[parent]).children := by
        intro hm
        obtain ⟨inner, hinner, -⟩ := h.child (List.getElem?_eq_getElem hp) hm
        exact absurd (List.getElem?_eq_some_iff.mp hinner).1 (Nat.lt_irrefl _)
      simp [List.count_append, List.count_eq_zero_of_not_mem hnew]
    · obtain ⟨hkind, p, outer, hparent, hlt, houter, hcount⟩ := h.inner hs h0
      have hne : t.scopes.length ≠ i := by
        have := (List.getElem?_eq_some_iff.mp hs).1
        omega
      refine ⟨?_, p, _, ?_, hlt, getElem?_openScope houter, ?_⟩
      · split <;> exact hkind
      · split <;> exact hparent
      · split
        · simp [List.count_append, hcount, hne]
        · exact hcount
  child {i c sc} hi hc := by
    have hkeep : ∀ {inner : Scope}, t.scopes[c]? = some inner → inner.parent = some i →
        ∃ inner', (t.openScope kind node parent).scopes[c]? = some inner' ∧ inner'.parent = some i := by
      intro inner hinner hparent
      refine ⟨_, getElem?_openScope hinner, ?_⟩
      split <;> exact hparent
    rcases of_getElem?_openScope hi with ⟨rfl, rfl⟩ | ⟨s, hs, rfl⟩
    · cases hc
    · split at hc
      · rename_i he
        rcases List.mem_append.mp hc with hc | hc
        · obtain ⟨inner, hinner, hparent⟩ := h.child hs hc
          exact hkeep hinner hparent
        · rw [List.mem_singleton.mp hc, ← he]
          exact ⟨_, getElem?_openScope_new t kind node parent, rfl⟩
      · obtain ⟨inner, hinner, hparent⟩ := h.child hs hc
        exact hkeep hinner hparent

/-! ## Following the children -/

/-- Of two scopes on one way outward one is around the other. -/
theorem mem_outward_or {d : Nat} (hc : c ∈ t.outward s) (hd : d ∈ t.outward s) : c ∈ t.outward d ∨ d ∈ t.outward c := by
  induction s using Nat.strongRecOn with
  | ind s ih =>
    rcases way_cases (fun i => t.scopes[i]?.bind (·.parent)) s with he | ⟨next, hlt, he⟩
    · rw [outward, he, List.mem_singleton] at hc hd
      rw [hc, hd]
      exact .inl (mem_way_self _ _)
    · rw [outward, he, List.mem_cons] at hc hd
      rcases hc with rfl | hc
      · refine .inr ?_
        rw [outward, he, List.mem_cons]
        exact hd
      · rcases hd with rfl | hd
        · refine .inl ?_
          rw [outward, he]
          exact .tail _ hc
        · exact ih next hlt hc hd

/-- The scopes met by following children, the first one of those still to be met first. -/
inductive Traverses (t : ScopeTree) : List Nat → List Nat → Prop
  | done : Traverses t [] []
  | meet {i : Nat} {sc : Scope} {next met : List Nat} (hs : t.scopes[i]? = some sc)
      (h : Traverses t (sc.children ++ next) met) : Traverses t (i :: next) (i :: met)

theorem Traverses.append {a b met met' : List Nat} (h : Traverses t a met) (h' : Traverses t b met') :
    Traverses t (a ++ b) (met ++ met') := by
  induction h with
  | done => exact h'
  | meet hs _ ih =>
    rw [List.append_assoc] at ih
    exact .meet hs ih

theorem traverses_flatMap {met : Nat → List Nat} {is : List Nat} (h : ∀ i ∈ is, Traverses t [i] (met i)) :
    Traverses t is (is.flatMap met) := by
  induction is with
  | nil => exact .done
  | cons i is ih =>
    exact (h i (by simp)).append (ih fun j hj => h j (.tail _ hj))

namespace Nest

variable {sc : Scope}

theorem lt_child (h : Nest t) (hs : t.scopes[i]? = some sc) (hc : c ∈ sc.children) : i < c ∧ c < t.scopes.length := by
  obtain ⟨inner, hinner, hparent⟩ := h.child hs hc
  exact ⟨h.ordered hinner hparent, (List.getElem?_eq_some_iff.mp hinner).1⟩

theorem outward_child (h : Nest t) (hs : t.scopes[i]? = some sc) (hc : c ∈ sc.children) :
    t.outward c = c :: t.outward i := by
  obtain ⟨inner, hinner, hparent⟩ := h.child hs hc
  exact outward_of_parent hinner hparent (h.ordered hinner hparent)

theorem nodup_children (h : Nest t) (hs : t.scopes[i]? = some sc) : sc.children.Nodup := by
  refine List.nodup_iff_count_le_one.mpr fun c => ?_
  by_cases hc : c ∈ sc.children
  · obtain ⟨inner, hinner, hparent⟩ := h.child hs hc
    obtain ⟨-, p, outer, hp, -, houter, hcount⟩ := h.inner hinner (by have := (h.lt_child hs hc).1; omega)
    cases hp.symm.trans hparent
    cases houter.symm.trans hs
    exact Nat.le_of_eq hcount
  · rw [List.count_eq_zero_of_not_mem hc]
    exact Nat.zero_le _

/-- A scope around another is that one, or around exactly one of the children of the first. -/
theorem mem_outward_iff (h : Nest t) (hs : t.scopes[i]? = some sc) (hj : s < t.scopes.length) :
    i ∈ t.outward s ↔ i = s ∨ ∃ c ∈ sc.children, c ∈ t.outward s := by
  constructor
  · intro hi
    induction s using Nat.strongRecOn with
    | ind s ih =>
      obtain ⟨inner, hinner⟩ : ∃ inner, t.scopes[s]? = some inner := ⟨_, List.getElem?_eq_getElem hj⟩
      by_cases h0 : s = 0
      · rw [h0, outward, way_zero, List.mem_singleton] at hi
        exact .inl (hi.trans h0.symm)
      · obtain ⟨-, p, outer, hparent, hlt, houter, hcount⟩ := h.inner hinner h0
        rw [outward_of_parent hinner hparent hlt] at hi ⊢
        rcases List.mem_cons.mp hi with rfl | hi
        · exact .inl rfl
        · have hlisted : s ∈ outer.children := List.count_pos_iff.mp (by omega)
          rcases ih p hlt (Nat.lt_trans hlt hj) hi with rfl | ⟨c, hc, hcs⟩
          · cases houter.symm.trans hs
            exact .inr ⟨s, hlisted, .head _⟩
          · exact .inr ⟨c, hc, .tail _ hcs⟩
  · rintro (rfl | ⟨c, hc, hcs⟩)
    · exact mem_way_self _ _
    · refine outward_subset hcs i ?_
      rw [h.outward_child hs hc]
      exact .tail _ (mem_way_self _ _)

/-- No scope is inside of two children of one scope. -/
theorem eq_of_children {d : Nat} (h : Nest t) (hs : t.scopes[i]? = some sc) (hc : c ∈ sc.children) (hd : d ∈ sc.children)
    (hcs : c ∈ t.outward s) (hds : d ∈ t.outward s) : c = d := by
  have hone : ∀ {c d : Nat}, c ∈ sc.children → d ∈ sc.children → c ∈ t.outward d → c = d := by
    intro c d hc hd hcd
    rw [h.outward_child hs hd, List.mem_cons] at hcd
    refine hcd.resolve_right fun hci => ?_
    have := le_of_mem_way hci
    have := (h.lt_child hs hc).1
    omega
  rcases mem_outward_or hcs hds with hcd | hdc
  · exact hone hc hd hcd
  · exact (hone hd hc hdc).symm

/-- From a scope one meets the scopes that it is around, each once. -/
theorem traverses_from (h : Nest t) (hi : i < t.scopes.length) :
    ∃ met, t.Traverses [i] met ∧ met.Nodup ∧ ∀ s, s ∈ met ↔ s < t.scopes.length ∧ i ∈ t.outward s := by
  induction hn : t.scopes.length - i using Nat.strongRecOn generalizing i with
  | ind n ih =>
    obtain ⟨sc, hs⟩ : ∃ sc, t.scopes[i]? = some sc := ⟨_, List.getElem?_eq_getElem hi⟩
    have hinner : ∀ c, ∃ met, c ∈ sc.children → t.Traverses [c] met ∧ met.Nodup ∧
        ∀ s, s ∈ met ↔ s < t.scopes.length ∧ c ∈ t.outward s := by
      intro c
      by_cases hc : c ∈ sc.children
      · obtain ⟨hlt, hlen⟩ := h.lt_child hs hc
        obtain ⟨met, hmet⟩ := ih (t.scopes.length - c) (by omega) hlen rfl
        exact ⟨met, fun _ => hmet⟩
      · exact ⟨[], fun hm => absurd hm hc⟩
    choose met hmet using hinner
    have hmem : ∀ s, s ∈ sc.children.flatMap met ↔ s < t.scopes.length ∧ ∃ c ∈ sc.children, c ∈ t.outward s := by
      intro s
      rw [List.mem_flatMap]
      constructor
      · rintro ⟨c, hc, hsc⟩
        obtain ⟨hlt, hout⟩ := ((hmet c hc).2.2 s).mp hsc
        exact ⟨hlt, c, hc, hout⟩
      · rintro ⟨hlt, c, hc, hout⟩
        exact ⟨c, hc, ((hmet c hc).2.2 s).mpr ⟨hlt, hout⟩⟩
    refine ⟨i :: sc.children.flatMap met, .meet hs ?_, List.nodup_cons.mpr ⟨fun hself => ?_, ?_⟩, fun s => ?_⟩
    · rw [List.append_nil]
      exact traverses_flatMap fun c hc => (hmet c hc).1
    · obtain ⟨-, c, hc, hout⟩ := (hmem i).mp hself
      have := le_of_mem_way hout
      have := (h.lt_child hs hc).1
      omega
    · refine List.nodup_flatMap.mpr ⟨fun c hc => (hmet c hc).2.1, ?_⟩
      refine (h.nodup_children hs).imp_of_mem fun {c d} hc hd hne => ?_
      intro s hsc hsd
      exact hne (h.eq_of_children hs hc hd (((hmet c hc).2.2 s).mp hsc).2 (((hmet d hd).2.2 s).mp hsd).2)
    · rw [List.mem_cons, hmem]
      constructor
      · rintro (rfl | ⟨hlt, hin⟩)
        · exact ⟨hi, mem_way_self _ _⟩
        · exact ⟨hlt, (h.mem_outward_iff hs hlt).mpr (.inr hin)⟩
      · rintro ⟨hlt, hout⟩
        exact ((h.mem_outward_iff hs hlt).mp hout).imp Eq.symm fun hin => ⟨hlt, hin⟩

theorem zero_mem_outward (h : Nest t) (hs : s < t.scopes.length) : 0 ∈ t.outward s := by
  induction s using Nat.strongRecOn with
  | ind s ih =>
    by_cases h0 : s = 0
    · rw [h0]
      exact mem_way_self _ _
    · have hsc : t.scopes[s]? = some t.scopes[s] := List.getElem?_eq_getElem hs
      obtain ⟨-, p, outer, hparent, hlt, -⟩ := h.inner hsc h0
      rw [outward_of_parent hsc hparent hlt]
      exact .tail _ (ih p hlt (Nat.lt_trans hlt hs))

/-- Following the children from the first scope meets every scope once. -/
theorem traverses (h : Nest t) : ∃ met, t.Traverses [0] met ∧ met.Perm (List.range t.scopes.length) := by
  obtain ⟨sc, hsc, -⟩ := h.root
  obtain ⟨met, hmet, hnodup, hmem⟩ := h.traverses_from (List.getElem?_eq_some_iff.mp hsc).1
  refine ⟨met, hmet, (List.perm_ext_iff_of_nodup hnodup List.nodup_range).mpr fun s => ?_⟩
  rw [hmem, List.mem_range]
  exact and_iff_left_of_imp h.zero_mem_outward

end Nest

/-! ## Entries -/

/-- The names of the scopes lead to the entries stored there, and to all of them; and nodes
    of the file declared and used the entries. -/
structure Filed (root : Node) (t : ScopeTree) : Prop where
  stored {i x : Nat} {name : String} : t.entryIn? name i = some x ↔
    ∃ e, t.entryAt? x = some e ∧ e.scope = i ∧ e.name = name
  declared {x : Nat} {e : Entry} : t.entryAt? x = some e →
    ∃ m as, Way root m as ∧ m.number = e.node ∧ e.name ∈ m.kind.names
  used {x k : Nat} {e : Entry} : t.entryAt? x = some e → k ∈ e.usages → k ∈ root.numbers

namespace Filed

theorem scope_lt {e : Entry} (h : Filed root t) (he : t.entryAt? x = some e) : e.scope < t.scopes.length := by
  have hin := h.stored.mpr ⟨e, he, rfl, rfl⟩
  obtain ⟨sc, hsc, -⟩ := Option.bind_eq_some_iff.mp hin
  exact (List.getElem?_eq_some_iff.mp hsc).1

/-- Nothing but where nodes are is different. -/
theorem of_eq (h : Filed root t) (he : t'.entries = t.entries) (hn : ∀ name i, t'.entryIn? name i = t.entryIn? name i) :
    Filed root t' := by
  have hat : t'.entryAt? = t.entryAt? := by
    funext x
    rw [entryAt?, he, entryAt?]
  constructor
  · intro i x name
    rw [hn, hat]
    exact h.stored
  · rw [hat]
    exact h.declared
  · rw [hat]
    exact h.used

/-- An entry is changed, but not its place. -/
theorem modifyEntry {f : Entry → Entry} (h : Filed root t) (hf : ∀ e, SameEntry e (f e)) (y : Nat)
    (hu : ∀ e, ∀ k ∈ (f e).usages, k ∈ e.usages ∨ k ∈ root.numbers) :
    Filed root { t with entries := t.entries.modify y f } := by
  have hback : ∀ {x e'}, (t.entries.modify y f)[x]? = some e' → ∃ e, t.entryAt? x = some e ∧ SameEntry e e' ∧
      ∀ k ∈ e'.usages, k ∈ e.usages ∨ k ∈ root.numbers := by
    intro x e' he'
    obtain ⟨e, he, rfl⟩ := of_getElem?_modify he'
    refine ⟨e, he, ?_⟩
    split
    · exact ⟨hf e, hu e⟩
    · exact ⟨⟨rfl, rfl, rfl, rfl⟩, fun k hk => .inl hk⟩
  constructor
  · intro i x name
    refine h.stored.trans ⟨?_, ?_⟩
    · rintro ⟨e, he, hscope, hname⟩
      obtain ⟨e', he', -, hname', -, hscope'⟩ := (Grows.modifyEntry hf y : Grows [] t _).entries he
      exact ⟨e', he', hscope'.trans hscope, hname'.trans hname⟩
    · rintro ⟨e', he', hscope, hname⟩
      obtain ⟨e, he, ⟨-, hname', -, hscope'⟩, -⟩ := hback he'
      exact ⟨e, he, hscope'.symm.trans hscope, hname'.symm.trans hname⟩
  · intro x e' he'
    obtain ⟨e, he, ⟨-, hname, hnode, -⟩, -⟩ := hback he'
    rw [hname, hnode]
    exact h.declared he
  · intro x k e' he' hk
    obtain ⟨e, he, -, huses⟩ := hback he'
    exact (huses k hk).elim (h.used he) id

theorem declareIn (h : Filed root t) {m : Node} {as : List Node} (hm : Way root m as) (hname : name ∈ m.kind.names)
    (hs : scope < t.scopes.length) (hnew : t.entryIn? name scope = none) (kind : Entry.Kind) :
    Filed root (t.declareIn scope name kind m.number).2 := by
  have hentries : ∀ {x e}, (t.declareIn scope name kind m.number).2.entryAt? x = some e ↔
      t.entryAt? x = some e ∨ x = t.entries.length ∧ e = ⟨kind, name, m.number, scope, none, []⟩ := by
    intro x e
    rw [declareIn_of_none hnew, entryAt?, entryAt?, List.getElem?_append]
    split
    · simp; omega
    · rename_i hx
      rw [List.getElem?_eq_none (Nat.le_of_not_lt hx), List.getElem?_singleton]
      split
      · simp [eq_comm]; omega
      · simp; omega
  constructor
  · intro i x name'
    rw [entryIn?_declareIn_of_none hnew]
    split
    · rename_i hhere
      obtain ⟨⟨rfl, rfl⟩, -⟩ := hhere
      constructor
      · intro hx
        exact ⟨_, hentries.mpr (.inr ⟨(Option.some.inj hx).symm, rfl⟩), rfl, rfl⟩
      · rintro ⟨e, he, hscope, hname⟩
        rcases hentries.mp he with he | ⟨rfl, -⟩
        · rw [h.stored.mpr ⟨e, he, hscope, hname⟩] at hnew
          cases hnew
        · rfl
    · rename_i hother
      refine h.stored.trans ⟨?_, ?_⟩
      · rintro ⟨e, he, hplace⟩
        exact ⟨e, hentries.mpr (.inl he), hplace⟩
      · rintro ⟨e, he, hscope, hname⟩
        rcases hentries.mp he with he | ⟨-, rfl⟩
        · exact ⟨e, he, hscope, hname⟩
        · exact absurd ⟨⟨hscope, hname⟩, hscope ▸ hs⟩ hother
  · intro x e he
    rcases hentries.mp he with he | ⟨-, rfl⟩
    · exact h.declared he
    · exact ⟨m, as, hm, rfl, hname⟩
  · intro x k e he hk
    rcases hentries.mp he with he | ⟨-, rfl⟩
    · exact h.used he hk
    · cases hk

end Filed

/-! ## Links -/

/-- An entry that another one may take over: of its name, of a kind that can be imported,
    and stored in a scope around the procedure of the other. -/
structure TakesOver (t : ScopeTree) (f e : Entry) : Prop where
  name : e.name = f.name
  kind : e.kind = .localVariable ∨ e.kind = .constant ∨ e.kind = .parameter
  outside : ∃ p, t.procedureScope? f.scope = some p ∧ e.scope ∈ t.outward p ∧ e.scope ≠ p

/-- What is taken over is older. -/
def Linked (t : ScopeTree) : Prop :=
  ∀ (y x : Nat) (f : Entry), t.entryAt? y = some f → f.imported = some x →
    x < y ∧ ∃ e, t.entryAt? x = some e ∧ t.TakesOver f e

/-- What can be imported into a scope is older than all entries of its procedure and of the
    scopes opened since. -/
def Elder (t : ScopeTree) (s : Nat) : Prop :=
  ∀ p, t.procedureScope? s = some p → ∀ x e, t.entryAt? x = some e → e.kind.isImportable → e.scope ∈ t.beyond s →
    ∀ y f, t.entryAt? y = some f → p ≤ f.scope → x < y

theorem kind_of_isImportable {kind : Entry.Kind} (h : kind.isImportable) :
    kind = .localVariable ∨ kind = .constant ∨ kind = .parameter := by
  cases kind <;> simp_all [Entry.Kind.isImportable]

theorem TakesOver.mono {f e f' e' : Entry} {ns : List Nat} (h : t.TakesOver f e) (hg : Grows ns t t')
    (hf : SameEntry f f') (he : SameEntry e e') (hs : f.scope < t.scopes.length) : t'.TakesOver f' e' := by
  obtain ⟨hfk, hfn, -, hfs⟩ := hf
  obtain ⟨hek, hen, -, hes⟩ := he
  obtain ⟨p, hp, hin, hne⟩ := h.outside
  have hlt : p < t.scopes.length := Nat.lt_of_le_of_lt (le_of_mem_way (List.mem_of_find?_eq_some hp)) hs
  refine ⟨by rw [hen, hfn, h.name], hek ▸ h.kind, p, ?_, ?_, hes ▸ hne⟩
  · rw [hfs, hg.procedureScope?_eq hs, hp]
  · rw [hes, hg.outward_eq hlt]
    exact hin

/-! ## Edits -/

theorem mem_beyond (ho : t.Ordered) (h : i ∈ t.beyond s) :
    ∃ p, t.procedureScope? s = some p ∧ i ∈ t.outward p ∧ i ≠ p := by
  unfold beyond at h
  cases hp : t.procedureScope? s with
  | none => simp [hp] at h
  | some p =>
    cases hs : t.scopes[p]? with
    | none => simp [hp, hs] at h
    | some sc =>
      cases hq : sc.parent with
      | none => simp [hp, hs, hq] at h
      | some q =>
        have hlt := ho hs hq
        have hin : i ∈ t.outward q := by simpa [hp, hs, hq] using h
        have := le_of_mem_way hin
        refine ⟨p, rfl, ?_, by omega⟩
        rw [outward_of_parent hs hq hlt]
        exact .tail _ hin

namespace Edit

theorem nest (h : Edit job t t') (hn : t.Nest) (hr : job.scope < t.scopes.length) : t'.Nest := by
  cases h with
  | seats hs => exact hn.of_sameShape fun i => by rw [hs]
  | opened kind hk => exact hn.openScope hk hr _
  | declared => exact hn.of_sameShape (sameShape_declareIn _ _ _ _ _)
  | used | linked => exact hn.of_sameShape fun _ => rfl

theorem filed {as : List Node} (h : Edit job t t') (hf : t.Filed root) (hw : Way root job.node as)
    (hr : job.scope < t.scopes.length) : t'.Filed root := by
  cases h with
  | seats hs he => exact hf.of_eq he fun name i => by rw [entryIn?, hs, entryIn?]
  | opened => exact hf.of_eq rfl (entryIn?_openScope t _ _ _)
  | @declared scope name kind hnew hname hin =>
    refine hf.declareIn hw hname ?_ hnew kind
    rcases hin with rfl | ⟨-, rfl | hp⟩
    · exact hr
    · exact Nat.zero_lt_of_lt hr
    · exact Nat.lt_of_le_of_lt (le_of_mem_way (List.mem_of_find?_eq_some hp)) hr
  | used x =>
    refine hf.modifyEntry (f := fun e => { e with usages := e.usages ++ [job.node.number] }) (fun _ => ⟨rfl, rfl, rfl, rfl⟩) x
      fun e k hk => ?_
    refine (List.mem_append.mp hk).imp_right fun hk => ?_
    rw [List.mem_singleton.mp hk]
    exact hw.number_mem
  | @linked y x =>
    exact hf.modifyEntry (f := fun e => { e with imported := some x }) (fun _ => ⟨rfl, rfl, rfl, rfl⟩) y fun e k hk => .inl hk

/-- An entry was there before, and takes over what it did or what an import has just found
    for it; or it is new. -/
theorem entry_cases {e' : Entry} (h : Edit job t t') (he : t'.entryAt? x = some e') :
    (∃ e, t.entryAt? x = some e ∧ SameEntry e e' ∧
      (e'.imported = e.imported ∨ e.scope = job.scope ∧ ∃ z target, e'.imported = some z ∧
        t.importTarget? job.scope e.name = some z ∧ t.entryAt? z = some target ∧ target.kind.isImportable)) ∨
    x = t.entries.length ∧ e'.imported = none ∧ (e'.scope = job.scope ∨ e'.kind.isImportable = false) := by
  have hsame : ∀ e : Entry, SameEntry e e := fun _ => ⟨rfl, rfl, rfl, rfl⟩
  cases h with
  | seats hs hentries =>
    rw [entryAt?, hentries] at he
    exact .inl ⟨e', he, hsame e', .inl rfl⟩
  | opened => exact .inl ⟨e', he, hsame e', .inl rfl⟩
  | declared kind hnew hname hin =>
    rw [declareIn_of_none hnew, entryAt?, List.getElem?_append] at he
    split at he
    · exact .inl ⟨e', he, hsame e', .inl rfl⟩
    · rename_i hx
      rw [List.getElem?_singleton] at he
      split at he
      · cases he
        exact .inr ⟨by omega, rfl, hin.imp id fun h => h.1⟩
      · cases he
  | used z =>
    obtain ⟨e, hold, rfl⟩ := of_getElem?_modify he
    refine .inl ⟨e, hold, ?_⟩
    split <;> exact ⟨⟨rfl, rfl, rfl, rfl⟩, .inl rfl⟩
  | @linked y z f target hf hscope hfound htarget hk =>
    obtain ⟨e, hold, rfl⟩ := of_getElem?_modify he
    refine .inl ⟨e, hold, ?_⟩
    split
    · rename_i hy
      subst hy
      cases hf.symm.trans hold
      exact ⟨⟨rfl, rfl, rfl, rfl⟩, .inr ⟨hscope, z, target, rfl, hfound, htarget, hk⟩⟩
    · exact ⟨hsame e, .inl rfl⟩

theorem elder (h : Edit job t t') (ho : t.Ordered) (hr : job.scope < t.scopes.length) (hs : s ∈ t.outward job.scope)
    (he : t.Elder s) : t'.Elder s := by
  have hlt : s < t.scopes.length := Nat.lt_of_le_of_lt (le_of_mem_way hs) hr
  intro p hp x e' hx hk hin y f' hy hle
  rw [h.grows.procedureScope?_eq hlt] at hp
  rw [h.grows.beyond_eq hlt ho] at hin
  rcases h.entry_cases hx with ⟨e, hx, ⟨hkind, -, -, hscope⟩, -⟩ | ⟨-, -, hnew⟩
  · rcases h.entry_cases hy with ⟨f, hy, ⟨-, -, -, hscope'⟩, -⟩ | ⟨rfl, -⟩
    · exact he p hp x e hx (hkind ▸ hk) (hscope ▸ hin) y f hy (hscope' ▸ hle)
    · exact (List.getElem?_eq_some_iff.mp hx).1
  · -- what is new is stored further in, or cannot be imported
    rcases hnew with hnew | hnew
    · exact absurd hnew (ne_of_mem_beyond ho hs hin).1
    · rw [hnew] at hk
      cases hk

theorem links (h : Edit job t t') (ho : t.Ordered) (hf : t.Filed root) (hl : t.Linked) (he : t.Elder job.scope) :
    t'.Linked := by
  have hmoved : ∀ {y x : Nat} {f f' e : Entry}, x < y → t.entryAt? y = some f → SameEntry f f' → t.entryAt? x = some e →
      t.TakesOver f e → x < y ∧ ∃ e', t'.entryAt? x = some e' ∧ t'.TakesOver f' e' := by
    intro y x f f' e hlt hy hsame hx htakes
    obtain ⟨e', hx', hsame'⟩ := h.carries.entries hx
    exact ⟨hlt, e', hx', htakes.mono h.grows hsame hsame' (hf.scope_lt hy)⟩
  intro y x f' hy hx
  rcases h.entry_cases hy with ⟨f, hyf, hsame, hold | ⟨hscope, z, target, hz, hfound, htarget, hk⟩⟩ | ⟨-, hnone, -⟩
  · obtain ⟨hlt, e, hxe, htakes⟩ := hl y x f hyf (hold.symm.trans hx)
    exact hmoved hlt hyf hsame hxe htakes
  · obtain rfl : z = x := Option.some.inj (hz.symm.trans hx)
    obtain ⟨i, hi, hxi⟩ := List.exists_of_findSome?_eq_some hfound
    obtain ⟨e, hxe, rfl, hname⟩ := hf.stored.mp hxi
    obtain rfl : target = e := Option.some.inj (htarget.symm.trans hxe)
    obtain ⟨p, hp, hout, hne⟩ := mem_beyond ho hi
    have hlt : z < y := by
      refine he p hp z target htarget hk hi y f hyf ?_
      rw [hscope]
      exact le_of_mem_way (List.mem_of_find?_eq_some hp)
    exact hmoved hlt hyf hsame htarget ⟨hname, kind_of_isImportable hk, p, hscope ▸ hp, hout, hne⟩
  · rw [hnone] at hx
    cases hx

end Edit

/-! ## The invariant -/

/-- While edits are made for a job: all is as it should be, and the scopes that are open are
    around the one of the job. -/
structure Regular (root : Node) (job : Job) (open_ : List Nat) (t : ScopeTree) : Prop where
  inRange : job.scope < t.scopes.length
  nest : t.Nest
  filed : t.Filed root
  linked : t.Linked
  around : ∀ s ∈ open_, s ∈ t.outward job.scope
  elder : ∀ s ∈ open_, t.Elder s

theorem Regular.edits {as : List Node} {open_ : List Nat} (h : Regular root job open_ t) (hw : Way root job.node as)
    (hown : job.scope ∈ open_) (he : Edits job t t') : Regular root job open_ t' := by
  induction he with
  | refl => exact h
  | tail _ he ih =>
    have ho : Ordered _ := ih.nest.ordered
    refine ⟨?_, he.nest ih.nest ih.inRange, he.filed ih.filed hw ih.inRange, he.links ho ih.filed ih.linked (ih.elder _ hown),
      fun s hs => ?_, fun s hs => he.elder ho ih.inRange (ih.around s hs) (ih.elder s hs)⟩
    · obtain ⟨sc, hsc, -⟩ := he.grows.scopes (List.getElem?_eq_getElem ih.inRange)
      exact (List.getElem?_eq_some_iff.mp hsc).1
    · rw [he.grows.outward_eq ih.inRange]
      exact ih.around s hs

/-- While jobs are done: all is as it should be. -/
structure Represented (root : Node) (todo : List Job) (t : ScopeTree) : Prop where
  using_ : Using root todo t
  nest : t.Nest
  filed : t.Filed root
  linked : t.Linked
  elder : ∀ job ∈ todo, t.Elder job.scope

/-- In a scope that was just opened nothing is stored, and a body shares its procedure. -/
theorem elder_new (hn : t'.Nest) (hlt : scope < s) (hs : t'.scopes[s]? = some sc) (hp : sc.parent = some scope)
    (hstored : Scoped s t') (he : t'.Elder scope) : t'.Elder s := by
  obtain ⟨hkind, -⟩ := hn.inner hs (by omega)
  cases hk : sc.kind with
  | global => exact absurd hk hkind
  | procedure =>
    intro p hp x e _ _ _ y f hf hle
    rw [procedureScope?_of_procedure hs hk] at hp
    obtain rfl : s = p := Option.some.inj hp
    exact absurd (hstored y f hf) (Nat.not_lt.mpr hle)
  | body =>
    have hsame := procedureScope?_of_body hs hk hp hlt
    intro p hp x e hx hki hin
    rw [beyond, hsame] at hin
    rw [hsame] at hp
    exact he p hp x e hx hki hin

theorem Represented.step (h : Represented root (job :: todo) t) (hs : Step job t left t') (hn : root.numbers.Nodup) :
    Represented root (left ++ todo) t' := by
  have hlinking := h.using_.linking
  have hc : job.scope < t.scopes.length := hlinking.inRange job (.head _)
  have hregular : Regular root job ((job :: todo).map Job.scope) t := by
    refine ⟨hc, h.nest, h.filed, h.linked, fun s hs => ?_, fun s hs => ?_⟩
    · obtain ⟨j, hj, rfl⟩ := List.mem_map.mp hs
      rcases List.mem_cons.mp hj with rfl | hj
      · exact mem_way_self _ _
      · exact (List.pairwise_cons.mp hlinking.nested).1 j hj
    · obtain ⟨j, hj, rfl⟩ := List.mem_map.mp hs
      exact h.elder j hj
  have hlater := hregular.edits h.using_.fits.way (by simp) (hs.edits h.using_.resolving.named)
  refine ⟨h.using_.step hs hn, hlater.nest, hlater.filed, hlater.linked, fun j hj => ?_⟩
  have hjob : t'.Elder job.scope := hlater.elder _ (by simp)
  rcases List.mem_append.mp hj with hj | hj
  · rcases hs.scopes_cases with ⟨-, hsame⟩ | ⟨-, hsame, sc, hsc, hparent⟩
    · rw [hsame j hj]
      exact hjob
    · rw [hsame j hj]
      exact elder_new hlater.nest hc hsc hparent (hlinking.stored.step hs hc) hjob
  · exact hlater.elder _ (List.mem_map.mpr ⟨j, .tail _ hj, rfl⟩)

theorem Represented.start (h : tree.FormedFile) :
    Represented tree.root (jobs .visit [tree.root] 0 tree.root.children)
      ((ScopeTree.start tree.root.number).place tree.root.number 0) := by
  have hfirst : ∀ {i sc}, ((ScopeTree.start tree.root.number).place tree.root.number 0).scopes[i]? = some sc →
      i = 0 ∧ sc = ⟨.global, none, tree.root.number, [], .empty⟩ := by
    intro i sc hi
    cases i with
    | zero => exact ⟨rfl, (Option.some.inj hi).symm⟩
    | succ i => cases hi
  refine ⟨.start h, ⟨⟨_, rfl, rfl, rfl⟩, fun hi h0 => absurd (hfirst hi).1 h0, fun hi hc => ?_⟩, ⟨fun {i x name} => ?_, ?_, ?_⟩,
    fun y x f hy => (by cases hy), fun j _ p _ x e hx => (by cases hx)⟩
  · rw [(hfirst hi).2] at hc
    cases hc
  · constructor
    · intro hx
      obtain ⟨sc, hsc, hfind⟩ := Option.bind_eq_some_iff.mp hx
      rw [(hfirst hsc).2] at hfind
      cases hfind
    · rintro ⟨e, he, -⟩
      cases he
  · intro x e he
    cases he
  · intro x k e he
    cases he

theorem represented_build (h : tree.FormedFile) : Represented tree.root [] (build tree) :=
  (run_build h).invariant (fun hs hi => hi.step hs h.nodup) (.start h)

/-! ## Following links -/

theorem Linked.wellFounded (h : t.Linked) : WellFounded fun x y => t.linkOf? y = some x := by
  refine Subrelation.wf (fun {x y} hl => ?_) Nat.lt_wfRel.wf
  obtain ⟨f, hf, hx⟩ := exists_of_linkOf? hl
  exact (h y x f hf hx).1

/-- The search for a procedure goes on at every link: none leads forward. -/
theorem Linked.procedureOf?_eq {w : World} (h : w.scopes.Linked) (procedures : Table Nat Nat) (y : Nat) :
    w.procedureOf? procedures y = (procedures.find? y).or ((w.scopes.linkOf? y).bind (w.procedureOf? procedures)) := by
  rw [World.procedureOf?]
  cases procedures.find? y with
  | some procedure => rfl
  | none =>
    have hlink : (w.scopes.entryAt? y).bind (·.imported) = w.scopes.linkOf? y := rfl
    rw [hlink]
    cases hl : w.scopes.linkOf? y with
    | none => rfl
    | some x =>
      obtain ⟨f, hf, hx⟩ := exists_of_linkOf? hl
      have hlt : x < y := (h y x f hf hx).1
      simp [hlt]

/-- The scopes of a parsed file are a tree, in which following the children meets every scope
    once; its entries are stored under their names in their scopes and nowhere else, and
    belong to nodes of the file; and links lead outward, out of the procedure, to older
    entries that can be imported, so that following them comes to an end. -/
theorem build_represents (tokens : List Token) :
    let tree := (Grammar.parse tokens).1
    let t := build tree
    (t.Nest ∧ ∃ met, t.Traverses [0] met ∧ met.Perm (List.range t.scopes.length)) ∧
      (∀ i x name, t.entryIn? name i = some x ↔ ∃ e, t.entryAt? x = some e ∧ e.scope = i ∧ e.name = name) ∧
      (∀ x e, t.entryAt? x = some e → ∀ k ∈ e.node :: e.usages, ∃ n ∈ tree.nodes, n.number = k) ∧
      t.Linked ∧ (WellFounded fun x y => t.linkOf? y = some x) ∧
      ∀ w : World, w.scopes = t → ∀ procedures y,
        w.procedureOf? procedures y = (procedures.find? y).or ((t.linkOf? y).bind (w.procedureOf? procedures)) := by
  intro tree t
  have h : Represented tree.root [] t := represented_build (Grammar.parse_formedFile tokens)
  have hnodes : ∀ k ∈ tree.root.numbers, ∃ n ∈ tree.nodes, n.number = k := by
    intro k hk
    rw [← tree.map_number_nodes] at hk
    exact List.mem_map.mp hk
  refine ⟨⟨h.nest, h.nest.traverses⟩, fun i x name => h.filed.stored, fun x e he k hk => ?_, h.linked, h.linked.wellFounded,
    fun w hw procedures y => ?_⟩
  · rcases List.mem_cons.mp hk with rfl | hk
    · obtain ⟨m, as, hm, hnumber, -⟩ := h.filed.declared he
      exact ⟨m, SyntaxTree.mem_nodes_iff.mpr ⟨as, hm⟩, hnumber⟩
    · exact hnodes k (h.filed.used he hk)
  · have hlinked : w.scopes.Linked := hw ▸ h.linked
    rw [← hw]
    exact hlinked.procedureOf?_eq procedures y

end Magik.ScopeTree
