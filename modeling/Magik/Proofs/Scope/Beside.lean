/-
  Magik.Proofs.Scope.Beside — what later items leave to the earlier ones.

  Walking over items begins in the global scope and goes into new scopes from there. Of the
  scopes that were there before, it comes back to the global one only, so no other one gets a
  name, and no entry in them a link (`Beside`). What a tree knows of the nodes of its first
  items is what the tree of these items alone knows (`retains_build`).
-/

import Magik.Proofs.Scope.Twins

namespace Magik.ScopeTree

open Node (Way numbersAll)

variable {t t' base : ScopeTree} {job : Job} {left todo : List Job} {i c x y : Nat} {name : String} {tree : SyntaxTree}

/-- Nodes that no job has to do with keep their places. -/
theorem Run.seats_eq {k : Nat} (hr : Run todo t t') (hk : k ∉ pending todo) :
    t'.scopeOf? k = t.scopeOf? k ∧ t'.scopeOpenedBy? k = t.scopeOpenedBy? k := by
  induction hr with
  | done => exact ⟨rfl, rfl⟩
  | step hs _ ih =>
    rw [pending_cons, List.mem_append, not_or] at hk
    have hrest := ih (by
      rw [pending_append, List.mem_append, not_or]
      exact ⟨fun hl => hk.1 (hs.pending_subset hl), hk.2⟩)
    exact ⟨hrest.1.trans (hs.scopeOf?_eq hk.1), hrest.2.trans (hs.scopeOpenedBy?_eq hk.1)⟩

/-- The global scope, or one that the tree before did not have. -/
def Apart (base : ScopeTree) (i : Nat) : Prop := i = 0 ∨ base.scopes.length ≤ i

/-- What an import links is an entry of its own scope, and it found something there. -/
theorem linkOf?_declareVariable (hn : t.Named) (scope : Nat) (kind : Entry.Kind) (name : String) (node y : Nat) :
    (t.declareVariable scope kind name node).linkOf? y = t.linkOf? y ∨
      ∃ f x, (t.declareVariable scope kind name node).entries[y]? = some f ∧ f.scope = scope ∧
        (t.declareVariable scope kind name node).importTarget? scope f.name = some x := by
  rcases declareVariable_cases hn scope kind name node with h | ⟨-, x, _, -, rfl, hx, -, hlinks⟩
  · exact .inl (h y).2
  · rw [hlinks]
    split
    · rename_i he
      obtain ⟨e, hentry, hname, hscope⟩ := entry_declareIn hn scope name kind node
      obtain ⟨f, hf, -, hname', -, hscope'⟩ := (Carries.afterDeclareIn scope kind name node).entries hentry
      refine .inr ⟨f, x, he ▸ hf, hscope'.trans hscope, ?_⟩
      rw [hname', hname, importTarget?_congr (scopes_declareVariable _ _ _ _ _)]
      exact hx
    · exact .inl rfl

/-- A step links entries of its own scope only, and only where an import finds something. -/
theorem Step.linkOf?_eq (hs : Step job t left t') (hn : t.Named) (y : Nat) :
    t'.linkOf? y = t.linkOf? y ∨
      ∃ f x, t'.entries[y]? = some f ∧ f.scope = job.scope ∧ t'.importTarget? job.scope f.name = some x := by
  have hplaced : ∀ {node scope : Nat}, (t.place node scope).Named := fun {_ _} => (Carries.place _ _).named hn
  cases hs with
  | read =>
    obtain ⟨-, -, -, hlinks⟩ := usedBy_read hplaced _ _ _
    exact .inl (hlinks y)
  | target => exact .inl (SameUses.assign (t.place _ _) _ _ _ y).2
  | declared => exact linkOf?_declareVariable hplaced _ _ _ _ y
  | named | bound => exact linkOf?_declareVariable hn _ _ _ _ y
  | _ => exact .inl rfl

/-- While jobs are done that begin in the global scope: they stay out of the scopes that were
    there, and what was there keeps its names and its links. -/
structure Beside (base : ScopeTree) (todo : List Job) (t : ScopeTree) : Prop where
  jobs : ∀ job ∈ todo, Apart base job.scope
  length : base.scopes.length ≤ t.scopes.length
  parents : ∀ {i sc p}, base.scopes.length ≤ i → t.scopes[i]? = some sc → sc.parent = some p → Apart base p
  global : ∃ sc, t.scopes[0]? = some sc ∧ sc.kind = .global
  named : t.Named
  carries : Carries base t
  names : ∀ {i}, ¬ Apart base i → ∀ name, t.entryIn? name i = base.entryIn? name i
  links : ∀ {x}, x < base.entries.length → t.linkOf? x = base.linkOf? x

/-- An import in the global scope finds nothing. -/
theorem importTarget?_zero (h : ∃ sc, t.scopes[0]? = some sc ∧ sc.kind = .global) (name : String) :
    t.importTarget? 0 name = none := by
  obtain ⟨sc, hs, hk⟩ := h
  have hp : t.procedureScope? 0 = none := by
    rw [procedureScope?, outward, way_zero]
    simp [hs, hk]
  simp [importTarget?, beyond, hp]

/-- An entry that is stored in a new scope is new. -/
theorem Carries.le_of_scope (h : Carries base t) (hstored : Scoped base.scopes.length base) {f : Entry}
    (hf : t.entries[y]? = some f) (hscope : base.scopes.length ≤ f.scope) : base.entries.length ≤ y := by
  refine Nat.le_of_not_lt fun hlt => ?_
  obtain ⟨f', hf', -, -, -, hsame⟩ := h.entries (List.getElem?_eq_getElem hlt)
  cases hf.symm.trans hf'
  have := hstored y _ (List.getElem?_eq_getElem hlt)
  omega

namespace Beside

/-- Around a scope that is apart are only scopes that are. -/
theorem of_mem_outward (h : Beside base todo t) (hc : Apart base c) (hi : i ∈ t.outward c) : Apart base i := by
  induction c using Nat.strongRecOn with
  | ind c ih =>
    rcases hc with rfl | hc
    · rw [outward, way_zero] at hi
      exact .inl (List.mem_singleton.mp hi)
    · rw [outward, way] at hi
      rcases List.mem_cons.mp hi with rfl | hi
      · exact .inr hc
      · cases hs : t.scopes[c]? with
        | none => simp [hs] at hi
        | some sc =>
          cases hp : sc.parent with
          | none => simp [hs, hp] at hi
          | some p =>
            simp only [hs, hp, Option.bind_some] at hi
            split at hi
            · exact ih p ‹_› (h.parents hc hs hp) hi
            · cases hi

theorem start (hn : base.Named) (hg : ∃ sc, base.scopes[0]? = some sc ∧ sc.kind = .global) (as ns : List Node) :
    Beside base (ScopeTree.jobs .visit as 0 ns) base := by
  refine ⟨fun j hj => .inl (mem_jobs_scope hj), Nat.le_refl _, fun hi hsc _ => ?_, hg, hn, .refl base,
    fun _ _ => rfl, fun _ => rfl⟩
  rw [List.getElem?_eq_none hi] at hsc
  cases hsc

theorem step (h : Beside base (job :: todo) t) (hs : Step job t left t') (hstored : Scoped base.scopes.length base) :
    Beside base (left ++ todo) t' := by
  have hapart : Apart base job.scope := h.jobs job (.head _)
  have hglobal : ∃ sc, t'.scopes[0]? = some sc ∧ sc.kind = .global := by
    obtain ⟨sc, hsc, hk⟩ := h.global
    obtain ⟨sc', hsc', hk', -⟩ := hs.grows.scopes hsc
    exact ⟨sc', hsc', hk'.trans hk⟩
  refine ⟨fun j hj => ?_, ?_, fun {i sc p} hi hsc hp => ?_, hglobal, hs.carries.named h.named,
    h.carries.trans hs.carries, fun {i} hi name => ?_, fun {x} hx => ?_⟩
  · rcases List.mem_append.mp hj with hj | hj
    · rcases hs.scopes_cases with ⟨-, hsame⟩ | ⟨-, hsame, -⟩
      · exact hsame j hj ▸ hapart
      · exact .inr (hsame j hj ▸ h.length)
    · exact h.jobs j (.tail _ hj)
  · have := h.length
    rcases hs.scopes_cases with ⟨hlen, -⟩ | ⟨hlen, -⟩ <;> omega
  · by_cases hlt : i < t.scopes.length
    · obtain ⟨sc', hsc', -, hparent, -⟩ := hs.grows.scopes (List.getElem?_eq_getElem hlt)
      cases hsc.symm.trans hsc'
      exact h.parents hi (List.getElem?_eq_getElem hlt) (hparent ▸ hp)
    · have hlt' := (List.getElem?_eq_some_iff.mp hsc).1
      rcases hs.scopes_cases with ⟨hlen, -⟩ | ⟨hlen, -, new, hnew, hparent⟩
      · omega
      · obtain rfl : i = t.scopes.length := by omega
        cases hsc.symm.trans hnew
        cases hp.symm.trans hparent
        exact hapart
  · rw [hs.entryIn?_eq (fun h0 => hi (Or.inl h0)) (fun hj => hi (hj ▸ hapart)) fun hp => ?_]
    · exact h.names hi name
    · exact hi (h.of_mem_outward hapart (List.mem_of_find?_eq_some hp))
  · rcases hs.linkOf?_eq h.named x with hl | ⟨f, y, hf, hscope, htarget⟩
    · exact hl.trans (h.links hx)
    · rcases hapart with h0 | hle
      · rw [h0, importTarget?_zero hglobal] at htarget
        cases htarget
      · have := (h.carries.trans hs.carries).le_of_scope hstored hf (hscope ▸ hle)
        omega

end Beside

/-! ## Nodes and the entries there are -/

/-- Nodes refer to entries that there are. -/
def Grounded (t : ScopeTree) : Prop := ∀ j x : Nat, t.entryOf? j = some x → x < t.entries.length

theorem lt_of_entry {e : Entry} (h : t.entries[x]? = some e) : x < t.entries.length := (List.getElem?_eq_some_iff.mp h).1

theorem Carries.length_le (h : Carries t t') : t.entries.length ≤ t'.entries.length := by
  refine Nat.le_of_not_lt fun hlt => ?_
  obtain ⟨e, he, -⟩ := h.entries (List.getElem?_eq_getElem hlt)
  exact Nat.lt_irrefl _ (lt_of_entry he)

/-- A node may come to refer to an entry that there is. -/
theorem Grounded.refers {node : Nat} {among : List Nat} (h : Grounded t) (hg : Grows [node] t t')
    (hr : Refers t' node name among) : Grounded t' := by
  intro j x hx
  by_cases hj : j = node
  · obtain ⟨y, e, hy, he, -⟩ := hr
    rw [hj, hy] at hx
    cases hx
    exact lt_of_entry he
  · rw [hg.resolved (by simpa using hj)] at hx
    exact Nat.lt_of_lt_of_le (h j x hx) hg.length_le

theorem Grounded.step (h : Grounded t) (hs : Step job t left t') (hn : t.Named) : Grounded t' := by
  have hplaced : ∀ {node scope : Nat}, (t.place node scope).Named := fun {_ _} => (Carries.place _ _).named hn
  let among := 0 :: (t.procedureScope? job.scope).toList ++ t.visible job.scope
  have hv : ∀ i ∈ t.visible job.scope, i ∈ among := fun i hi => List.mem_append_right _ hi
  have h0 : 0 ∈ among := (.head _)
  have hp : ∀ i, t.procedureScope? job.scope = some i → i ∈ among := by simp +contextual [among]
  have hg := hs.grows
  cases hs with
  | read => exact h.refers hg (refers_read hplaced hv h0 _)
  | target => exact h.refers hg (refers_assign hplaced hv h0 hp _)
  | declared => exact h.refers hg (refers_declareVariable hplaced (List.mem_singleton_self _) _ _)
  | named | bound => exact h.refers hg (refers_declareVariable hn (List.mem_singleton_self _) _ _)
  | _ => exact h

theorem grounded_build (h : tree.FormedFile) : Grounded (build tree) := by
  have hrun := (run_build h).invariant (P := fun _ t => Grounded t ∧ t.Named)
    (fun hs hi => ⟨hi.1.step hs hi.2, hs.carries.named hi.2⟩)
  exact (hrun ⟨fun j x hx => (by cases hx), (Resolving.start h).named⟩).1

/-- Only the file opens the global scope. -/
theorem Sound.opened_pos {root b : Node} {as : List Node} {s : Nat} (h : Sound root todo t) (hw : Way root b as)
    (has : as ≠ []) (ho : t.scopeOpenedBy? b.number = some s) : 0 < s := by
  cases h.owns hw ho with
  | file => exact absurd rfl has
  | definition _ _ _ _ _ hlt | block _ _ _ _ _ _ hlt => exact Nat.zero_lt_of_lt hlt
  | routine _ hd ho' =>
    cases hw with
    | child up _ =>
      cases h.owns up ho' with
      | definition _ _ _ _ _ hlt => exact Nat.zero_lt_of_lt hlt
      | file hk | routine hk | block hk =>
        rw [hk] at hd
        cases hd

/-! ## The first items of a file -/

/-- The second tree knows of these nodes, and of the entries of the first, what the first
    knows. -/
structure Retains (ns : List Nat) (t t' : ScopeTree) : Prop where
  placed : ∀ j ∈ ns, t'.scopeOf? j = t.scopeOf? j
  opened : ∀ j ∈ ns, t'.scopeOpenedBy? j = t.scopeOpenedBy? j
  resolved : ∀ j ∈ ns, t'.entryOf? j = t.entryOf? j
  entries : ∀ {x e}, t.entryAt? x = some e → ∃ e', t'.entryAt? x = some e' ∧ SameEntry e e' ∧ e'.imported = e.imported
  nodes : ∀ {i}, i ≠ 0 → i < t.scopes.length → t'.scopes[i]?.map Scope.node = t.scopes[i]?.map Scope.node
  names : ∀ {i}, i ≠ 0 → i < t.scopes.length → ∀ name, t'.entryIn? name i = t.entryIn? name i

/-- Walking over items of a file is the run of their visits. -/
theorem run_items {items : List Node} (h : tree.FormedFile) (hsub : ∀ n ∈ items, n ∈ tree.root.children) (t : ScopeTree) :
    Run (jobs .visit [] 0 items) t (walkAll 0 items t) := by
  rw [← List.append_nil (jobs _ _ _ _)]
  refine run_walkAll (fun n hn => driven_of_formed (h.formed.child (hsub n hn))) (fun n hn => ?_) .done
  exact h.formed.items h.file n (hsub n hn)

/-- The second tree has the scopes and the entries of the first, and the first items have
    their places in both. -/
theorem Beside.retains {ns files : List Nat} {u : ScopeTree} (htwins : Twins files t base) (h : Beside base [] u)
    (hg : Grows ns base u) (hseats : ∀ j ∉ ns, u.scopeOf? j = base.scopeOf? j ∧ u.scopeOpenedBy? j = base.scopeOpenedBy? j)
    {js : List Nat} (hjs : ∀ j ∈ js, j ∉ ns ∧ j ∉ files) : Retains js t u := by
  have hnot : ∀ {i}, i ≠ 0 → i < t.scopes.length → ¬ Apart base i := by
    intro i h0 hlt ha
    rcases ha with ha | ha
    · exact h0 ha
    · rw [htwins.length_eq] at ha
      omega
  refine ⟨fun j hj => ?_, fun j hj => ?_, fun j hj => ?_, fun {x e} he => ?_, fun {i} h0 hlt => ?_, fun h0 hlt name => ?_⟩
  · exact (hseats j (hjs j hj).1).1.trans (htwins.seats j (hjs j hj).2).1
  · exact (hseats j (hjs j hj).1).2.trans (htwins.seats j (hjs j hj).2).2
  · rw [hg.resolved (hjs j hj).1, entryOf?, htwins.resolved, entryOf?]
  · have he' : base.entries[x]? = some e := by rwa [htwins.entries]
    obtain ⟨e', hu, hsame⟩ := h.carries.entries he'
    have hl := h.links (lt_of_entry he')
    simp only [linkOf?, hu, he', Option.bind_some] at hl
    exact ⟨e', hu, hsame, hl⟩
  · obtain ⟨s, ss, file, ht, hb⟩ := htwins.scopes
    have hi : base.scopes[i]? = t.scopes[i]? := by
      obtain ⟨k, rfl⟩ := Nat.exists_eq_succ_of_ne_zero h0
      rw [ht, hb]
      rfl
    rw [List.getElem?_eq_getElem hlt] at hi
    obtain ⟨sc, hsc, -, -, hn⟩ := hg.scopes hi
    rw [hsc, List.getElem?_eq_getElem hlt]
    exact congrArg some hn
  · rw [h.names (hnot h0 hlt) name, htwins.entryIn?_eq]

/-- A file leaves what comes before its later items to be what it would be without them. -/
theorem retains_build {first whole : SyntaxTree} {later : List Node} (hf : first.FormedFile) (hw : whole.FormedFile)
    (happend : whole.root.children = first.root.children ++ later) :
    Retains (numbersAll first.root.children) (build first) (build whole) := by
  let base := walkAll 0 first.root.children ((start whole.root.number).place whole.root.number 0)
  have hwhole : build whole = walkAll 0 later base := by rw [build_file hw.file, happend, walkAll_append]
  have htwins : Twins [first.root.number, whole.root.number] (build first) base := by
    rw [build_file hf.file]
    exact (run_items hf (fun _ hn => hn) _).twins (run_items hf (fun _ hn => hn) _) (.start _ _)
  have hlater : Run (jobs .visit [] 0 later) base (build whole) := by
    rw [hwhole]
    exact run_items hw (fun n hn => by simp [happend, hn]) base
  have husing := using_build hf
  have hstored : Scoped base.scopes.length base := by
    intro y f hy
    rw [htwins.length_eq]
    exact husing.linking.stored y f (htwins.entries ▸ hy)
  have hnamed : base.Named := by
    intro i name x hx
    rw [htwins.entryIn?_eq] at hx
    rw [htwins.entries]
    exact husing.resolving.named hx
  have hglobal : ∃ sc, base.scopes[0]? = some sc ∧ sc.kind = .global := by
    obtain ⟨sc, hsc, hk, -⟩ := (run_items hf (fun _ hn => hn) _).visits_grow.scopes
      (show ((start whole.root.number).place whole.root.number 0).scopes[0]? = some _ from rfl)
    exact ⟨sc, hsc, hk⟩
  have hbeside : Beside base [] (build whole) :=
    hlater.invariant (fun hs hi => hi.step hs hstored) (.start hnamed hglobal [] later)
  have hnodup := hw.nodup
  rw [Node.numbers_eq, happend, Node.numbersAll_append, List.nodup_cons, List.nodup_append, List.mem_append] at hnodup
  have hfirst := hf.nodup
  rw [Node.numbers_eq, List.nodup_cons] at hfirst
  refine hbeside.retains htwins hlater.visits_grow (fun j hj => hlater.seats_eq (by simpa using hj)) fun j hj => ?_
  refine ⟨fun hl => hnodup.2.2.2 j hj j hl rfl, ?_⟩
  simp only [List.mem_cons, List.not_mem_nil, or_false, not_or]
  exact ⟨fun he => hfirst.1 (he ▸ hj), fun he => hnodup.1 (.inl (he ▸ hj))⟩

end Magik.ScopeTree
