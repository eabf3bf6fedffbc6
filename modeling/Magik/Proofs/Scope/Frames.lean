/-
  Magik.Proofs.Scope.Frames — what a job leaves as it is.

  `Job.numbers` are the nodes a job has still to do with. A step settles at most its own
  node and leaves the others to the jobs that follow (`Step.perm_pending`); the scopes of
  nodes are touched at these numbers only (`Step.scopeOf?_eq`, `Step.scopeOpenedBy?_eq`),
  their entries at the node of the job (`Step.grows`).
-/

import Magik.Proofs.Scope.Steps

namespace Magik.ScopeTree

open Node (numbersAll numbersAll_cons numbersAll_append numbersAll_nil numbers_eq)

variable {t t' : ScopeTree} {job : Job} {left todo : List Job} {node scope k : Nat} {name : String} {among : Nat → Prop}
  {ns : List Nat}

/-! ## The scopes of nodes -/

@[simp] theorem scopeOf?_place (t : ScopeTree) (node scope k : Nat) :
    (t.place node scope).scopeOf? k = if node = k then some scope else t.scopeOf? k :=
  Table.find?_insert t.placed node k scope

@[simp] theorem scopeOpenedBy?_place (t : ScopeTree) (node scope k : Nat) :
    (t.place node scope).scopeOpenedBy? k = t.scopeOpenedBy? k := rfl

@[simp] theorem scopeOf?_openScope (t : ScopeTree) (kind : Scope.Kind) (node scope k : Nat) :
    (t.openScope kind node scope).scopeOf? k = t.scopeOf? k := rfl

@[simp] theorem scopeOpenedBy?_openScope (t : ScopeTree) (kind : Scope.Kind) (node scope k : Nat) :
    (t.openScope kind node scope).scopeOpenedBy? k = if node = k then some t.scopes.length else t.scopeOpenedBy? k :=
  Table.find?_insert t.opened node k t.scopes.length

@[simp] theorem scopeOf?_openBody (t : ScopeTree) (node scope k : Nat) :
    (t.openBody node scope).scopeOf? k = if node = k then some t.scopes.length else t.scopeOf? k := by
  simp [openBody]

@[simp] theorem scopeOpenedBy?_openBody (t : ScopeTree) (node scope k : Nat) :
    (t.openBody node scope).scopeOpenedBy? k = if node = k then some t.scopes.length else t.scopeOpenedBy? k := by
  simp [openBody]

@[simp] theorem scopeOf?_shareScope (t : ScopeTree) (node scope k : Nat) :
    (t.shareScope node scope).scopeOf? k = if node = k then some scope else t.scopeOf? k :=
  Table.find?_insert t.placed node k scope

@[simp] theorem scopeOpenedBy?_shareScope (t : ScopeTree) (node scope k : Nat) :
    (t.shareScope node scope).scopeOpenedBy? k = if node = k then some scope else t.scopeOpenedBy? k :=
  Table.find?_insert t.opened node k scope

theorem scopeOf?_place_self (t : ScopeTree) (node scope : Nat) : (t.place node scope).scopeOf? node = some scope := by
  simp

theorem scopeOf?_openBody_self (t : ScopeTree) (node scope : Nat) :
    (t.openBody node scope).scopeOf? node = some t.scopes.length := by
  simp

theorem scopeOpenedBy?_openBody_self (t : ScopeTree) (node scope : Nat) :
    (t.openBody node scope).scopeOpenedBy? node = some t.scopes.length := by
  simp

theorem scopeOpenedBy?_shareScope_self (t : ScopeTree) (node scope : Nat) :
    (t.shareScope node scope).scopeOpenedBy? node = some scope := by
  simp

/-- Writing for a name leaves all nodes in their scopes. -/
theorem Writes.seats (h : Writes node among t t') : t'.placed = t.placed ∧ t'.opened = t.opened := by
  induction h with
  | refl => exact ⟨rfl, rfl⟩
  | resolve _ _ ih | use _ _ ih | link _ _ _ ih => exact ih
  | declareIn _ _ _ _ ih =>
    unfold ScopeTree.declareIn
    split <;> exact ih

theorem Writes.scopeOf?_eq (h : Writes node among t t') (k : Nat) : t'.scopeOf? k = t.scopeOf? k := by
  rw [scopeOf?, h.seats.1, scopeOf?]

theorem Writes.scopeOpenedBy?_eq (h : Writes node among t t') (k : Nat) : t'.scopeOpenedBy? k = t.scopeOpenedBy? k := by
  rw [scopeOpenedBy?, h.seats.2, scopeOpenedBy?]

@[simp] theorem scopeOf?_read (t : ScopeTree) (scope : Nat) (name : String) (node k : Nat) :
    (t.read scope name node).scopeOf? k = t.scopeOf? k := (Writes.read t scope name node).scopeOf?_eq k

@[simp] theorem scopeOpenedBy?_read (t : ScopeTree) (scope : Nat) (name : String) (node k : Nat) :
    (t.read scope name node).scopeOpenedBy? k = t.scopeOpenedBy? k := (Writes.read t scope name node).scopeOpenedBy?_eq k

@[simp] theorem scopeOf?_assign (t : ScopeTree) (scope : Nat) (name : String) (node k : Nat) :
    (t.assign scope name node).scopeOf? k = t.scopeOf? k := (Writes.assign t scope name node).scopeOf?_eq k

@[simp] theorem scopeOpenedBy?_assign (t : ScopeTree) (scope : Nat) (name : String) (node k : Nat) :
    (t.assign scope name node).scopeOpenedBy? k = t.scopeOpenedBy? k :=
  (Writes.assign t scope name node).scopeOpenedBy?_eq k

@[simp] theorem scopeOf?_declareVariable (t : ScopeTree) (scope : Nat) (kind : Entry.Kind) (name : String) (node k : Nat) :
    (t.declareVariable scope kind name node).scopeOf? k = t.scopeOf? k :=
  (Writes.declareVariable t scope kind name node).scopeOf?_eq k

@[simp] theorem scopeOpenedBy?_declareVariable (t : ScopeTree) (scope : Nat) (kind : Entry.Kind) (name : String)
    (node k : Nat) : (t.declareVariable scope kind name node).scopeOpenedBy? k = t.scopeOpenedBy? k :=
  (Writes.declareVariable t scope kind name node).scopeOpenedBy?_eq k

/-! ## What a job has to do with -/

/-- The nodes a job has still to do with. The variable of a try is settled when the try is
    visited, and each handler declares it once more. -/
def Job.numbers (job : Job) : List Nat :=
  match job.role with
  | .named _ => [job.node.number]
  | .bound => []
  | .loop vars => numbersAll vars ++ job.node.numbers
  | _ => job.node.numbers

/-- The nodes that some jobs have still to do with. -/
def pending (todo : List Job) : List Nat := todo.flatMap Job.numbers

@[simp] theorem pending_nil : pending [] = [] := rfl

@[simp] theorem pending_cons (job : Job) (todo : List Job) : pending (job :: todo) = job.numbers ++ pending todo := rfl

@[simp] theorem pending_append (a b : List Job) : pending (a ++ b) = pending a ++ pending b := List.flatMap_append

/-- Jobs that have to do with all of their nodes. -/
theorem pending_jobs {role : Role} (hr : ∀ n as scope, Job.numbers ⟨role, n, as, scope⟩ = n.numbers) (as : List Node)
    (scope : Nat) (ns : List Node) : pending (jobs role as scope ns) = numbersAll ns := by
  induction ns with
  | nil => rfl
  | cons n ns ih =>
    rw [numbersAll_cons, ← ih, ← hr n as scope]
    rfl

@[simp] theorem pending_visit (as : List Node) (scope : Nat) (ns : List Node) :
    pending (jobs .visit as scope ns) = numbersAll ns := pending_jobs (fun _ _ _ => rfl) as scope ns

@[simp] theorem pending_target (as : List Node) (scope : Nat) (ns : List Node) :
    pending (jobs .target as scope ns) = numbersAll ns := pending_jobs (fun _ _ _ => rfl) as scope ns

@[simp] theorem pending_declared (kind : Entry.Kind) (as : List Node) (scope : Nat) (ns : List Node) :
    pending (jobs (.declared kind) as scope ns) = numbersAll ns := pending_jobs (fun _ _ _ => rfl) as scope ns

@[simp] theorem pending_handler (binding : Option Node) (as : List Node) (scope : Nat) (ns : List Node) :
    pending (jobs (.handler binding) as scope ns) = numbersAll ns := pending_jobs (fun _ _ _ => rfl) as scope ns

@[simp] theorem pending_bound (as : List Node) (scope : Nat) (ns : List Node) :
    pending (jobs .bound as scope ns) = [] := by
  simp [pending, jobs, Job.numbers]

section

variable (hs : Step job t left t')
include hs

/-- A step settles its own node, or places it and leaves it for later. It leaves all others. -/
theorem Step.perm_pending :
    job.numbers.Perm (job.node.number :: pending left) ∨
      job.numbers.Perm (pending left) ∧ (t' = t.place job.node.number job.scope ∨ job.role = .bound) := by
  cases hs with
  | valued _ _ hc =>
    refine .inr ⟨?_, .inl rfl⟩
    simp only [Job.numbers, numbers_eq _, hc, pending_cons, pending_nil, numbersAll_cons, numbersAll_nil, List.append_nil]
    exact (List.perm_append_singleton _ _).symm
  | bound => exact .inr ⟨List.Perm.refl _, .inr rfl⟩
  | named => exact .inl (List.Perm.refl _)
  | loop =>
    refine .inl ?_
    simp only [Job.numbers, numbers_eq _, pending_append, pending_declared, pending_visit]
    exact List.perm_middle
  | forLoop _ hc =>
    -- children that are not looked at in the order they stand in
    refine .inl (List.perm_iff_count.mpr fun k => ?_)
    simp only [Job.numbers, numbers_eq _, hc, pending_cons, pending_nil, numbersAll_append, numbersAll_cons, numbersAll_nil,
      List.append_nil, List.count_append, List.count_cons]
    omega
  | shared _ hc | assignment _ hc =>
    refine .inl (List.perm_iff_count.mpr fun k => ?_)
    simp only [Job.numbers, numbers_eq _, hc, pending_cons, pending_declared, pending_target, numbersAll_append,
      numbersAll_cons, numbersAll_nil, List.append_nil, List.count_append, List.count_cons]
    omega
  | attempt _ hc | read _ hc | definition _ hc | handler hc | target _ hc =>
    refine .inl (List.Perm.of_eq ?_)
    simp [Job.numbers, numbers_eq, hc]
  | plain | body | parameters | routine | handled | separate | declared =>
    refine .inl (List.Perm.of_eq ?_)
    simp [Job.numbers, numbers_eq]

theorem Step.mem_pending (hk : k ∈ job.numbers) : k = job.node.number ∨ k ∈ pending left := by
  rcases hs.perm_pending with hp | ⟨hp, -⟩
  · exact List.mem_cons.mp (hp.mem_iff.mp hk)
  · exact .inr (hp.mem_iff.mp hk)

theorem Step.pending_subset (hk : k ∈ pending left) : k ∈ job.numbers := by
  rcases hs.perm_pending with hp | ⟨hp, -⟩
  · exact hp.mem_iff.mpr (.tail _ hk)
  · exact hp.mem_iff.mpr hk

theorem Step.nodup_pending (hn : (pending (job :: todo)).Nodup) :
    (pending (left ++ todo)).Nodup := by
  rw [pending_cons, List.nodup_append] at hn
  rw [pending_append, List.nodup_append]
  refine ⟨?_, hn.2.1, fun a ha b hb => hn.2.2 a (hs.pending_subset ha) b hb⟩
  rcases hs.perm_pending with hp | ⟨hp, -⟩
  · exact (List.nodup_cons.mp (hp.nodup_iff.mp hn.1)).2
  · exact hp.nodup_iff.mp hn.1

end

/-! ## What a job touches -/

/-- All jobs but those for the variable of a try have to do with their own node. -/
theorem Job.number_mem (hr : job.role ≠ .bound) : job.node.number ∈ job.numbers := by
  obtain ⟨role, n, as, scope⟩ := job
  cases role with
  | bound => exact absurd rfl hr
  | named kind => exact List.mem_singleton.mpr rfl
  | loop vars => exact List.mem_append_right _ n.number_mem_numbers
  | _ => exact n.number_mem_numbers

theorem Job.role_ne_bound (hk : k ∈ job.numbers) : job.role ≠ .bound := by
  intro hr
  rw [Job.numbers, hr] at hk
  cases hk

section

variable (hs : Step job t left t')
include hs

theorem Step.scopeOf?_of_ne (hk : job.node.number ≠ k) : t'.scopeOf? k = t.scopeOf? k := by
  cases hs <;> simp_all

theorem Step.scopeOpenedBy?_of_ne (hk : job.node.number ≠ k) :
    t'.scopeOpenedBy? k = t.scopeOpenedBy? k := by
  cases hs <;> simp_all

theorem Step.scopeOf?_eq (hk : k ∉ job.numbers) : t'.scopeOf? k = t.scopeOf? k := by
  by_cases hr : job.role = .bound
  · cases hs with
    | bound => simp
    | _ => cases hr
  · exact hs.scopeOf?_of_ne fun he => hk (he ▸ Job.number_mem hr)

theorem Step.scopeOpenedBy?_eq (hk : k ∉ job.numbers) :
    t'.scopeOpenedBy? k = t.scopeOpenedBy? k := by
  by_cases hr : job.role = .bound
  · cases hs with
    | bound => simp
    | _ => cases hr
  · exact hs.scopeOpenedBy?_of_ne fun he => hk (he ▸ Job.number_mem hr)

/-- A scope that was opened stays, where the job finds none opened for its nodes. -/
theorem Step.opened_mono (hu : ∀ j ∈ job.numbers, t.scopeOpenedBy? j = none)
    (hk : t.scopeOpenedBy? k = some scope) : t'.scopeOpenedBy? k = some scope := by
  have hout : k ∉ job.numbers := by
    intro hin
    rw [hu k hin] at hk
    cases hk
  rw [hs.scopeOpenedBy?_eq hout, hk]

/-- What a step leaves for later has opened nothing yet. -/
theorem Step.unopened_left (hn : job.numbers.Nodup)
    (hu : ∀ j ∈ job.numbers, t.scopeOpenedBy? j = none) (hk : k ∈ pending left) : t'.scopeOpenedBy? k = none := by
  have hin := hs.pending_subset hk
  rcases hs.perm_pending with hp | ⟨-, rfl | hr⟩
  · have hne : job.node.number ≠ k := by
      intro he
      exact (List.nodup_cons.mp (hp.nodup_iff.mp hn)).1 (he ▸ hk)
    rw [hs.scopeOpenedBy?_of_ne hne, hu k hin]
  · exact hu k hin
  · exact absurd hr (Job.role_ne_bound hin)

end

theorem Grows.openBody (node scope : Nat) : Grows ns t (t.openBody node scope) :=
  (openScope .body node scope).trans (place _ _)

theorem Grows.shareScope (node scope : Nat) : Grows ns t (t.shareScope node scope) :=
  (place node scope).trans (setOpened _)

theorem Step.grows (hs : Step job t left t') : Grows [job.node.number] t t' := by
  cases hs with
  | read => exact (Grows.place _ _).trans (Writes.read _ _ _ _).grows
  | target => exact (Grows.place _ _).trans (Writes.assign _ _ _ _).grows
  | declared => exact (Grows.place _ _).trans (Writes.declareVariable _ _ _ _ _).grows
  | named | bound => exact (Writes.declareVariable _ _ _ _ _).grows
  | body | loop | handled => exact .openBody _ _
  | definition => exact (Grows.place _ _).trans (.openScope _ _ _)
  | routine => exact .shareScope _ _
  | plain | parameters | forLoop | attempt | handler | separate | shared | valued | assignment => exact .place _ _

/-! ## What a run comes by -/

/-- The nodes that a job may give an entry to: the handlers of a try bind its variable as well. -/
def Job.reach (job : Job) : List Nat :=
  match job.role with
  | .loop vars => numbersAll vars ++ job.node.numbers
  | .handler binding | .handled binding => numbersAll binding.toList ++ job.node.numbers
  | _ => job.node.numbers

theorem Step.reach_subset (hs : Step job t left t') {job' : Job} (hj : job' ∈ left) (hk : k ∈ job'.reach) : k ∈ job.reach := by
  have hchild : ∀ {n c : Node}, c ∈ n.children → k ∈ c.numbers → k ∈ n.numbers := fun hc => Node.mem_numbers_of_child hc
  have hlist : ∀ {ns : List Node} {c : Node}, c ∈ ns → k ∈ c.numbers → k ∈ numbersAll ns := fun hc => Node.numbers_subset hc _
  cases hs with
  | plain | body | routine | parameters | separate | declared =>
    obtain ⟨c, hc, rfl⟩ := List.mem_map.mp hj
    exact hchild hc hk
  | read | bound | named | target => cases hj
  | definition _ hc =>
    simp only [List.mem_cons, List.not_mem_nil, or_false] at hj
    rcases hj with rfl | rfl <;> exact hchild (by simp [hc]) hk
  | valued _ _ hc =>
    simp only [List.mem_cons, List.not_mem_nil, or_false] at hj
    rcases hj with rfl | rfl
    · exact hchild (by simp [hc]) hk
    · exact hk
  | handler hc =>
    rw [List.mem_singleton.mp hj] at hk
    exact (List.mem_append.mp hk).elim (List.mem_append_left _) fun hk => List.mem_append_right _ (hchild (by simp [hc]) hk)
  | forLoop _ hc =>
    simp only [List.mem_cons, List.not_mem_nil, or_false] at hj
    rcases hj with rfl | rfl
    · exact hchild (by simp [hc]) hk
    · rcases List.mem_append.mp hk with hk | hk
      · obtain ⟨v, hv, hk⟩ := Node.exists_of_mem_numbersAll hk
        exact hchild (by simp [hc, hv]) hk
      · exact hchild (by simp [hc]) hk
  | loop | handled =>
    rcases List.mem_append.mp hj with hj | hj <;> obtain ⟨c, hc, rfl⟩ := List.mem_map.mp hj
    · exact List.mem_append_left _ (hlist hc hk)
    · exact List.mem_append_right _ (hchild hc hk)
  | @attempt _ _ _ _ binding _ _ _ hc =>
    rcases List.mem_append.mp hj with hj | hj <;> obtain ⟨c, hm, rfl⟩ := List.mem_map.mp hj
    · refine hchild ?_ hk
      rw [hc, List.append_cons]
      exact List.mem_append_left _ hm
    · rcases List.mem_append.mp hk with hk | hk
      · obtain ⟨v, hv, hk⟩ := Node.exists_of_mem_numbersAll hk
        exact hchild (by simp only [hc, List.mem_append, hv, true_or]) hk
      · exact hchild (by simp [hc, hm]) hk
  | shared _ hc | assignment _ hc =>
    rcases List.mem_cons.mp hj with rfl | hj
    · exact hchild (by simp [hc]) hk
    · obtain ⟨c, hm, rfl⟩ := List.mem_map.mp hj
      exact hchild (by simp [hc, hm]) hk

theorem Job.number_mem_reach (job : Job) : job.node.number ∈ job.reach := by
  unfold Job.reach
  split <;> simp [Node.number_mem_numbers]

/-- A run gives entries to the nodes that its jobs come by, and to no others. -/
theorem Run.grows (h : Run todo t t') (hns : ∀ job ∈ todo, ∀ k ∈ job.reach, k ∈ ns) : Grows ns t t' := by
  induction h with
  | done => exact .refl _ _
  | @step job left rest _ _ _ hs _ ih =>
    refine (hs.grows.mono fun k hk => ?_).trans (ih fun job' hj k hk => ?_)
    · exact hns job (.head _) k (List.mem_singleton.mp hk ▸ job.number_mem_reach)
    · rcases List.mem_append.mp hj with hj | hj
      · exact hns job (.head _) k (hs.reach_subset hj hk)
      · exact hns job' (.tail _ hj) k hk

theorem Run.visits_grow {as ns : List Node} (h : Run (jobs .visit as scope ns) t t') : Grows (numbersAll ns) t t' := by
  refine h.grows fun job hj k hk => ?_
  obtain ⟨n, hn, rfl⟩ := List.mem_map.mp hj
  exact Node.numbers_subset hn _ hk

end Magik.ScopeTree
