/-
  Magik.Proofs.Scope.Links — what an `_import` takes over.

  An import looks for its name outside the procedure it is in (`importTarget?`). While a
  scope is open, names are added to it, to its procedure and to the global scope, and to
  scopes further in, and none of these comes before what was found (`Step.importTarget?_eq`).
  So a second import of a name finds what the first one found, and a link stays what it is.
-/

import Magik.Proofs.Scope.Resolution
import Mathlib.Data.List.Find

namespace Magik.ScopeTree

variable {t t' : ScopeTree} {job : Job} {left todo : List Job} {c s i p x y node : Nat} {name : String} {ns : List Nat}
  {f : Nat → Option Nat} {id scope : Nat} {among : Nat → Prop} {j : Job} {kind : Entry.Kind}

/-! ## Ways -/

theorem way_cases (f : Nat → Option Nat) (id : Nat) :
    way f id = [id] ∨ ∃ next, next < id ∧ way f id = id :: way f next := by
  rw [way]
  cases f id with
  | none => exact .inl rfl
  | some next =>
    by_cases hlt : next < id
    · exact .inr ⟨next, hlt, by simp [hlt]⟩
    · exact .inl (by simp [hlt])

theorem le_of_mem_way (h : i ∈ way f id) : i ≤ id := by
  induction id using Nat.strongRecOn with
  | ind id ih =>
    rcases way_cases f id with he | ⟨next, hlt, he⟩ <;> rw [he] at h
    · simp_all
    · rcases List.mem_cons.mp h with rfl | h
      · exact Nat.le_refl _
      · exact Nat.le_of_lt (Nat.lt_of_le_of_lt (ih next hlt h) hlt)

/-- A way goes down all along. -/
theorem pairwise_way (f : Nat → Option Nat) (id : Nat) : (way f id).Pairwise (· > ·) := by
  induction id using Nat.strongRecOn with
  | ind id ih =>
    rcases way_cases f id with he | ⟨next, hlt, he⟩ <;> rw [he]
    · simp
    · exact List.pairwise_cons.mpr ⟨fun i hi => Nat.lt_of_le_of_lt (le_of_mem_way hi) hlt, ih next hlt⟩

/-- From any of its scopes on, a way is the way from there. -/
theorem exists_way_append (h : i ∈ way f id) : ∃ pre, way f id = pre ++ way f i := by
  induction id using Nat.strongRecOn with
  | ind id ih =>
    rcases way_cases f id with he | ⟨next, hlt, he⟩
    · rw [he, List.mem_singleton] at h
      exact ⟨[], by rw [h, List.nil_append]⟩
    · rw [he, List.mem_cons] at h
      rcases h with rfl | h
      · exact ⟨[], rfl⟩
      · obtain ⟨pre, hpre⟩ := ih next hlt h
        exact ⟨id :: pre, by rw [he, hpre, List.cons_append]⟩

theorem outward_subset (h : s ∈ t.outward c) : ∀ j ∈ t.outward s, j ∈ t.outward c := by
  intro j hj
  obtain ⟨pre, hpre⟩ := exists_way_append h
  rw [outward, hpre]
  exact List.mem_append_right _ hj

/-- The procedure around a scope is not inside the one around a scope further in. -/
theorem procedureScope?_le (h : s ∈ t.outward c) (hp : t.procedureScope? s = some p) :
    ∃ q, t.procedureScope? c = some q ∧ p ≤ q := by
  have hprocedure := List.find?_some hp
  have hmem : p ∈ t.outward c := outward_subset h p (List.mem_of_find?_eq_some hp)
  cases hq : t.procedureScope? c with
  | none => exact absurd hprocedure (List.find?_eq_none.mp hq p hmem)
  | some q =>
    refine ⟨q, rfl, ?_⟩
    obtain ⟨-, pre, post, he, hpre⟩ := List.find?_eq_some_iff_append.mp hq
    have hdown := pairwise_way (fun i => t.scopes[i]?.bind (·.parent)) c
    rw [outward] at he hmem
    rw [he, List.pairwise_append, List.pairwise_cons] at hdown
    rw [he, List.mem_append, List.mem_cons] at hmem
    rcases hmem with hm | rfl | hm
    · exact absurd hprocedure (by simpa using hpre p hm)
    · exact Nat.le_refl _
    · exact Nat.le_of_lt (hdown.2.1.1 p hm)

/-! ## What an import finds -/

/-- The scopes outside the procedure around a scope. -/
def beyond (t : ScopeTree) (scope : Nat) : List Nat :=
  ((t.procedureScope? scope).bind fun i => t.scopes[i]?.bind (·.parent)).elim [] t.outward

/-- The entry that an import of a name looks at. -/
def importTarget? (t : ScopeTree) (scope : Nat) (name : String) : Option Nat :=
  (t.beyond scope).findSome? (t.entryIn? name)

/-- The parent of a scope came before it. -/
def Ordered (t : ScopeTree) : Prop :=
  ∀ {i : Nat} {sc : Scope} {p : Nat}, t.scopes[i]? = some sc → sc.parent = some p → p < i

/-- What is beyond a scope is outside its procedure, and goes down all along. -/
theorem beyond_cases (ho : t.Ordered) (s : Nat) :
    t.beyond s = [] ∨ ∃ p q, t.procedureScope? s = some p ∧ q < p ∧ t.beyond s = t.outward q := by
  unfold beyond
  cases hp : t.procedureScope? s with
  | none => exact .inl rfl
  | some p =>
    cases hs : t.scopes[p]? with
    | none => exact .inl (by simp [hs])
    | some sc =>
      cases hq : sc.parent with
      | none => exact .inl (by simp [hs, hq])
      | some q => exact .inr ⟨p, q, rfl, ho hs hq, by simp [hs, hq]⟩

/-- Neither a scope further in nor its procedure is beyond a scope. -/
theorem ne_of_mem_beyond (ho : t.Ordered) (hs : s ∈ t.outward c) (hi : i ∈ t.beyond s) :
    i ≠ c ∧ t.procedureScope? c ≠ some i := by
  rcases beyond_cases ho s with he | ⟨p, q, hp, hlt, he⟩ <;> rw [he] at hi
  · cases hi
  · obtain ⟨r, hr, hle⟩ := procedureScope?_le hs hp
    have hiq : i ≤ q := le_of_mem_way hi
    have hrc : r ≤ c := le_of_mem_way (List.mem_of_find?_eq_some hr)
    refine ⟨by omega, ?_⟩
    rw [hr]
    intro hri
    have : r = i := Option.some.inj hri
    omega

theorem Grows.procedureScope?_eq (hg : Grows ns t t') (hs : s < t.scopes.length) :
    t'.procedureScope? s = t.procedureScope? s := by
  have hkind : ∀ i ∈ t.outward s, (t'.scopes[i]?.any fun sc => sc.kind = .procedure) =
      t.scopes[i]?.any fun sc => sc.kind = .procedure := by
    intro i hi
    have hlt : i < t.scopes.length := Nat.lt_of_le_of_lt (le_of_mem_way hi) hs
    obtain ⟨sc', hsc', hk, -⟩ := hg.scopes (List.getElem?_eq_getElem hlt)
    rw [hsc', List.getElem?_eq_getElem hlt]
    simp [hk]
  rw [procedureScope?, hg.outward_eq hs, procedureScope?]
  exact List.find?_congr hkind

theorem Grows.beyond_eq (hg : Grows ns t t') (hs : s < t.scopes.length) (ho : t.Ordered) : t'.beyond s = t.beyond s := by
  rw [beyond, hg.procedureScope?_eq hs, beyond]
  cases hp : t.procedureScope? s with
  | none => rfl
  | some p =>
    have hlt : p < t.scopes.length := Nat.lt_of_le_of_lt (le_of_mem_way (List.mem_of_find?_eq_some hp)) hs
    rw [Option.bind_some, Option.bind_some, (hg.step_eq hlt).2]
    cases hq : t.scopes[p]?.bind (·.parent) with
    | none => rfl
    | some q =>
      obtain ⟨sc, hsc, hparent⟩ := Option.bind_eq_some_iff.mp hq
      exact hg.outward_eq (Nat.lt_trans (ho hsc hparent) hlt)

/-- New names further in than what was found do not change what is found, and there is
    nothing further out than the global scope. -/
theorem findSome?_eq_of_pairwise {g : Nat → Option Nat} {l : List Nat} (hl : l.Pairwise (· > ·))
    (hnew : ∀ i ∈ l, i ≠ 0 → g i = f i) (hkeep : ∀ i x, f i = some x → g i = some x) (h : l.findSome? f = some x) :
    l.findSome? g = some x := by
  induction l with
  | nil => cases h
  | cons i l ih =>
    rw [List.findSome?_cons] at h ⊢
    cases hf : f i with
    | some z =>
      rw [hf] at h
      rw [hkeep i z hf]
      exact h
    | none =>
      rw [hf] at h
      rw [List.pairwise_cons] at hl
      -- scope 0, where the name can be new, comes last: what was found is before it
      have hi : i ≠ 0 := by
        intro hi
        cases l with
        | nil => cases h
        | cons j _ => exact absurd (hl.1 j (by simp)) (by omega)
      rw [hnew i (by simp) hi, hf]
      exact ih hl.2 (fun j hj => hnew j (.tail _ hj)) h

/-- What is found beyond a scope stays, if names are new only where nothing comes after them. -/
theorem importTarget?_eq_of_grows (hg : Grows ns t t') (hc : Carries t t') (ho : t.Ordered) (hs : s < t.scopes.length)
    (hnew : ∀ i ∈ t.beyond s, i ≠ 0 → t'.entryIn? name i = t.entryIn? name i) (h : t.importTarget? s name = some x) :
    t'.importTarget? s name = some x := by
  have hdown : (t.beyond s).Pairwise (· > ·) := by
    rcases beyond_cases ho s with he | ⟨_, _, -, -, he⟩ <;> rw [he]
    · exact .nil
    · exact pairwise_way _ _
  rw [importTarget?, hg.beyond_eq hs ho]
  exact findSome?_eq_of_pairwise hdown hnew (fun _ _ => hc.names) h

/-! ## Where names are added -/

theorem entryIn?_declareIn_of_ne (hi : i ≠ s) (kind : Entry.Kind) (name' : String) (node : Nat) :
    (t.declareIn s name' kind node).2.entryIn? name i = t.entryIn? name i := by
  cases h : t.entryIn? name' s with
  | some x => rw [declareIn_of_some h]
  | none => rw [entryIn?_declareIn_of_none h, if_neg fun hnew => hi hnew.1.1.symm]

theorem Writes.entryIn?_eq (h : Writes node among t t') (hi : ¬ among i) : t'.entryIn? name i = t.entryIn? name i := by
  induction h with
  | refl => rfl
  | resolve _ _ ih | use _ _ ih | link _ _ _ ih => exact ih
  | declareIn _ hs _ _ ih =>
    refine (entryIn?_declareIn_of_ne ?_ _ _ _).trans ih
    rintro rfl
    exact hi hs

/-- Names are added to the scope of the job, to its procedure, and to the global scope. -/
theorem Step.entryIn?_eq (hs : Step job t left t') (h0 : i ≠ 0) (hi : i ≠ job.scope)
    (hp : t.procedureScope? job.scope ≠ some i) : t'.entryIn? name i = t.entryIn? name i := by
  cases hs with
  | read => exact (Writes.read (t.place _ _) _ _ _).entryIn?_eq h0
  | target => exact (Writes.assign (t.place _ _) _ _ _).entryIn?_eq (not_or.mpr ⟨h0, hp⟩)
  | declared => exact (Writes.declareVariable (t.place _ _) _ _ _ _).entryIn?_eq hi
  | named | bound => exact (Writes.declareVariable t _ _ _ _).entryIn?_eq hi
  | body | loop | handled => exact entryIn?_openScope t _ _ _ _ _
  | definition => exact entryIn?_openScope (t.place _ _) _ _ _ _ _
  | _ => rfl

/-- While a scope is open, an import in it finds what it found before. -/
theorem Step.importTarget?_eq (hst : Step job t left t') (ho : t.Ordered) (hc : job.scope < t.scopes.length)
    (hs : s ∈ t.outward job.scope) (h : t.importTarget? s name = some x) : t'.importTarget? s name = some x := by
  have hlt : s < t.scopes.length := Nat.lt_of_le_of_lt (le_of_mem_way hs) hc
  refine importTarget?_eq_of_grows hst.grows hst.carries ho hlt (fun i hi h0 => ?_) h
  obtain ⟨hne, hp⟩ := ne_of_mem_beyond ho hs hi
  exact hst.entryIn?_eq h0 hne hp

/-! ## Uses and links -/

/-- The nodes that use an entry. -/
def usesOf (t : ScopeTree) (x : Nat) : List Nat := (t.entries[x]?.map (·.usages)).getD []

/-- What an entry takes over. -/
def linkOf? (t : ScopeTree) (x : Nat) : Option Nat := t.entries[x]?.bind (·.imported)

/-- Nothing is used or linked in the one tree that is not in the other. -/
def SameUses (t t' : ScopeTree) : Prop := ∀ x, t'.usesOf x = t.usesOf x ∧ t'.linkOf? x = t.linkOf? x

theorem SameUses.of_eq (h : t'.entries = t.entries) : SameUses t t' := by
  intro x
  rw [usesOf, linkOf?, h]
  exact ⟨rfl, rfl⟩

/-- An entry that was just declared is not used and takes nothing over. -/
theorem SameUses.declareIn (t : ScopeTree) (scope : Nat) (name : String) (kind : Entry.Kind) (node : Nat) :
    SameUses t (t.declareIn scope name kind node).2 := by
  cases h : t.entryIn? name scope with
  | some x =>
    rw [declareIn_of_some h]
    exact .of_eq rfl
  | none =>
    intro x
    rw [declareIn_of_none h, usesOf, usesOf, linkOf?, linkOf?, List.getElem?_append]
    split
    · exact ⟨rfl, rfl⟩
    · rename_i hx
      rw [List.getElem?_eq_none (Nat.le_of_not_lt hx), List.getElem?_singleton]
      split <;> exact ⟨rfl, rfl⟩

theorem SameUses.declare (t : ScopeTree) (scope : Nat) (name : String) (kind : Entry.Kind) (node : Nat) :
    SameUses t (t.declare scope name kind node).2 := SameUses.declareIn t scope name kind node

theorem SameUses.assign (t : ScopeTree) (scope : Nat) (name : String) (node : Nat) :
    SameUses t (t.assign scope name node) := by
  unfold ScopeTree.assign
  split
  · exact .of_eq rfl
  · split <;> exact .declare t _ name _ node

theorem usesOf_use (hx : x < t.entries.length) (node z : Nat) :
    (t.use x node).usesOf z = if z = x then t.usesOf x ++ [node] else t.usesOf z := by
  simp only [usesOf, use, List.getElem?_modify]
  by_cases hz : z = x
  · subst hz
    simp [List.getElem?_eq_getElem hx]
  · simp [hz, Ne.symm hz]

theorem linkOf?_use (x node z : Nat) : (t.use x node).linkOf? z = t.linkOf? z := by
  simp only [linkOf?, use, List.getElem?_modify]
  cases t.entries[z]? with
  | none => rfl
  | some e => by_cases hz : x = z <;> simp [hz]

theorem usesOf_link (y x z : Nat) : (t.link y x).usesOf z = t.usesOf z := by
  simp only [usesOf, link, List.getElem?_modify]
  cases t.entries[z]? with
  | none => rfl
  | some e => by_cases hz : y = z <;> simp [hz]

theorem linkOf?_link (hy : y < t.entries.length) (x z : Nat) :
    (t.link y x).linkOf? z = if z = y then some x else t.linkOf? z := by
  simp only [linkOf?, link, List.getElem?_modify]
  by_cases hz : z = y
  · subst hz
    simp [List.getElem?_eq_getElem hy]
  · simp [hz, Ne.symm hz]

/-- An entry is used once more, and no other one. -/
def UsedBy (t t' : ScopeTree) (x node : Nat) : Prop :=
  ∀ z, t'.usesOf z = if z = x then t.usesOf x ++ [node] else t.usesOf z

/-- A name that is read uses what it refers to. -/
theorem usedBy_read (hn : t.Named) (scope : Nat) (name : String) (node : Nat) :
    ∃ x, (t.read scope name node).entryOf? node = some x ∧ UsedBy t (t.read scope name node) x node ∧
      ∀ z, (t.read scope name node).linkOf? z = t.linkOf? z := by
  unfold read
  split
  · rename_i x hx
    obtain ⟨e, he, -⟩ := entry_lookup hn hx
    refine ⟨x, Table.find?_insert_self _ _ _, ?_, linkOf?_use x node⟩
    exact usesOf_use (List.getElem?_eq_some_iff.mp he).1 node
  · obtain ⟨e, he, -⟩ := entry_declareIn hn 0 name .global node
    have hsame := SameUses.declareIn t 0 name .global node
    refine ⟨(t.declareIn 0 name .global node).1, Table.find?_insert_self _ _ _, fun z => ?_, fun z => ?_⟩
    · refine (usesOf_use (List.getElem?_eq_some_iff.mp he).1 node z).trans ?_
      rw [(hsame _).1, (hsame z).1]
    · exact (linkOf?_use _ node z).trans (hsame z).2

/-- A declared variable uses nothing, or imports what is found for it. -/
theorem declareVariable_cases (hn : t.Named) (scope : Nat) (kind : Entry.Kind) (name : String) (node : Nat) :
    SameUses t (t.declareVariable scope kind name node) ∨
    kind = .imported ∧ ∃ x y, (t.declareVariable scope kind name node).entryOf? node = some y ∧
      (t.declareIn scope name kind node).1 = y ∧
      (t.declareIn scope name kind node).2.importTarget? scope name = some x ∧
      UsedBy t (t.declareVariable scope kind name node) x node ∧
      ∀ z, (t.declareVariable scope kind name node).linkOf? z = if z = y then some x else t.linkOf? z := by
  have hsame := SameUses.declare t scope name kind node
  obtain ⟨e, he, -⟩ := entry_declareIn hn scope name kind node
  unfold declareVariable
  dsimp only
  split
  · rename_i hk
    unfold linkImport
    dsimp only
    split
    · exact .inl hsame
    · rename_i x hx
      split
      · obtain ⟨i, -, hi⟩ := List.exists_of_findSome?_eq_some hx
        obtain ⟨f, hf, -⟩ := (Carries.declareIn scope name kind node).named hn hi
        have hxlt : x < (t.declare scope name kind node).2.entries.length := (List.getElem?_eq_some_iff.mp hf).1
        have hylt : (t.declareIn scope name kind node).1 < ((t.declare scope name kind node).2.use x node).entries.length := by
          rw [use, List.length_modify]
          exact (List.getElem?_eq_some_iff.mp he).1
        refine .inr ⟨hk, x, (t.declareIn scope name kind node).1, Table.find?_insert_self _ _ _, rfl, hx, ?_, ?_⟩
        · intro z
          refine (usesOf_link _ x z).trans ((usesOf_use hxlt node z).trans ?_)
          rw [(hsame x).1, (hsame z).1]
        · intro z
          refine (linkOf?_link hylt x z).trans ?_
          rw [linkOf?_use, (hsame z).2]
      · exact .inl hsame
  · exact .inl hsame

/-! ## Entries and the scopes there are -/

/-- All entries are stored in the first `bound` scopes. -/
def Scoped (bound : Nat) (t : ScopeTree) : Prop := ∀ (y : Nat) (f : Entry), t.entries[y]? = some f → f.scope < bound

namespace Scoped

variable {bound scope node : Nat}

theorem declareIn (h : Scoped bound t) (hs : scope < bound) (name : String) (kind : Entry.Kind) (node : Nat) :
    Scoped bound (t.declareIn scope name kind node).2 := by
  cases hx : t.entryIn? name scope with
  | some x =>
    rw [declareIn_of_some hx]
    exact h
  | none =>
    intro y f hy
    rw [declareIn_of_none hx, List.getElem?_append] at hy
    split at hy
    · exact h y f hy
    · rw [List.getElem?_singleton] at hy
      split at hy
      · cases hy
        exact hs
      · cases hy

theorem modifyEntry {g : Entry → Entry} (h : Scoped bound t) (hg : ∀ e, (g e).scope = e.scope) (entry : Nat) :
    Scoped bound { t with entries := t.entries.modify entry g } := by
  intro y f hy
  obtain ⟨e, he, rfl⟩ := of_getElem?_modify hy
  split
  · rw [hg e]
    exact h y e he
  · exact h y e he

theorem writes {among : Nat → Prop} (h : Scoped bound t) (hw : Writes node among t t') (ha : ∀ i, among i → i < bound) :
    Scoped bound t' := by
  induction hw with
  | refl => exact h
  | resolve _ _ ih => exact ih
  | use _ _ ih => exact ih.modifyEntry (g := fun e => { e with usages := e.usages ++ [node] }) (fun _ => rfl) _
  | link _ _ target ih => exact ih.modifyEntry (g := fun e => { e with imported := some target }) (fun _ => rfl) _
  | declareIn _ hs _ _ ih => exact ih.declareIn (ha _ hs) _ _ _

theorem step (h : Scoped bound t) (hs : Step job t left t') (hc : job.scope < bound) : Scoped bound t' := by
  have hlocal : ∀ i, i = job.scope → i < bound := fun i hi => hi ▸ hc
  cases hs with
  | read => exact writes (t := t.place _ _) h (.read _ _ _ _) fun i hi => hi ▸ Nat.zero_lt_of_lt hc
  | target =>
    refine writes (t := t.place _ _) h (.assign _ _ _ _) fun i hi => ?_
    rcases hi with rfl | hp
    · exact Nat.zero_lt_of_lt hc
    · exact Nat.lt_of_le_of_lt (le_of_mem_way (List.mem_of_find?_eq_some hp)) hc
  | declared => exact writes (t := t.place _ _) h (.declareVariable _ _ _ _ _) hlocal
  | named | bound => exact h.writes (.declareVariable _ _ _ _ _) hlocal
  | _ => exact h

end Scoped

theorem Writes.length_scopes (h : Writes node among t t') : t'.scopes.length = t.scopes.length := by
  induction h with
  | refl => rfl
  | resolve _ _ ih | use _ _ ih | link _ _ _ ih => exact ih
  | declareIn _ _ _ _ ih =>
    unfold ScopeTree.declareIn
    split
    · exact ih
    · exact (List.length_modify ..).trans ih

theorem mem_jobs_scope {role : Role} {as ns : List Node} (h : j ∈ jobs role as s ns) : j.scope = s := by
  obtain ⟨n, -, rfl⟩ := mem_jobs.mp h
  rfl

/-- A step stays in its scope, or opens one inside it and goes on there. -/
theorem Step.scopes_cases (hs : Step job t left t') :
    t'.scopes.length = t.scopes.length ∧ (∀ j ∈ left, j.scope = job.scope) ∨
    t'.scopes.length = t.scopes.length + 1 ∧ (∀ j ∈ left, j.scope = t.scopes.length) ∧
      ∃ sc, t'.scopes[t.scopes.length]? = some sc ∧ sc.parent = some job.scope := by
  have hnew : ∀ (kind : Scope.Kind) (node scope : Nat),
      (t.openScope kind node scope).scopes.length = t.scopes.length + 1 ∧
      (t.openScope kind node scope).scopes[t.scopes.length]? = some ⟨kind, some scope, node, [], .empty⟩ := by
    simp [openScope]
  cases hs with
  | read => exact .inl ⟨(Writes.read _ _ _ _).length_scopes, by simp⟩
  | target => exact .inl ⟨(Writes.assign _ _ _ _).length_scopes, by simp⟩
  | declared => exact .inl ⟨(Writes.declareVariable _ _ _ _ _).length_scopes, fun j hj => mem_jobs_scope hj⟩
  | named | bound => exact .inl ⟨(Writes.declareVariable _ _ _ _ _).length_scopes, by simp⟩
  | body => exact .inr ⟨(hnew _ _ _).1, fun j hj => mem_jobs_scope hj, _, (hnew _ _ _).2, rfl⟩
  | loop | handled =>
    refine .inr ⟨(hnew _ _ _).1, fun j hj => ?_, _, (hnew _ _ _).2, rfl⟩
    rcases List.mem_append.mp hj with hj | hj <;> exact mem_jobs_scope hj
  | definition => exact .inr ⟨(hnew _ _ _).1, by simp, _, (hnew _ _ _).2, rfl⟩
  | attempt =>
    refine .inl ⟨rfl, fun j hj => ?_⟩
    rcases List.mem_append.mp hj with hj | hj <;> exact mem_jobs_scope hj
  | shared | assignment =>
    refine .inl ⟨rfl, fun j hj => ?_⟩
    rcases List.mem_cons.mp hj with rfl | hj
    · rfl
    · exact mem_jobs_scope hj
  | forLoop | handler | valued => exact .inl ⟨rfl, by simp⟩
  | plain | parameters | routine | separate => exact .inl ⟨rfl, fun j hj => mem_jobs_scope hj⟩

/-! ## Links stay -/

/-- What the entries of a scope take over is what an import finds there now. -/
def Stable (t : ScopeTree) (scope : Nat) : Prop :=
  ∀ (y : Nat) (f : Entry) (x : Nat), t.entries[y]? = some f → f.scope = scope → f.imported = some x →
    t.importTarget? scope f.name = some x

/-- What an import finds depends on the scopes alone. -/
theorem importTarget?_congr (h : t'.scopes = t.scopes) (s : Nat) (name : String) :
    t'.importTarget? s name = t.importTarget? s name := by
  cases t
  cases t'
  cases h
  rfl

theorem scopes_declareVariable (t : ScopeTree) (scope : Nat) (kind : Entry.Kind) (name : String) (node : Nat) :
    (t.declareVariable scope kind name node).scopes = (t.declareIn scope name kind node).2.scopes := by
  unfold declareVariable linkImport
  dsimp only
  split
  · split
    · rfl
    · split <;> rfl
  · rfl

theorem exists_of_linkOf? (h : t.linkOf? y = some x) : ∃ f, t.entries[y]? = some f ∧ f.imported = some x :=
  Option.bind_eq_some_iff.mp h

/-- What a job does to uses and links. -/
inductive Effect (job : Job) (t t' : ScopeTree) : Prop
  | silent (same : SameUses t t') (hr : ∀ name, job.node.kind = .identifier name → job.role ≠ .visit)
  | read {x : Nat} {name : String} (hr : job.role = .visit) (hk : job.node.kind = .identifier name)
      (refers : t'.entryOf? job.node.number = some x) (used : UsedBy t t' x job.node.number)
      (links : ∀ z, t'.linkOf? z = t.linkOf? z)
  | imported {x y : Nat} (hr : job.role = .declared .imported ∨ job.role = .named .imported)
      (refers : t'.entryOf? job.node.number = some y) (used : UsedBy t t' x job.node.number)
      (links : ∀ z, t'.linkOf? z = if z = y then some x else t.linkOf? z)
      (found : ∃ f, t'.entries[y]? = some f ∧ f.scope = job.scope ∧ t'.importTarget? job.scope f.name = some x)
      (again : ∀ x', t.linkOf? y = some x' → x' = x)

/-- A name that was imported before is linked to the same entry again. -/
theorem again_of_stable (hn : t.Named) (hst : t.Stable scope)
    (hx : (t.declareIn scope name kind node).2.importTarget? scope name = some x)
    (h : t.linkOf? (t.declareIn scope name kind node).1 = some y) : y = x := by
  cases he : t.entryIn? name scope with
  | none =>
    rw [declareIn_of_none he, linkOf?, List.getElem?_eq_none (Nat.le_refl _)] at h
    cases h
  | some z =>
    rw [declareIn_of_some he] at h hx
    obtain ⟨f, hf, hy⟩ := exists_of_linkOf? h
    obtain ⟨f', hf', hname, hscope⟩ := hn he
    cases hf.symm.trans hf'
    have hfound := hst z f y hf hscope hy
    rw [hname] at hfound
    exact Option.some.inj (hfound.symm.trans hx)

theorem effect_declareVariable
    (hr : job.role = .declared kind ∨ job.role = .named kind ∨ job.role = .bound ∧ kind = .localVariable) (hn : t.Named)
    (hst : t.Stable job.scope) : Effect job t (t.declareVariable job.scope kind name job.node.number) := by
  have hvisit : job.role ≠ .visit := by
    intro hv
    simp [hv] at hr
  rcases declareVariable_cases hn job.scope kind name job.node.number with h | ⟨hk, x, y, hrefers, rfl, hx, hused, hlinks⟩
  · exact .silent h fun _ _ => hvisit
  · subst hk
    obtain ⟨e, he, hname, hscope⟩ := entry_declareIn hn job.scope name .imported job.node.number
    obtain ⟨f, hf, -, hname', -, hscope'⟩ := (Carries.afterDeclareIn job.scope .imported name job.node.number).entries he
    refine .imported (by simpa using hr) hrefers hused hlinks ⟨f, hf, hscope'.trans hscope, ?_⟩ fun x' =>
      again_of_stable hn hst hx
    rw [hname', hname, importTarget?_congr (scopes_declareVariable _ _ _ _ _)]
    exact hx

theorem Effect.of_place (h : Effect job (t.place node scope) t') : Effect job t t' := by
  cases h with
  | silent same hr => exact .silent same hr
  | read hr hk refers used links => exact .read hr hk refers used links
  | imported hr refers used links found again => exact .imported hr refers used links found again

theorem Step.effect (hs : Step job t left t') (hn : t.Named) (hst : t.Stable job.scope) : Effect job t t' := by
  have hplaced : ∀ {node scope : Nat}, (t.place node scope).Named := fun {_ _} => (Carries.place _ _).named hn
  cases hs with
  | read hk =>
    obtain ⟨x, hrefers, hused, hlinks⟩ := usedBy_read hplaced _ _ _
    exact .read rfl hk hrefers hused hlinks
  | target => exact .silent (SameUses.assign (t.place _ _) _ _ _) fun _ _ => by simp
  | declared => exact .of_place (effect_declareVariable (.inl rfl) hplaced hst)
  | named => exact effect_declareVariable (.inr (.inl rfl)) hn hst
  | bound => exact effect_declareVariable (.inr (.inr ⟨rfl, rfl⟩)) hn hst
  | plain hk | body hk | definition hk | forLoop hk | attempt hk | separate hk | shared hk | assignment hk =>
    refine .silent (.of_eq rfl) fun name he => ?_
    rw [he] at hk
    cases hk
  | parameters | routine | loop | handler | handled | valued => exact .silent (.of_eq rfl) fun _ _ => by simp

/-- Links are never taken back. -/
theorem Effect.link_mono (h : Effect job t t') (hl : t.linkOf? y = some x) : t'.linkOf? y = some x := by
  cases h with
  | silent same => rw [(same y).2, hl]
  | read _ _ _ _ links => rw [links, hl]
  | @imported x' y' _ _ _ links _ again =>
    rw [links]
    split
    · rename_i he
      rw [again x (he ▸ hl)]
    · exact hl

/-- While jobs are done: scopes are nested, and the open ones are stable. -/
structure Linking (todo : List Job) (t : ScopeTree) : Prop where
  ordered : t.Ordered
  inRange : ∀ job ∈ todo, job.scope < t.scopes.length
  stored : Scoped t.scopes.length t
  nested : todo.Pairwise fun a b => b.scope ∈ t.outward a.scope
  stable : ∀ job ∈ todo, t.Stable job.scope

theorem Step.ordered (hs : Step job t left t') (ho : t.Ordered) (hc : job.scope < t.scopes.length) : t'.Ordered := by
  intro i sc p hi hp
  have hold : i < t.scopes.length → p < i := by
    intro hlt
    obtain ⟨sc', hsc', -, hparent, -⟩ := hs.grows.scopes (List.getElem?_eq_getElem hlt)
    cases hi.symm.trans hsc'
    exact ho (List.getElem?_eq_getElem hlt) (hparent ▸ hp)
  have hlt := (List.getElem?_eq_some_iff.mp hi).1
  rcases hs.scopes_cases with ⟨hlen, -⟩ | ⟨hlen, -, new, hnew, hparent⟩
  · exact hold (hlen ▸ hlt)
  · by_cases hi' : i < t.scopes.length
    · exact hold hi'
    · obtain rfl : i = t.scopes.length := by omega
      cases hi.symm.trans hnew
      cases hp.symm.trans hparent
      exact hc

/-- The scope of the jobs that a step leaves: the one it was in, or a new one inside it. -/
theorem Step.outward_left (hs : Step job t left t') (hc : job.scope < t.scopes.length) (hj : j ∈ left) :
    j.scope < t'.scopes.length ∧ ∀ s ∈ t.outward job.scope, s ∈ t'.outward j.scope := by
  have hout := hs.grows.outward_eq hc
  rcases hs.scopes_cases with ⟨hlen, hsame⟩ | ⟨hlen, hsame, new, hnew, hparent⟩
  · rw [hsame j hj, hlen, hout]
    exact ⟨hc, fun s hs => hs⟩
  · rw [hsame j hj, hlen, outward_of_parent hnew hparent hc, hout]
    exact ⟨Nat.lt_succ_self _, fun s hs => .tail _ hs⟩

/-- What an open scope took over before a step is what an import finds there after it. -/
theorem Linking.found {f : Entry} (h : Linking (job :: todo) t) (hs : Step job t left t') (hj : j ∈ left ++ todo)
    (hf : t'.entries[y]? = some f) (hscope : f.scope = j.scope) (hl : t.linkOf? y = some x) :
    t'.importTarget? j.scope f.name = some x := by
  have hc : job.scope < t.scopes.length := h.inRange job (.head _)
  obtain ⟨f₀, hf₀, hx⟩ := exists_of_linkOf? hl
  obtain ⟨f', hf', -, hname, -, hscope'⟩ := hs.carries.entries hf₀
  cases hf.symm.trans hf'
  rw [hname]
  rcases List.mem_append.mp hj with hj | hj
  · rcases hs.scopes_cases with ⟨-, hsame⟩ | ⟨-, hsame, -⟩
    · rw [hsame j hj] at hscope ⊢
      exact hs.importTarget?_eq h.ordered hc (mem_way_self _ _)
        (h.stable job (.head _) y f₀ x hf₀ (hscope'.symm.trans hscope) hx)
    · have hlt := h.stored y f₀ hf₀
      have := hsame j hj
      omega
  · exact hs.importTarget?_eq h.ordered hc ((List.pairwise_cons.mp h.nested).1 j hj)
      (h.stable j (.tail _ hj) y f₀ x hf₀ (hscope'.symm.trans hscope) hx)

/-- Jobs in one scope. -/
theorem nested_of_same_scope {js : List Job} (h : ∀ a ∈ js, ∀ b ∈ js, b.scope = a.scope) :
    js.Pairwise fun a b => b.scope ∈ t.outward a.scope := by
  refine (List.pairwise_of_forall fun _ _ => trivial).imp_of_mem fun {a b} ha hb (_ : True) => ?_
  rw [h a ha b hb]
  exact mem_way_self _ _

theorem Linking.step (h : Linking (job :: todo) t) (hs : Step job t left t') (hn : t.Named) :
    Linking (left ++ todo) t' := by
  have hc : job.scope < t.scopes.length := h.inRange job (.head _)
  have hnested := List.pairwise_cons.mp h.nested
  have hlater : ∀ {i}, i < t.scopes.length → i < t'.scopes.length := by
    intro i hi
    obtain ⟨sc, hsc, -⟩ := hs.grows.scopes (List.getElem?_eq_getElem hi)
    exact (List.getElem?_eq_some_iff.mp hsc).1
  refine ⟨hs.ordered h.ordered hc, fun j hj => ?_, fun y f hf => hlater (h.stored.step hs hc y f hf), ?_,
    fun j hj y f x hf hscope hx => ?_⟩
  · rcases List.mem_append.mp hj with hj | hj
    · exact (hs.outward_left hc hj).1
    · exact hlater (h.inRange j (.tail _ hj))
  · -- the jobs that a step leaves share a scope, and come before those in scopes further out
    refine List.pairwise_append.mpr ⟨nested_of_same_scope fun a ha b hb => ?_, ?_, fun a ha b hb => ?_⟩
    · rcases hs.scopes_cases with ⟨-, hsame⟩ | ⟨-, hsame, -⟩ <;> rw [hsame a ha, hsame b hb]
    · refine hnested.2.imp_of_mem fun {a b} ha hb hab => ?_
      rw [hs.grows.outward_eq (h.inRange a (List.mem_cons_of_mem _ ha))]
      exact hab
    · exact (hs.outward_left hc ha).2 _ (hnested.1 b hb)
  · have hl : t'.linkOf? y = some x := by rw [linkOf?, hf]; exact hx
    cases hs.effect hn (h.stable job (.head _)) with
    | silent same => exact h.found hs hj hf hscope ((same y).2 ▸ hl)
    | read _ _ _ _ links => exact h.found hs hj hf hscope (links y ▸ hl)
    | @imported x' y' _ _ _ links found _ =>
      rw [links] at hl
      split at hl
      · rename_i he
        obtain ⟨f', hf', hscope', hfound⟩ := found
        rw [← he] at hf'
        cases hf.symm.trans hf'
        obtain rfl : x' = x := Option.some.inj hl
        rw [← hscope, hscope']
        exact hfound
      · exact h.found hs hj hf hscope hl

theorem Linking.start (root : Node) :
    Linking (jobs .visit [root] 0 root.children) ((ScopeTree.start root.number).place root.number 0) := by
  refine ⟨fun {i sc p} hi hp => ?_, fun j hj => ?_, fun y f hf => (by cases hf), ?_,
    fun j _ y f x hf => (by cases hf)⟩
  · cases i with
    | zero =>
      cases hi
      cases hp
    | succ i => cases hi
  · rw [mem_jobs_scope hj]
    exact Nat.zero_lt_one
  · exact nested_of_same_scope fun a ha b hb => by rw [mem_jobs_scope ha, mem_jobs_scope hb]

end Magik.ScopeTree
