/-
  Magik.Proofs.Scope.Twins — the scopes of nodes do not depend on the file they stand in.

  The number of a file is noted with the global scope and in the tables of nodes, and no job
  looks at it. So the same jobs, done for two files, leave trees that differ in these places
  only (`Run.twins`).
-/

import Magik.Proofs.Scope.Usages

namespace Magik.ScopeTree

variable {t t' u u' : ScopeTree} {job : Job} {left left' todo : List Job} {files : List Nat} {name : String}

/-- An import links to what it finds, if that can be imported. -/
theorem linkImport_eq (t : ScopeTree) (scope entry : Nat) (name : String) (node : Nat) :
    t.linkImport scope entry name node =
      match t.importTarget? scope name with
      | none => t
      | some target =>
        if (t.entryAt? target).any fun e => e.kind.isImportable then (t.use target node).link entry target else t :=
  rfl

/-- Trees that tell apart only which node opened the global scope, and where these numbers have their places. -/
structure Twins (files : List Nat) (t u : ScopeTree) : Prop where
  scopes : ∃ s ss file, t.scopes = s :: ss ∧ u.scopes = { s with node := file } :: ss
  entries : u.entries = t.entries
  resolved : u.resolved = t.resolved
  seats : ∀ j ∉ files, u.scopeOf? j = t.scopeOf? j ∧ u.scopeOpenedBy? j = t.scopeOpenedBy? j

namespace Twins

theorem start (a b : Nat) : Twins [a, b] ((ScopeTree.start a).place a 0) ((ScopeTree.start b).place b 0) := by
  refine ⟨⟨_, _, b, rfl, rfl⟩, rfl, rfl, fun j hj => ?_⟩
  obtain ⟨ha, hb⟩ : a ≠ j ∧ b ≠ j := by
    simp only [List.mem_cons, List.not_mem_nil, or_false, not_or] at hj
    exact ⟨fun h => hj.1 h.symm, fun h => hj.2 h.symm⟩
  simp [ScopeTree.start, scopeOf?, scopeOpenedBy?, ScopeTree.place, Table.find?_insert, ha, hb]

variable (h : Twins files t u)
include h

theorem bind_eq {α : Type} {f : Scope → Option α} (hf : ∀ s file, f { s with node := file } = f s)
    (i : Nat) : u.scopes[i]?.bind f = t.scopes[i]?.bind f := by
  obtain ⟨s, ss, file, ht, hu⟩ := h.scopes
  rw [ht, hu]
  cases i with
  | zero => exact hf s file
  | succ i => rfl

theorem length_eq : u.scopes.length = t.scopes.length := by
  obtain ⟨s, ss, file, ht, hu⟩ := h.scopes
  rw [ht, hu]
  rfl

theorem entryIn?_eq : u.entryIn? = t.entryIn? := by
  funext name i
  exact h.bind_eq (f := fun s => s.names.find? name) (fun _ _ => rfl) i

theorem outward_eq : u.outward = t.outward := by
  funext id
  exact way_congr id fun i _ => h.bind_eq (f := fun s => s.parent) (fun _ _ => rfl) i

theorem visible_eq : u.visible = t.visible := by
  funext id
  exact way_congr id fun i _ => h.bind_eq (f := nextVisible) (fun _ _ => rfl) i

theorem lookup_eq : u.lookup = t.lookup := by
  funext id name
  rw [lookup, h.visible_eq, h.entryIn?_eq, lookup]

theorem procedureScope?_eq : u.procedureScope? = t.procedureScope? := by
  funext id
  rw [procedureScope?, h.outward_eq, procedureScope?]
  congr
  funext i
  have hk := h.bind_eq (f := fun s => some s.kind) (fun _ _ => rfl) i
  cases hu : u.scopes[i]? <;> cases ht : t.scopes[i]? <;> simp_all

theorem place (node scope : Nat) : Twins files (t.place node scope) (u.place node scope) := by
  refine ⟨h.scopes, h.entries, h.resolved, fun j hj => ?_⟩
  simp [h.seats j hj]

theorem resolve (node entry : Nat) : Twins files (t.resolve node entry) (u.resolve node entry) :=
  ⟨h.scopes, h.entries, by simp [ScopeTree.resolve, h.resolved], h.seats⟩

theorem shareScope (node scope : Nat) :
    Twins files (t.shareScope node scope) (u.shareScope node scope) := by
  refine ⟨h.scopes, h.entries, h.resolved, fun j hj => ?_⟩
  simp [h.seats j hj]

/-- Neither a new child nor a new name depends on which node opened a scope. -/
theorem modifyScopes {f : Scope → Scope}
    (hf : ∀ s file, f { s with node := file } = { f s with node := file }) (i : Nat) (new : List Scope) :
    ∃ s ss file, t.scopes.modify i f ++ new = s :: ss ∧ u.scopes.modify i f ++ new = { s with node := file } :: ss := by
  obtain ⟨s, ss, file, ht, hu⟩ := h.scopes
  rw [ht, hu]
  cases i with
  | zero => exact ⟨f s, ss ++ new, file, rfl, congrArg (· :: (ss ++ new)) (hf s file)⟩
  | succ i => exact ⟨s, ss.modify i f ++ new, file, rfl, rfl⟩

theorem openScope (kind : Scope.Kind) (node parent : Nat) :
    Twins files (t.openScope kind node parent) (u.openScope kind node parent) := by
  refine ⟨?_, h.entries, h.resolved, fun j hj => ?_⟩
  · simp only [ScopeTree.openScope, h.length_eq]
    exact h.modifyScopes (fun _ _ => rfl) parent _
  · simp [h.seats j hj, h.length_eq]

theorem openBody (node scope : Nat) : Twins files (t.openBody node scope) (u.openBody node scope) := by
  simp only [ScopeTree.openBody, h.length_eq]
  exact (h.openScope .body node scope).place node _

theorem declareIn (scope : Nat) (name : String) (kind : Entry.Kind) (node : Nat) :
    (u.declareIn scope name kind node).1 = (t.declareIn scope name kind node).1 ∧
      Twins files (t.declareIn scope name kind node).2 (u.declareIn scope name kind node).2 := by
  cases hx : t.entryIn? name scope with
  | some x =>
    rw [declareIn_of_some hx, declareIn_of_some (h.entryIn?_eq ▸ hx)]
    exact ⟨rfl, h⟩
  | none =>
    rw [declareIn_of_none hx, declareIn_of_none (h.entryIn?_eq ▸ hx)]
    refine ⟨by rw [h.entries], ?_, by simp [h.entries], h.resolved, h.seats⟩
    have hs := h.modifyScopes (f := fun s => { s with names := s.names.insert name t.entries.length })
      (fun _ _ => rfl) scope []
    simpa [h.entries] using hs

theorem modifyEntries (x : Nat) (f : Entry → Entry) :
    Twins files { t with entries := t.entries.modify x f } { u with entries := u.entries.modify x f } :=
  ⟨h.scopes, by simp [h.entries], h.resolved, h.seats⟩

theorem use (x node : Nat) : Twins files (t.use x node) (u.use x node) := h.modifyEntries x _

theorem link (x target : Nat) : Twins files (t.link x target) (u.link x target) := h.modifyEntries x _

theorem declare (scope : Nat) (name : String) (kind : Entry.Kind) (node : Nat) :
    (u.declare scope name kind node).1 = (t.declare scope name kind node).1 ∧
      Twins files (t.declare scope name kind node).2 (u.declare scope name kind node).2 := by
  obtain ⟨he, hd⟩ := h.declareIn scope name kind node
  refine ⟨he, ?_⟩
  simp only [ScopeTree.declare, he]
  exact hd.resolve node _

theorem read (scope : Nat) (name : String) (node : Nat) :
    Twins files (t.read scope name node) (u.read scope name node) := by
  unfold ScopeTree.read
  rw [h.lookup_eq]
  split
  · exact (h.use _ node).resolve node _
  · obtain ⟨he, hd⟩ := h.declareIn 0 name .global node
    simp only [he]
    exact (hd.use _ node).resolve node _

theorem assign (scope : Nat) (name : String) (node : Nat) :
    Twins files (t.assign scope name node) (u.assign scope name node) := by
  unfold ScopeTree.assign
  rw [h.lookup_eq, h.procedureScope?_eq]
  split
  · exact h.resolve node _
  · split <;> exact (h.declare _ name _ node).2

theorem beyond_eq : u.beyond = t.beyond := by
  funext scope
  have hparent : (fun i => u.scopes[i]?.bind Scope.parent) = fun i => t.scopes[i]?.bind Scope.parent :=
    funext (h.bind_eq fun _ _ => rfl)
  show ((u.procedureScope? scope).bind fun i => u.scopes[i]?.bind Scope.parent).elim [] u.outward = t.beyond scope
  rw [h.procedureScope?_eq, hparent, h.outward_eq]
  rfl

theorem linkImport (scope entry : Nat) (name : String) (node : Nat) :
    Twins files (t.linkImport scope entry name node) (u.linkImport scope entry name node) := by
  have htarget : u.importTarget? scope name = t.importTarget? scope name := by
    rw [importTarget?, h.beyond_eq, h.entryIn?_eq, importTarget?]
  have hentry : u.entryAt? = t.entryAt? := by
    funext x
    rw [entryAt?, h.entries, entryAt?]
  rw [linkImport_eq, linkImport_eq, htarget, hentry]
  split
  · exact h
  · split
    · exact (h.use _ node).link entry _
    · exact h

theorem declareVariable (scope : Nat) (kind : Entry.Kind) (name : String) (node : Nat) :
    Twins files (t.declareVariable scope kind name node) (u.declareVariable scope kind name node) := by
  obtain ⟨he, hd⟩ := h.declare scope name kind node
  unfold ScopeTree.declareVariable
  dsimp only
  rw [he]
  split
  · exact hd.linkImport scope _ name node
  · exact hd

end Twins

/-- The children of a try have one reading: only a variable comes before its body. -/
theorem eq_of_attempt {binding binding' : Option Node} {body body' : Node} {handlers handlers' : List Node}
    (hv : ∀ v ∈ binding, ∃ name, v.kind = .attemptVariable name)
    (hv' : ∀ v ∈ binding', ∃ name, v.kind = .attemptVariable name) (hb : body.kind = .body) (hb' : body'.kind = .body)
    (h : binding.toList ++ body :: handlers = binding'.toList ++ body' :: handlers') :
    binding = binding' ∧ body = body' ∧ handlers = handlers' := by
  cases binding with
  | none =>
    cases binding' with
    | none => simpa using h
    | some v' =>
      obtain ⟨name, hk⟩ := hv' v' rfl
      simp_all
  | some v =>
    obtain ⟨name, hk⟩ := hv v rfl
    cases binding' with
    | none => simp_all
    | some v' => simpa using h

/-- A job done in both: it leaves the same jobs. -/
theorem Step.twins (hs : Step job t left t') (hs' : Step job u left' u') (h : Twins files t u) :
    left' = left ∧ Twins files t' u' := by
  cases hs with
  | plain hk =>
    cases hs' with
    | plain => exact ⟨rfl, h.place _ _⟩
    | definition hk' => exact absurd hk' (by simp [Node.Kind.isDefinition_of_isPlain hk])
    | assignment hk' => exact absurd hk' (by simp [Node.Kind.isAssignment_of_isPlain hk])
    | _ hk' =>
      rw [hk'] at hk
      cases hk
  | definition hk hc =>
    cases hs' with
    | definition _ hc' =>
      rw [hc] at hc'
      cases hc'
      exact ⟨by rw [h.length_eq], (h.place _ _).openScope _ _ _⟩
    | plain hk' => exact absurd hk (by simp [Node.Kind.isDefinition_of_isPlain hk'])
    | assignment hk' => exact absurd hk (by simp [Node.Kind.isDefinition_of_isAssignment hk'])
    | _ hk' =>
      rw [hk'] at hk
      cases hk
  | assignment hk hc =>
    cases hs' with
    | assignment _ hc' =>
      rw [hc] at hc'
      obtain ⟨rfl, hv⟩ := List.append_inj' hc' rfl
      cases hv
      exact ⟨rfl, h.place _ _⟩
    | plain hk' => exact absurd hk (by simp [Node.Kind.isAssignment_of_isPlain hk'])
    | definition hk' => exact absurd hk' (by simp [Node.Kind.isDefinition_of_isAssignment hk])
    | _ hk' =>
      rw [hk'] at hk
      cases hk
  | read hk =>
    cases hs' with
    | read hk' =>
      rw [hk] at hk'
      cases hk'
      exact ⟨rfl, (h.place _ _).read _ _ _⟩
    | _ hk' =>
      rw [hk] at hk'
      cases hk'
  | body hk =>
    cases hs' with
    | body => exact ⟨by rw [h.length_eq], h.openBody _ _⟩
    | _ hk' =>
      rw [hk] at hk'
      cases hk'
  | forLoop hk hc =>
    cases hs' with
    | forLoop _ hc' =>
      rw [hc] at hc'
      obtain ⟨rfl, hv⟩ := List.append_inj' hc' rfl
      cases hv
      exact ⟨rfl, h.place _ _⟩
    | _ hk' =>
      rw [hk] at hk'
      cases hk'
  | attempt hk hc hv hb =>
    cases hs' with
    | attempt _ hc' hv' hb' =>
      obtain ⟨rfl, rfl, rfl⟩ := eq_of_attempt hv hv' hb hb' (hc.symm.trans hc')
      exact ⟨rfl, h.place _ _⟩
    | _ hk' =>
      rw [hk] at hk'
      cases hk'
  | separate hk =>
    cases hs' with
    | separate hk' =>
      rw [hk] at hk'
      cases hk'
      exact ⟨rfl, h.place _ _⟩
    | _ hk' =>
      rw [hk] at hk'
      cases hk'
  | shared hk hc =>
    cases hs' with
    | shared hk' hc' =>
      rw [hk] at hk'
      cases hk'
      rw [hc] at hc'
      obtain ⟨rfl, hv⟩ := List.append_inj' hc' rfl
      cases hv
      exact ⟨rfl, h.place _ _⟩
    | _ hk' =>
      rw [hk] at hk'
      cases hk'
  | parameters =>
    cases hs'
    exact ⟨rfl, h.place _ _⟩
  | routine =>
    cases hs'
    exact ⟨rfl, h.shareScope _ _⟩
  | loop | handled =>
    cases hs'
    exact ⟨by rw [h.length_eq], h.openBody _ _⟩
  | handler hc =>
    cases hs' with
    | handler hc' =>
      rw [hc] at hc'
      cases hc'
      exact ⟨rfl, h.place _ _⟩
  | bound hk =>
    cases hs' with
    | bound hk' =>
      rw [hk] at hk'
      cases hk'
      exact ⟨rfl, h.declareVariable _ _ _ _⟩
  | declared hn hk =>
    cases hs' with
    | declared hn' =>
      rw [hn] at hn'
      cases hn'
      exact ⟨rfl, (h.place _ _).declareVariable _ _ _ _⟩
    | valued _ hk' hc' => simp_all
  | valued hn hk hc =>
    cases hs' with
    | declared _ hk' => simp_all
    | valued _ _ hc' =>
      rw [hc] at hc'
      cases hc'
      exact ⟨rfl, h.place _ _⟩
  | named hn =>
    cases hs' with
    | named hn' =>
      rw [hn] at hn'
      cases hn'
      exact ⟨rfl, h.declareVariable _ _ _ _⟩
  | target hk =>
    cases hs' with
    | target hk' =>
      rw [hk] at hk'
      cases hk'
      exact ⟨rfl, (h.place _ _).assign _ _ _⟩

/-- Jobs done in both until none is left. -/
theorem Run.twins (hr : Run todo t t') (hr' : Run todo u u') (h : Twins files t u) : Twins files t' u' := by
  induction hr generalizing u with
  | done =>
    cases hr'
    exact h
  | step hs _ ih =>
    cases hr' with
    | step hs' hrest =>
      obtain ⟨rfl, h'⟩ := hs.twins hs' h
      exact ih hrest h'

end Magik.ScopeTree
