/-
  Magik.Proofs.Scope.Growth — what the walk that builds scopes leaves as it is.

  Scopes and entries are only ever added: a scope keeps its node and its surroundings, an
  entry the scope it is stored in. Names are given entries at the nodes walked over and
  nowhere else. So a scope that is there sees the same scopes ever after.
-/

import Magik.Scope.Build
import Magik.Proofs.Lists
import Magik.Proofs.Syntax.Numbers

namespace Magik

/-- Nodes whose scopes and names are those of their children. -/
def Node.Kind.isPlain : Kind → Bool
  | .method _ | .procedure .. | .body | .declaration .. | .forLoop _ | .attempt | .assignment | .augmentedAssignment _
  | .multipleAssignment | .identifier _ => false
  | _ => true

namespace ScopeTree

/-! ## The walk over some nodes -/

theorem walk_of_isPlain {n : Node} {scope : Nat} {t : ScopeTree} (hk : n.kind.isPlain) :
    walk scope n t = walkAll scope n.children (t.place n.number scope) := by
  obtain ⟨number, kind, span, children⟩ := n
  cases kind <;> cases hk <;> rw [walk] <;> simp

theorem walkLast_concat (scope : Nat) (ns : List Node) (n : Node) (t : ScopeTree) :
    walkLast scope (ns ++ [n]) t = walk scope n t := by
  induction ns with
  | nil => rw [List.nil_append, walkLast]
  | cons m ns ih =>
    rw [List.cons_append, walkLast]
    · exact ih
    · simp

theorem walkFor_append (scope : Nat) (vars vs : List Node) (iterable body : Node) (t : ScopeTree) :
    walkFor scope vars (vs ++ [iterable, body]) t = walkFor scope (vars ++ vs) [iterable, body] t := by
  induction vs generalizing vars with
  | nil => simp
  | cons v vs ih =>
    rw [List.cons_append, walkFor]
    · rw [ih, List.append_assoc, List.singleton_append]
    · cases vs <;> simp
    · cases vs <;> simp

/-! ## Ways -/

theorem way_congr {f g : Nat → Option Nat} (id : Nat) (h : ∀ i ≤ id, f i = g i) : way f id = way g id := by
  induction id using Nat.strongRecOn with
  | ind id ih =>
    rw [way, way, ← h id (Nat.le_refl id)]
    cases f id with
    | none => rfl
    | some next =>
      dsimp only
      split
      · rename_i hlt
        rw [ih next hlt fun i hi => h i (by omega)]
      · rfl

theorem way_zero (f : Nat → Option Nat) : way f 0 = [0] := by
  rw [way]
  cases f 0 <;> simp

theorem mem_way_self (f : Nat → Option Nat) (id : Nat) : id ∈ way f id := by
  rw [way]
  simp

theorem way_of_some {f : Nat → Option Nat} {id next : Nat} (h : f id = some next) (hlt : next < id) :
    way f id = id :: way f next := by
  rw [way, h]
  simp [hlt]

/-! ## Growing -/

/-- The names of each scope lead to entries of that name in that scope. -/
def Named (t : ScopeTree) : Prop :=
  ∀ {i : Nat} {name : String} {x : Nat}, t.entryIn? name i = some x →
    ∃ e, t.entries[x]? = some e ∧ e.name = name ∧ e.scope = i

/-- An entry with the same name at the same place. -/
def SameEntry (e e' : Entry) : Prop := e'.kind = e.kind ∧ e'.name = e.name ∧ e'.node = e.node ∧ e'.scope = e.scope

/-- The second tree has all entries and names of the first. -/
structure Carries (t t' : ScopeTree) : Prop where
  entries {x : Nat} {e : Entry} : t.entries[x]? = some e → ∃ e', t'.entries[x]? = some e' ∧ SameEntry e e'
  names {i : Nat} {name : String} {x : Nat} : t.entryIn? name i = some x → t'.entryIn? name i = some x
  named : t.Named → t'.Named

/-- The second tree has all of the first, and names at no other nodes than these. -/
structure Grows (ns : List Nat) (t t' : ScopeTree) : Prop extends Carries t t' where
  scopes {i : Nat} {s : Scope} : t.scopes[i]? = some s →
    ∃ s', t'.scopes[i]? = some s' ∧ s'.kind = s.kind ∧ s'.parent = s.parent ∧ s'.node = s.node
  resolved {j : Nat} : j ∉ ns → t'.entryOf? j = t.entryOf? j

section

variable {ns ms : List Nat} {t t' t'' : ScopeTree} {scope node x i : Nat} {name : String}

theorem Carries.trans (h : Carries t t') (h' : Carries t' t'') : Carries t t'' := by
  refine ⟨fun he => ?_, fun hx => h'.names (h.names hx), fun hn => h'.named (h.named hn)⟩
  obtain ⟨e', he', hk, hname, hnode, hscope⟩ := h.entries he
  obtain ⟨e'', he'', hk', hname', hnode', hscope'⟩ := h'.entries he'
  exact ⟨e'', he'', hk'.trans hk, hname'.trans hname, hnode'.trans hnode, hscope'.trans hscope⟩

/-- Nothing new. -/
theorem Carries.of_eq (he : t'.entries = t.entries) (hn : ∀ name i, t'.entryIn? name i = t.entryIn? name i) :
    Carries t t' := by
  refine ⟨fun h => ⟨_, he ▸ h, rfl, rfl, rfl, rfl⟩, fun h => by rw [hn, h], fun h i name x hx => ?_⟩
  rw [hn] at hx
  rw [he]
  exact h hx

theorem Carries.refl (t : ScopeTree) : Carries t t := of_eq rfl fun _ _ => rfl

theorem Carries.place (node scope : Nat) : Carries t (t.place node scope) := of_eq rfl fun _ _ => rfl

/-- A new scope has no names, and the other ones keep theirs. -/
theorem entryIn?_openScope (t : ScopeTree) (kind : Scope.Kind) (node parent : Nat) (name : String) (i : Nat) :
    (t.openScope kind node parent).entryIn? name i = t.entryIn? name i := by
  simp only [openScope, entryIn?, List.getElem?_append, List.length_modify, List.getElem?_modify]
  split
  · cases t.scopes[i]? with
    | none => rfl
    | some s => by_cases hi : parent = i <;> simp [hi]
  · rename_i hi
    rw [List.getElem?_eq_none (Nat.le_of_not_lt hi), List.getElem?_singleton]
    split <;> rfl

/-! ## Declared names -/

theorem declareIn_of_some (h : t.entryIn? name scope = some x) (kind : Entry.Kind) (node : Nat) :
    t.declareIn scope name kind node = (x, t) := by
  unfold declareIn
  rw [h]

/-- What `declareIn` makes of the scopes when the name is new. -/
theorem declareIn_of_none (h : t.entryIn? name scope = none) (kind : Entry.Kind) (node : Nat) :
    t.declareIn scope name kind node = (t.entries.length, { t with
      entries := t.entries ++ [⟨kind, name, node, scope, none, []⟩]
      scopes := t.scopes.modify scope fun s => { s with names := s.names.insert name t.entries.length } }) := by
  unfold declareIn
  rw [h]

/-- The new name is in its scope, and all others are where they were. -/
theorem entryIn?_declareIn_of_none (h : t.entryIn? name scope = none) (kind : Entry.Kind) (node : Nat) (name' : String)
    (i : Nat) : (t.declareIn scope name kind node).2.entryIn? name' i =
      if (scope = i ∧ name = name') ∧ i < t.scopes.length then some t.entries.length else t.entryIn? name' i := by
  rw [declareIn_of_none h]
  simp only [entryIn?, List.getElem?_modify]
  by_cases hi : i < t.scopes.length
  · rw [List.getElem?_eq_getElem hi]
    by_cases hs : scope = i
    · simp [hs, hi, Table.find?_insert]
    · simp [hs]
  · simp [hi]

/-- A declared name leads to an entry of that name in that scope. -/
theorem entry_declareIn (hn : t.Named) (scope : Nat) (name : String) (kind : Entry.Kind) (node : Nat) :
    ∃ e, (t.declareIn scope name kind node).2.entries[(t.declareIn scope name kind node).1]? = some e ∧
      e.name = name ∧ e.scope = scope := by
  cases h : t.entryIn? name scope with
  | some x =>
    rw [declareIn_of_some h]
    exact hn h
  | none =>
    rw [declareIn_of_none h]
    exact ⟨_, List.getElem?_concat_length, rfl, rfl⟩

theorem Carries.declareIn (scope : Nat) (name : String) (kind : Entry.Kind) (node : Nat) :
    Carries t (t.declareIn scope name kind node).2 := by
  cases h : t.entryIn? name scope with
  | some x =>
    rw [declareIn_of_some h]
    exact refl t
  | none =>
    have hentries : ∀ {x : Nat} {e : Entry}, t.entries[x]? = some e →
        (t.declareIn scope name kind node).2.entries[x]? = some e := by
      intro x e he
      rw [declareIn_of_none h]
      exact (List.getElem?_append_left (List.getElem?_eq_some_iff.mp he).1).trans he
    refine ⟨fun he => ⟨_, hentries he, rfl, rfl, rfl, rfl⟩, fun {i name' x} hx => ?_, fun hn i name' x hx => ?_⟩
    · rw [entryIn?_declareIn_of_none h]
      split
      · rename_i hnew
        rw [← hnew.1.1, ← hnew.1.2, h] at hx
        cases hx
      · exact hx
    · rw [entryIn?_declareIn_of_none h] at hx
      split at hx
      · rename_i hnew
        cases hx
        rw [declareIn_of_none h, ← hnew.1.1, ← hnew.1.2]
        exact ⟨_, List.getElem?_concat_length, rfl, rfl⟩
      · obtain ⟨e, he, hname, hscope⟩ := hn hx
        exact ⟨e, hentries he, hname, hscope⟩

/-! ## Single steps -/

namespace Grows

theorem trans (h : Grows ns t t') (h' : Grows ns t' t'') : Grows ns t t'' := by
  refine { h.toCarries.trans h'.toCarries with scopes := fun hs => ?_, resolved := fun hj => ?_ }
  · obtain ⟨s', hs', hk, hp, hn⟩ := h.scopes hs
    obtain ⟨s'', hs'', hk', hp', hn'⟩ := h'.scopes hs'
    exact ⟨s'', hs'', hk'.trans hk, hp'.trans hp, hn'.trans hn⟩
  · exact (h'.resolved hj).trans (h.resolved hj)

theorem mono (h : Grows ns t t') (hsub : ∀ j ∈ ns, j ∈ ms) : Grows ms t t' :=
  { h with resolved := fun hj => h.resolved fun hn => hj (hsub _ hn) }

/-- No scopes or entries are written. -/
theorem of_eq (hs : t'.scopes = t.scopes) (he : t'.entries = t.entries) (hr : ∀ j ∉ ns, t'.entryOf? j = t.entryOf? j) :
    Grows ns t t' :=
  { Carries.of_eq he fun _ _ => by rw [entryIn?, entryIn?, hs] with
    scopes := fun h => ⟨_, hs ▸ h, rfl, rfl, rfl⟩
    resolved := hr _ }

theorem refl (ns : List Nat) (t : ScopeTree) : Grows ns t t := of_eq rfl rfl fun _ _ => rfl

theorem place (node scope : Nat) : Grows ns t (t.place node scope) := of_eq rfl rfl fun _ _ => rfl

theorem setOpened (opened : Table Nat Nat) : Grows ns t { t with opened := opened } := of_eq rfl rfl fun _ _ => rfl

theorem resolve {entry : Nat} (hn : node ∈ ns) : Grows ns t (t.resolve node entry) := by
  refine of_eq rfl rfl fun j hj => ?_
  have hne : node ≠ j := fun h => hj (h ▸ hn)
  simp [ScopeTree.resolve, entryOf?, Table.find?_insert, hne]

theorem openScope (kind : Scope.Kind) (node parent : Nat) : Grows ns t (t.openScope kind node parent) := by
  have hcarries : Carries t (t.openScope kind node parent) := .of_eq rfl (entryIn?_openScope t kind node parent)
  refine { hcarries with scopes := fun {i s} hs => ?_, resolved := fun _ => rfl }
  refine ⟨if parent = i then { s with children := s.children ++ [t.scopes.length] } else s, ?_, ?_⟩
  · rw [ScopeTree.openScope, List.getElem?_append_left (by simpa using (List.getElem?_eq_some_iff.mp hs).1)]
    exact getElem?_modify_of_some hs
  · split <;> exact ⟨rfl, rfl, rfl⟩

/-- A scope with one more name. -/
theorem declareIn (scope : Nat) (name : String) (kind : Entry.Kind) (node : Nat) :
    Grows ns t (t.declareIn scope name kind node).2 := by
  refine { Carries.declareIn scope name kind node with scopes := fun hs => ?_, resolved := fun _ => ?_ }
  all_goals unfold ScopeTree.declareIn
  · split
    · exact ⟨_, hs, rfl, rfl, rfl⟩
    · refine ⟨_, getElem?_modify_of_some hs, ?_⟩
      split <;> exact ⟨rfl, rfl, rfl⟩
  · split <;> rfl

theorem modifyEntry {f : Entry → Entry} (hf : ∀ e, SameEntry e (f e)) (entry : Nat) :
    Grows ns t { t with entries := t.entries.modify entry f } := by
  have hkeep : ∀ {x : Nat} {e : Entry}, t.entries[x]? = some e →
      ∃ e', (t.entries.modify entry f)[x]? = some e' ∧ SameEntry e e' := by
    intro x e he
    refine ⟨_, getElem?_modify_of_some he, ?_⟩
    split
    · exact hf e
    · exact ⟨rfl, rfl, rfl, rfl⟩
  refine ⟨⟨hkeep, id, fun hn i name x hx => ?_⟩, fun h => ⟨_, h, rfl, rfl, rfl⟩, fun _ => rfl⟩
  obtain ⟨e, he, hname, hscope⟩ := hn hx
  obtain ⟨e', he', -, hname', -, hscope'⟩ := hkeep he
  exact ⟨e', he', hname'.trans hname, hscope'.trans hscope⟩

theorem use (entry node : Nat) : Grows ns t (t.use entry node) :=
  modifyEntry (f := fun e => { e with usages := e.usages ++ [node] }) (fun _ => ⟨rfl, rfl, rfl, rfl⟩) entry

theorem link (entry target : Nat) : Grows ns t (t.link entry target) :=
  modifyEntry (f := fun e => { e with imported := some target }) (fun _ => ⟨rfl, rfl, rfl, rfl⟩) entry

end Grows

theorem Carries.use (entry node : Nat) : Carries t (t.use entry node) := (Grows.use entry node : Grows [] t _).toCarries

/-! ## Names -/

/-- What is written for a name at a node: the node refers to an entry and uses it, an entry is
    linked, and the name is declared, in one of these scopes. -/
inductive Writes (node : Nat) (among : Nat → Prop) (t : ScopeTree) : ScopeTree → Prop
  | refl : Writes node among t t
  | resolve {u : ScopeTree} (h : Writes node among t u) (entry : Nat) : Writes node among t (u.resolve node entry)
  | use {u : ScopeTree} (h : Writes node among t u) (entry : Nat) : Writes node among t (u.use entry node)
  | link {u : ScopeTree} (h : Writes node among t u) (entry target : Nat) : Writes node among t (u.link entry target)
  | declareIn {u : ScopeTree} {scope : Nat} (h : Writes node among t u) (hs : among scope) (name : String)
      (kind : Entry.Kind) : Writes node among t (u.declareIn scope name kind node).2

namespace Writes

variable {among : Nat → Prop}

theorem grows (h : Writes node among t t') : Grows [node] t t' := by
  induction h with
  | refl => exact .refl _ _
  | resolve _ _ ih => exact ih.trans (.resolve (.head _))
  | use _ _ ih => exact ih.trans (.use _ _)
  | link _ _ _ ih => exact ih.trans (.link _ _)
  | declareIn _ _ _ _ ih => exact ih.trans (.declareIn _ _ _ _)

theorem read (t : ScopeTree) (scope : Nat) (name : String) (node : Nat) :
    Writes node (· = 0) t (t.read scope name node) := by
  unfold ScopeTree.read
  split
  · exact (refl.use _).resolve _
  · exact .resolve (.use (.declareIn .refl (by rfl) name .global) _) _

theorem assign (t : ScopeTree) (scope : Nat) (name : String) (node : Nat) :
    Writes node (fun i => i = 0 ∨ t.procedureScope? scope = some i) t (t.assign scope name node) := by
  unfold ScopeTree.assign
  split
  · exact refl.resolve _
  · split
    · exact (refl.declareIn (.inl rfl) name .global).resolve _
    · refine (refl.declareIn ?_ name .definition).resolve _
      cases t.procedureScope? scope with
      | none => exact .inl rfl
      | some p => exact .inr rfl

/-- A declared variable is its name, and a link if it is imported. -/
theorem afterDeclareIn {u : ScopeTree} {kind : Entry.Kind} (h : Writes node among u (t.declareIn scope name kind node).2) :
    Writes node among u (t.declareVariable scope kind name node) := by
  unfold ScopeTree.declareVariable linkImport
  dsimp only
  split
  · split
    · exact h.resolve _
    · split
      · exact ((h.resolve _).use _).link _ _
      · exact h.resolve _
  · exact h.resolve _

theorem declareVariable (t : ScopeTree) (scope : Nat) (kind : Entry.Kind) (name : String) (node : Nat) :
    Writes node (· = scope) t (t.declareVariable scope kind name node) :=
  afterDeclareIn (.declareIn .refl (by rfl) name kind)

end Writes

theorem Carries.afterDeclareIn (scope : Nat) (kind : Entry.Kind) (name : String) (node : Nat) :
    Carries (t.declareIn scope name kind node).2 (t.declareVariable scope kind name node) :=
  (Writes.afterDeclareIn (.refl : Writes node (fun _ => False) _ _)).grows.toCarries

end

namespace Grows

variable {ns : List Nat} {t t' : ScopeTree} {scope : Nat}

/-! ## Looking from a scope -/

theorem step_eq (h : Grows ns t t') {i : Nat} (hi : i < t.scopes.length) :
    t'.scopes[i]?.bind nextVisible = t.scopes[i]?.bind nextVisible ∧
      t'.scopes[i]?.bind (·.parent) = t.scopes[i]?.bind (·.parent) := by
  obtain ⟨s', hs', hk, hp, -⟩ := h.scopes (List.getElem?_eq_getElem hi)
  rw [hs', List.getElem?_eq_getElem hi]
  simp only [Option.bind_some, nextVisible, hk, hp, and_self]

theorem visible_eq (h : Grows ns t t') (hs : scope < t.scopes.length) : t'.visible scope = t.visible scope :=
  way_congr scope fun i hi => (h.step_eq (by omega)).1

theorem outward_eq (h : Grows ns t t') (hs : scope < t.scopes.length) : t'.outward scope = t.outward scope :=
  way_congr scope fun i hi => (h.step_eq (by omega)).2

end Grows

end ScopeTree

end Magik
