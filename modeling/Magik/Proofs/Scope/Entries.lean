/-
  Magik.Proofs.Scope.Entries — what becomes of entries and names, and what a name refers to.

  An entry keeps its kind, its name, its node and its scope; a scope keeps the names it
  has, and they lead to entries of that name in that scope (`Carries`). So a name that is
  read, assigned or declared refers to an entry of that name, in a scope that is seen from
  where it stands (`refers_read`, `refers_assign`, `refers_declareVariable`).
-/

import Magik.Proofs.Scope.Frames

namespace Magik.ScopeTree

variable {t t' t'' : ScopeTree} {scope node x i : Nat} {name : String} {kind : Entry.Kind}

theorem Step.carries {job : Job} {left : List Job} (hs : Step job t left t') : Carries t t' := hs.grows.toCarries

/-- The node that declares a variable refers to its entry. -/
theorem entryOf?_declareVariable (t : ScopeTree) (scope : Nat) (kind : Entry.Kind) (name : String) (node : Nat) :
    (t.declareVariable scope kind name node).entryOf? node = some (t.declareIn scope name kind node).1 := by
  unfold declareVariable linkImport
  dsimp only
  repeat' split
  all_goals exact Table.find?_insert_self _ _ _

/-! ## What a name refers to -/

/-- The node refers to an entry of this name, in one of these scopes. -/
def Refers (t : ScopeTree) (node : Nat) (name : String) (among : List Nat) : Prop :=
  ∃ x e, t.entryOf? node = some x ∧ t.entryAt? x = some e ∧ e.name = name ∧ e.scope ∈ among

variable {among : List Nat}

theorem Refers.mono (h : Refers t node name among) (hc : Carries t t') (hr : t'.entryOf? node = t.entryOf? node) :
    Refers t' node name among := by
  obtain ⟨x, e, hx, he, hname, hscope⟩ := h
  obtain ⟨e', he', -, hname', -, hscope'⟩ := hc.entries he
  exact ⟨x, e', hr.trans hx, he', hname'.trans hname, hscope' ▸ hscope⟩

theorem refers_resolve {e : Entry} (he : t.entries[x]? = some e) (hname : e.name = name) (hscope : e.scope ∈ among) :
    Refers (t.resolve node x) node name among :=
  ⟨x, e, Table.find?_insert_self _ _ _, he, hname, hscope⟩

theorem refers_declare (hn : t.Named) (hscope : scope ∈ among) (kind : Entry.Kind) (node : Nat) :
    Refers (t.declare scope name kind node).2 node name among := by
  obtain ⟨e, he, hname, hes⟩ := entry_declareIn hn scope name kind node
  exact refers_resolve he hname (hes ▸ hscope)

theorem entry_lookup (hn : t.Named) (h : t.lookup scope name = some x) :
    ∃ e, t.entries[x]? = some e ∧ e.name = name ∧ e.scope ∈ t.visible scope := by
  obtain ⟨i, hi, hx⟩ := List.exists_of_findSome?_eq_some h
  obtain ⟨e, he, hname, rfl⟩ := hn hx
  exact ⟨e, he, hname, hi⟩

/-- A name that is read refers to what it means, or to a new global entry. -/
theorem refers_read (hn : t.Named) (hv : ∀ i ∈ t.visible scope, i ∈ among) (h0 : 0 ∈ among) (node : Nat) :
    Refers (t.read scope name node) node name among := by
  unfold read
  split
  · rename_i x hx
    obtain ⟨e, he, hname, hscope⟩ := entry_lookup hn hx
    obtain ⟨e', he', -, hname', -, hscope'⟩ := (Carries.use x node).entries he
    exact refers_resolve he' (hname'.trans hname) (hscope' ▸ hv _ hscope)
  · obtain ⟨e, he, hname, hscope⟩ := entry_declareIn hn 0 name .global node
    obtain ⟨e', he', -, hname', -, hscope'⟩ := (Carries.use (t.declareIn 0 name .global node).1 node).entries he
    exact refers_resolve he' (hname'.trans hname) (hscope' ▸ hscope ▸ h0)

/-- A name that is assigned refers to what it means, or to a new entry: a global one if the
    name is written with a package or no procedure is around, else one of the procedure. -/
theorem refers_assign (hn : t.Named) (hv : ∀ i ∈ t.visible scope, i ∈ among) (h0 : 0 ∈ among)
    (hp : ∀ i, t.procedureScope? scope = some i → i ∈ among) (node : Nat) :
    Refers (t.assign scope name node) node name among := by
  unfold assign
  split
  · rename_i x hx
    obtain ⟨e, he, hname, hscope⟩ := entry_lookup hn hx
    exact refers_resolve he hname (hv _ hscope)
  · split
    · exact refers_declare hn h0 .global node
    · refine refers_declare hn ?_ .definition node
      cases hps : t.procedureScope? scope with
      | none => exact h0
      | some i => exact hp i hps

theorem refers_declareVariable (hn : t.Named) (hscope : scope ∈ among) (kind : Entry.Kind) (node : Nat) :
    Refers (t.declareVariable scope kind name node) node name among := by
  obtain ⟨e, he, hname, hes⟩ := entry_declareIn hn scope name kind node
  obtain ⟨e', he', -, hname', -, hscope'⟩ := (Carries.afterDeclareIn scope kind name node).entries he
  exact ⟨_, e', entryOf?_declareVariable t scope kind name node, he', hname'.trans hname, hscope' ▸ hes ▸ hscope⟩

end Magik.ScopeTree
