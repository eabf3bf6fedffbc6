/-
  Magik.Proofs.Scope.Edits — what a step does to scopes and entries, one edit at a time.

  A step opens a scope inside the one it is in, declares a name, notes a use, or links
  an import to what was found for it; all else it writes says where nodes are (`Edit`). A name
  goes to the scope of the job, or, if it cannot be imported, to the procedure or the global
  scope around it. Every step is a row of such edits (`Step.edits`), so what each of them
  keeps, a step keeps.
-/

import Magik.Proofs.Scope.Usages
import Mathlib.Logic.Relation

namespace Magik

theorem Node.mem_names_of_declaredName? {n : Node} {name : String} (h : n.declaredName? = some name) : name ∈ n.kind.names := by
  unfold declaredName? at h
  split at h
  all_goals
    rename_i hk
    cases h
  all_goals simp [hk, Kind.names]

namespace ScopeTree

variable {t t' : ScopeTree} {job : Job} {left : List Job} {scope : Nat} {name : String} {kind : Entry.Kind}

/-- One change of the scopes and entries, made for a job. -/
inductive Edit (job : Job) (t : ScopeTree) : ScopeTree → Prop
  | seats {t' : ScopeTree} (hs : t'.scopes = t.scopes) (he : t'.entries = t.entries)
      (hr : ∀ k ≠ job.node.number, t'.entryOf? k = t.entryOf? k) : Edit job t t'
  | opened (kind : Scope.Kind) (hk : kind ≠ .global) : Edit job t (t.openScope kind job.node.number job.scope)
  | declared {scope : Nat} {name : String} (kind : Entry.Kind) (hnew : t.entryIn? name scope = none)
      (hname : name ∈ job.node.kind.names)
      (hin : scope = job.scope ∨
        kind.isImportable = false ∧ (scope = 0 ∨ t.procedureScope? job.scope = some scope)) :
      Edit job t (t.declareIn scope name kind job.node.number).2
  | used (x : Nat) : Edit job t (t.use x job.node.number)
  | linked {y x : Nat} {f e : Entry} (hf : t.entryAt? y = some f) (hscope : f.scope = job.scope)
      (hx : t.importTarget? job.scope f.name = some x) (he : t.entryAt? x = some e) (hk : e.kind.isImportable) :
      Edit job t (t.link y x)

namespace Edit

theorem grows (h : Edit job t t') : Grows [job.node.number] t t' := by
  cases h with
  | seats hs he hr => exact .of_eq hs he fun j hj => hr j (by simpa using hj)
  | opened => exact .openScope _ _ _
  | declared => exact .declareIn _ _ _ _
  | used => exact .use _ _
  | linked => exact .link _ _

theorem carries (h : Edit job t t') : Carries t t' := h.grows.toCarries

end Edit

def Edits (job : Job) : ScopeTree → ScopeTree → Prop := Relation.ReflTransGen (Edit job)

namespace Edits

theorem place (node scope : Nat) : Edits job t (t.place node scope) := .single (.seats rfl rfl fun _ _ => rfl)

theorem resolve (entry : Nat) : Edits job t (t.resolve job.node.number entry) := by
  refine .single (.seats rfl rfl fun k hk => ?_)
  rw [entryOf?, ScopeTree.resolve, Table.find?_insert, if_neg (Ne.symm hk), entryOf?]

theorem declareIn (kind : Entry.Kind) (hname : name ∈ job.node.kind.names)
    (hin : scope = job.scope ∨ kind.isImportable = false ∧ (scope = 0 ∨ t.procedureScope? job.scope = some scope)) :
    Edits job t (t.declareIn scope name kind job.node.number).2 := by
  cases h : t.entryIn? name scope with
  | some x =>
    rw [declareIn_of_some h]
    exact .refl
  | none => exact .single (.declared kind h hname hin)

theorem declare (kind : Entry.Kind) (hname : name ∈ job.node.kind.names)
    (hin : scope = job.scope ∨ kind.isImportable = false ∧ (scope = 0 ∨ t.procedureScope? job.scope = some scope)) :
    Edits job t (t.declare scope name kind job.node.number).2 :=
  (declareIn kind hname hin).trans (resolve _)

theorem read (hname : name ∈ job.node.kind.names) : Edits job t (t.read job.scope name job.node.number) := by
  unfold ScopeTree.read
  split
  · exact (Relation.ReflTransGen.single (.used _)).trans (resolve _)
  · exact (declareIn .global hname (.inr ⟨rfl, .inl rfl⟩)).trans ((Relation.ReflTransGen.single (.used _)).trans (resolve _))

theorem assign (hname : name ∈ job.node.kind.names) : Edits job t (t.assign job.scope name job.node.number) := by
  unfold ScopeTree.assign
  split
  · exact resolve _
  · split
    · exact declare .global hname (.inr ⟨rfl, .inl rfl⟩)
    · refine declare .definition hname (.inr ⟨rfl, ?_⟩)
      cases t.procedureScope? job.scope with
      | none => exact .inl rfl
      | some p => exact .inr rfl

theorem declareVariable (hn : t.Named) (hname : name ∈ job.node.kind.names) (kind : Entry.Kind) :
    Edits job t (t.declareVariable job.scope kind name job.node.number) := by
  have hd : Edits job t (t.declare job.scope name kind job.node.number).2 := declare kind hname (.inl rfl)
  unfold ScopeTree.declareVariable linkImport
  dsimp only
  split
  · split
    · exact hd
    · rename_i x hx
      split
      · rename_i hany
        obtain ⟨e, he, hk⟩ := (Option.any_eq_true _ _).mp hany
        obtain ⟨e', he', hkind, -⟩ := (Carries.use x job.node.number).entries he
        obtain ⟨f, hf, rfl, hscope⟩ := entry_declareIn hn job.scope name kind job.node.number
        obtain ⟨f', hf', -, hname', -, hscope'⟩ := (Carries.use x job.node.number).entries hf
        refine hd.trans (.tail (.single (.used x)) (.linked hf' (hscope'.trans hscope) ?_ he' (by rw [hkind]; exact hk)))
        rw [hname']
        exact hx
      · exact hd
  · exact hd

end Edits

theorem Step.edits (hs : Step job t left t') (hn : t.Named) : Edits job t t' := by
  have hplaced : ∀ {node scope : Nat}, (t.place node scope).Named := fun {_ _} => (Carries.place _ _).named hn
  cases hs with
  | read hk => exact (Edits.place _ _).trans (Edits.read (by simp [hk, Node.Kind.names]))
  | target hk => exact (Edits.place _ _).trans (Edits.assign (by simp [hk, Node.Kind.names]))
  | @declared n as scope t kind name hd hk hc =>
    exact (Edits.place _ _).trans (Edits.declareVariable hplaced (Node.mem_names_of_declaredName? hd) _)
  | named hk | bound hk => exact Edits.declareVariable hn (by simp [hk, Node.Kind.names]) _
  | body | loop | handled =>
    exact (Relation.ReflTransGen.single (.opened .body (by simp))).trans (Edits.place _ _)
  | definition => exact (Edits.place _ _).trans (.single (.opened .procedure (by simp)))
  | routine => exact .single (.seats rfl rfl fun _ _ => rfl)
  | plain | parameters | forLoop | attempt | handler | separate | shared | valued | assignment => exact Edits.place _ _

end ScopeTree

end Magik
