/-
  Magik.Proofs.Scope.Imports — which entries are linked.

  A variable of an `_import` has an entry linked. That need not be one that the import
  declared: where the scope has the name already, its entry is taken, whatever it is. So a
  linked entry is one that an import refers to, and it is an import itself just if it was
  declared by one (`linked_entries`).
-/

import Magik.Proofs.Scope.Globals
import Magik.Token.Lexer

namespace Magik.ScopeTree

open Node (Way)

variable {root v : Node} {t t' : ScopeTree} {job : Job} {left todo : List Job} {x y : Nat} {e : Entry} {tree : SyntaxTree}

/-- A new entry is that of the node of the job, which is a variable of a declaration or makes no import. -/
theorem Step.new_entry (hs : Step job t left t') (he : t'.entries[x]? = some e) (hx : t.entries.length ≤ x) :
    e.node = job.node.number ∧ ((job.role = .declared e.kind ∨ job.role = .named e.kind) ∨
      e.kind ≠ .imported ∧ ∀ name, job.node.kind ≠ .declared name) := by
  have hlt := lt_of_entry he
  cases hs with
  | read hk =>
    obtain ⟨hkind, hn, -⟩ := new_read he hx
    exact ⟨hn, .inr (by simp [hkind, hk])⟩
  | target hk =>
    obtain ⟨hn, ⟨hkind, -⟩ | hkind⟩ := new_assign he hx
    · exact ⟨hn, .inr (by simp [hkind, hk])⟩
    · exact ⟨hn, .inr (by simp [hkind, hk])⟩
  | declared | named =>
    obtain ⟨hkind, hn, -⟩ := new_declareVariable he hx
    exact ⟨hn, .inl (by simp [hkind])⟩
  | bound hk =>
    obtain ⟨hkind, hn, -⟩ := new_declareVariable he hx
    exact ⟨hn, .inr (by simp [hkind, hk])⟩
  | _ => exact absurd hlt (Nat.not_lt.mpr hx)

/-- While jobs are done: linked entries are referred to by imports, and imports are what imports declared. -/
structure Attributed (root : Node) (todo : List Job) (t : ScopeTree) : Prop where
  linked : ∀ {y x : Nat}, t.linkOf? y = some x →
    ∃ v as, Way root v as ∧ IsImport v as ∧ v.number ∉ pending todo ∧ t.entryOf? v.number = some y
  imported : ∀ {x : Nat} {e : Entry}, t.entries[x]? = some e →
    (e.kind = .imported ↔ ∃ v as, Way root v as ∧ IsImport v as ∧ v.number = e.node)

namespace Attributed

theorem linked_step (h : Attributed root (job :: todo) t) (hu : Using root (job :: todo) t) (hs : Step job t left t')
    (hn : root.numbers.Nodup) (hl : t'.linkOf? y = some x) :
    ∃ v as, Way root v as ∧ IsImport v as ∧ v.number ∉ pending (left ++ todo) ∧ t'.entryOf? v.number = some y := by
  have hold : t.linkOf? y = some x →
      ∃ v as, Way root v as ∧ IsImport v as ∧ v.number ∉ pending (left ++ todo) ∧ t'.entryOf? v.number = some y := by
    intro hl
    obtain ⟨v, as, hw, hi, hout, hr⟩ := h.linked hl
    obtain ⟨⟨name, hv⟩, -⟩ := id hi
    rw [pending_cons, List.mem_append, not_or] at hout
    refine ⟨v, as, hw, hi, ?_, ?_⟩
    · rw [pending_append, List.mem_append, not_or]
      exact ⟨fun hm => hout.1 (hs.pending_subset hm), hout.2⟩
    · rw [hs.entryOf?_eq hu.fits hn hw (by simp [hv]) hout.1]
      exact hr
  cases hu.effect hs with
  | silent same => exact hold ((same y).2 ▸ hl)
  | read _ _ _ _ links => exact hold (links y ▸ hl)
  | @imported z y' hr refers used links _ _ =>
    rw [links] at hl
    split at hl
    · rename_i hy
      subst hy
      refine ⟨job.node, job.around, hu.fits.way, ((hu.plays job (.head _)).imported _ hr).mp rfl, fun hm => ?_, refers⟩
      -- a node that is used is not pending any more
      exact hu.fresh_step hs hm z (by rw [used, if_pos rfl]; simp)
    · exact hold hl

theorem imported_step (h : Attributed root (job :: todo) t) (hu : Using root (job :: todo) t) (hs : Step job t left t')
    (hn : root.numbers.Nodup) (he : t'.entries[x]? = some e) :
    e.kind = .imported ↔ ∃ v as, Way root v as ∧ IsImport v as ∧ v.number = e.node := by
  by_cases hx : x < t.entries.length
  · obtain ⟨e', he', hkind, -, hnode, -⟩ := hs.carries.entries (List.getElem?_eq_getElem hx)
    cases he.symm.trans he'
    rw [hkind, hnode]
    exact h.imported (List.getElem?_eq_getElem hx)
  · obtain ⟨hnode, hrole⟩ := hs.new_entry he (Nat.le_of_not_lt hx)
    have hown : (∃ v as, Way root v as ∧ IsImport v as ∧ v.number = e.node) ↔ IsImport job.node job.around := by
      constructor
      · rintro ⟨v, as, hw, hi, hv⟩
        obtain ⟨rfl, rfl⟩ := hw.unique hn hu.fits.way (hv.trans hnode)
        exact hi
      · exact fun hi => ⟨job.node, job.around, hu.fits.way, hi, hnode.symm⟩
    rw [hown]
    rcases hrole with hr | ⟨hkind, hundeclared⟩
    · exact (hu.plays job (.head _)).imported _ hr
    · exact ⟨fun h => absurd h hkind, fun ⟨⟨name, hname⟩, _⟩ => absurd hname (hundeclared name)⟩

theorem step (h : Attributed root (job :: todo) t) (hu : Using root (job :: todo) t) (hs : Step job t left t')
    (hn : root.numbers.Nodup) : Attributed root (left ++ todo) t' :=
  ⟨h.linked_step hu hs hn, h.imported_step hu hs hn⟩

end Attributed

theorem attributed_build (h : tree.FormedFile) : Attributed tree.root [] (build tree) := by
  have hboth := (run_build h).invariant (P := fun todo t => Using tree.root todo t ∧ Attributed tree.root todo t)
    (fun hs hi => ⟨hi.1.step hs h.nodup, hi.2.step hi.1 hs h.nodup⟩)
    ⟨.start h, fun hl => (by cases hl), fun he => (by cases he)⟩
  exact hboth.2

theorem isImportedVariable_iff (h : tree.FormedFile) :
    IsImportedVariable tree v ↔ ∃ as, Way tree.root v as ∧ IsImport v as := by
  constructor
  · rintro ⟨hn, hv, p, multiple, hhead, hp⟩
    obtain ⟨as, hw⟩ := SyntaxTree.mem_nodes_iff.mp hn
    rw [h.ancestors_of_way hw] at hhead
    obtain ⟨rest, rfl⟩ := List.head?_eq_some_iff.mp hhead
    exact ⟨_, hw, hv, p, rest, multiple, rfl, hp⟩
  · rintro ⟨as, hw, hi⟩
    exact isImportedVariable_of_isImport h hw hi

/-- Every linked entry is one that a variable of an `_import` refers to. It is an import itself just if it was such a
    variable that declared it: an import of a name that its scope has already gets the entry that is there. -/
theorem linked_entries (tokens : List Token) :
    let tree := (Grammar.parse tokens).1
    let t := build tree
    (∀ y f x, t.entryAt? y = some f → f.imported = some x →
      ∃ v, IsImportedVariable tree v ∧ t.entryOf? v.number = some y) ∧
    ∀ y f, t.entryAt? y = some f → (f.kind = .imported ↔ ∃ v, IsImportedVariable tree v ∧ v.number = f.node) := by
  intro tree t
  have hfile : tree.FormedFile := Grammar.parse_formedFile tokens
  have ha : Attributed tree.root [] t := attributed_build hfile
  refine ⟨fun y f x hf hx => ?_, fun y f hf => ?_⟩
  · obtain ⟨v, as, hw, hi, -, hr⟩ := ha.linked (linkOf?_eq_some_iff.mpr ⟨f, hf, hx⟩)
    exact ⟨v, isImportedVariable_of_isImport hfile hw hi, hr⟩
  · rw [ha.imported hf]
    simp only [isImportedVariable_iff hfile]
    exact ⟨fun ⟨v, as, hw, hi, hv⟩ => ⟨v, ⟨as, hw, hi⟩, hv⟩, fun ⟨v, ⟨as, hw, hi⟩, hv⟩ => ⟨v, as, hw, hi, hv⟩⟩

/-- A procedure declares a name and imports it then. -/
def declaredThenImported : List Token :=
  (Token.scan "_local x\n_proc()\n    _local x\n    _import x\n_endproc\n").toOption.getD []

/-- The local variable of the procedure is linked. -/
theorem linked_local :
    let tree := (Grammar.parse declaredThenImported).1
    let t := build tree
    t.entries.map (fun e => (e.kind, e.imported)) = [(.localVariable, none), (.localVariable, some 0)] ∧
      ∃ v, IsImportedVariable tree v ∧ t.entryOf? v.number = some 1 := by
  intro tree t
  have hentries : t.entries.map (fun e => (e.kind, e.imported)) = [(.localVariable, none), (.localVariable, some 0)] := by
    decide +kernel
  have hat : (t.entryAt? 1).map (fun e => (e.kind, e.imported)) = some (.localVariable, some 0) := by
    rw [entryAt?, ← List.getElem?_map, hentries]
    rfl
  obtain ⟨f, hf, hboth⟩ := Option.map_eq_some_iff.mp hat
  exact ⟨hentries, (linked_entries declaredThenImported).1 1 f 0 hf (Prod.ext_iff.mp hboth).2⟩

end Magik.ScopeTree
