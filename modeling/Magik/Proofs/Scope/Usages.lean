/-
  Magik.Proofs.Scope.Usages — the usage lists of entries.

  Each name that is read is in one usage list, that of the entry it refers to. Names that
  are assigned are in none. Besides, the variables of an `_import` are in the list of the
  entry that they were linked to (`Using.origin`). So an entry is unused when no name that
  is read refers to it and none was linked to it.
-/

import Magik.Proofs.Scope.Links
import Magik.Report.Listing
import Mathlib.Data.List.Nodup

namespace Magik

namespace Node

theorem Kind.isAssignment_of_isPlain {k : Kind} (hk : k.isPlain) : k.isAssignment = false := by
  cases k <;> cases hk <;> rfl

theorem isAssignment_of_declaredName? {n : Node} {name : String} (h : n.declaredName? = some name) :
    n.kind.isAssignment = false := by
  cases hk : n.kind <;> simp_all [declaredName?, Kind.isAssignment]

end Node

namespace ScopeTree

open Node (Way)

variable {root n c v : Node} {as bs ns : List Node} {t t' : ScopeTree} {job : Job} {left todo : List Job}
  {scope x y k : Nat} {name : String} {tree : SyntaxTree} {role : Role}

/-! ## Reads, targets and imports -/

/-- The node is assigned to. -/
def IsTarget (n : Node) (around : List Node) : Prop :=
  ∃ p rest, around = p :: rest ∧ p.kind.isAssignment ∧ n ∈ p.children.dropLast

/-- The node is a variable of an `_import`. -/
def IsImport (n : Node) (around : List Node) : Prop :=
  (∃ name, n.kind = .declared name) ∧ ∃ p rest multiple, around = p :: rest ∧ p.kind = .declaration .imported multiple

/-- Jobs look at targets as targets, and at no other name; and so with what is imported. -/
structure Plays (job : Job) : Prop where
  visit : job.role = .visit → ¬ IsTarget job.node job.around
  target : job.role = .target → IsTarget job.node job.around
  imported : ∀ kind, job.role = .declared kind ∨ job.role = .named kind → (kind = .imported ↔ IsImport job.node job.around)

/-- Below a node that is no assignment. -/
theorem plays_visit (hk : n.kind.isAssignment = false) : Plays ⟨.visit, c, n :: as, scope⟩ := by
  refine ⟨fun _ => ?_, by simp, by simp⟩
  intro ⟨p, rest, he, hp, _⟩
  cases he
  rw [hk] at hp
  cases hp

theorem plays_of_role (hv : role ≠ .visit) (ht : role ≠ .target)
    (hi : ∀ kind, role = .declared kind ∨ role = .named kind → (kind = .imported ↔ IsImport n as)) :
    Plays ⟨role, n, as, scope⟩ :=
  ⟨fun h => absurd h hv, fun h => absurd h ht, hi⟩

/-- A parameter or the variable of a loop. -/
theorem plays_undeclared {kind : Entry.Kind} (hk : kind ≠ .imported) (hn : ∀ name, n.kind ≠ .declared name) :
    Plays ⟨.declared kind, n, as, scope⟩ := by
  refine plays_of_role (by simp) (by simp) fun kind' hr => ?_
  obtain rfl : kind = kind' := by simpa using hr
  exact ⟨fun h => absurd h hk, fun ⟨⟨name, hname⟩, _⟩ => absurd hname (hn name)⟩

/-- A variable of a declaration. -/
theorem plays_modified {modifier : Modifier} {multiple : Bool} (hk : n.kind = .declaration modifier multiple)
    (hv : v.kind = .declared name) : Plays ⟨.declared (.ofModifier modifier), v, n :: as, scope⟩ := by
  refine plays_of_role (by simp) (by simp) fun kind hr => ?_
  obtain rfl : .ofModifier modifier = kind := by simpa using hr
  constructor
  · intro he
    cases modifier <;> cases he
    exact ⟨⟨name, hv⟩, n, as, multiple, rfl, hk⟩
  · rintro ⟨-, p, rest, _, he, hp⟩
    cases he
    rw [hk] at hp
    cases hp
    rfl

/-- The value of an assignment is none of its targets. -/
theorem value_not_mem {value : Node} (hn : n.numbers.Nodup) (hc : n.children = ns ++ [value]) : value ∉ ns := by
  intro hm
  have hnodup := (Node.map_number_sublist n.children).nodup (Node.nodup_children hn)
  rw [hc, List.map_append, List.nodup_append] at hnodup
  exact hnodup.2.2 _ (List.mem_map.mpr ⟨value, hm, rfl⟩) _ (by simp) rfl

theorem plays_jobs {j : Job} (h : ∀ m ∈ ns, Plays ⟨role, m, as, scope⟩) (hj : j ∈ jobs role as scope ns) : Plays j := by
  obtain ⟨m, hm, rfl⟩ := mem_jobs.mp hj
  exact h m hm

theorem Step.plays_left (hs : Step job t left t') (hf : Fits root t job) (hn : root.numbers.Nodup) (hp : Plays job) :
    ∀ j ∈ left, Plays j := by
  intro j hj
  have hw := hf.way
  cases hs with
  | plain hk => exact plays_jobs (fun m _ => plays_visit (Node.Kind.isAssignment_of_isPlain hk)) hj
  | read | target | bound | named => cases hj
  | body hk => exact plays_jobs (fun m _ => plays_visit (hk ▸ rfl)) hj
  | definition =>
    simp only [List.mem_cons, List.not_mem_nil, or_false] at hj
    rcases hj with rfl | rfl <;> exact plays_of_role (by simp) (by simp) (by simp)
  | parameters hps =>
    refine plays_jobs (fun m hm => plays_undeclared (by simp) fun name hd => ?_) hj
    obtain ⟨⟨_, _, hk⟩, -⟩ := hps m hm
    rw [hk] at hd
    cases hd
  | routine =>
    cases hf with
    | routine _ hk => exact plays_jobs (fun m _ => plays_visit (hk ▸ rfl)) hj
  | forLoop hk =>
    simp only [List.mem_cons, List.not_mem_nil, or_false] at hj
    rcases hj with rfl | rfl
    · exact plays_visit (hk ▸ rfl)
    · exact plays_of_role (by simp) (by simp) (by simp)
  | loop =>
    cases hf with
    | loop _ hk _ _ hv =>
      rcases List.mem_append.mp hj with hj | hj
      · refine plays_jobs (fun m hm => plays_undeclared (by simp) fun name hd => ?_) hj
        obtain ⟨-, ⟨_, hk⟩, -⟩ := hv m hm
        rw [hk] at hd
        cases hd
      · exact plays_jobs (fun m _ => plays_visit (hk ▸ rfl)) hj
  | attempt hk =>
    rcases List.mem_append.mp hj with hj | hj
    · exact plays_jobs (fun m _ => plays_visit (hk ▸ rfl)) hj
    · exact plays_jobs (fun m _ => plays_of_role (by simp) (by simp) (by simp)) hj
  | handler =>
    rw [List.mem_singleton] at hj
    subst hj
    exact plays_of_role (by simp) (by simp) (by simp)
  | handled =>
    cases hf with
    | handled _ hk =>
      rcases List.mem_append.mp hj with hj | hj
      · exact plays_jobs (fun m _ => plays_of_role (by simp) (by simp) (by simp)) hj
      · exact plays_jobs (fun m _ => plays_visit (hk ▸ rfl)) hj
  | separate hk hv =>
    refine plays_jobs (fun m hm => ?_) hj
    obtain ⟨name, hmk⟩ := hv m hm
    exact plays_modified hk hmk
  | shared hk _ hv =>
    rcases List.mem_cons.mp hj with rfl | hj
    · exact plays_visit (hk ▸ rfl)
    · refine plays_jobs (fun m hm => ?_) hj
      obtain ⟨name, hmk⟩ := hv m hm
      exact plays_modified hk hmk
  | declared hd =>
    exact plays_jobs (fun m _ => plays_visit (Node.isAssignment_of_declaredName? hd)) hj
  | valued hk =>
    simp only [List.mem_cons, List.not_mem_nil, or_false] at hj
    rcases hj with rfl | rfl
    · exact plays_visit (hk ▸ rfl)
    · exact plays_of_role (by simp) (by simp) fun kind hr => hp.imported kind (by simpa using hr)
  | assignment hk hc =>
    rcases List.mem_cons.mp hj with rfl | hj
    · refine ⟨fun _ => ?_, by simp, by simp⟩
      intro ⟨p, rest, he, _, hm⟩
      cases he
      rw [hc, List.dropLast_concat] at hm
      exact value_not_mem (hw.nodup hn) hc hm
    · refine plays_jobs (fun m hm => ⟨by simp, fun _ => ⟨_, _, rfl, hk, ?_⟩, by simp⟩) hj
      rw [hc, List.dropLast_concat]
      exact hm

/-! ## Where uses come from -/

/-- The number is that of a name that is read and refers to the entry. -/
def FromRead (root : Node) (t : ScopeTree) (x k : Nat) : Prop :=
  ∃ n as name, Way root n as ∧ n.number = k ∧ n.kind = .identifier name ∧ ¬ IsTarget n as ∧ t.entryOf? k = some x

/-- The number is that of an imported variable whose entry takes over this one. -/
def FromImport (root : Node) (t : ScopeTree) (x k : Nat) : Prop :=
  ∃ v as y, Way root v as ∧ v.number = k ∧ IsImport v as ∧ t.entryOf? k = some y ∧ t.linkOf? y = some x

/-- While jobs are done: what has been looked at is used as it should be. -/
structure Using (root : Node) (todo : List Job) (t : ScopeTree) : Prop where
  resolving : Resolving root todo t
  linking : Linking todo t
  plays : ∀ job ∈ todo, Plays job
  fresh : ∀ k ∈ pending todo, ∀ x, k ∉ t.usesOf x
  nodup : ∀ x, (t.usesOf x).Nodup
  reads : ∀ {n as name}, Way root n as → n.kind = .identifier name → ¬ IsTarget n as →
    n.number ∈ pending todo ∨ ∃ x, t.entryOf? n.number = some x ∧ n.number ∈ t.usesOf x
  origin : ∀ {x k}, k ∈ t.usesOf x → FromRead root t x k ∨ FromImport root t x k
  linked : ∀ {y x}, t.linkOf? y = some x → t.usesOf x ≠ []

/-- A list of uses stays as it is, or gets the node of the job. -/
theorem Effect.usesOf_cases (h : Effect job t t') (x : Nat) :
    t'.usesOf x = t.usesOf x ∨ t'.usesOf x = t.usesOf x ++ [job.node.number] ∧ job.role ≠ .bound := by
  have hused : ∀ {z}, UsedBy t t' z job.node.number →
      t'.usesOf x = t.usesOf x ∨ t'.usesOf x = t.usesOf x ++ [job.node.number] := by
    intro z hz
    by_cases hx : x = z
    · exact .inr (by rw [hz, if_pos hx, hx])
    · exact .inl (by rw [hz, if_neg hx])
  cases h with
  | silent same => exact .inl (same x).1
  | read hr _ _ used => exact (hused used).imp_right fun h => ⟨h, by rw [hr]; simp⟩
  | imported hr _ used =>
    refine (hused used).imp_right fun h => ⟨h, fun hb => ?_⟩
    simp [hb] at hr

theorem Effect.uses_mono (h : Effect job t t') (hk : k ∈ t.usesOf x) : k ∈ t'.usesOf x := by
  rcases h.usesOf_cases x with he | ⟨he, -⟩ <;> rw [he]
  · exact hk
  · exact List.mem_append_left _ hk

/-- Names are looked at as what is read, or as a target. -/
theorem Fits.role_of_identifier (h : Fits root t job) (hk : job.node.kind = .identifier name) :
    job.role = .visit ∨ job.role = .target := by
  cases h with
  | visit => exact .inl rfl
  | target => exact .inr rfl
  | declared _ hd =>
    rw [Node.declaredName?, hk] at hd
    cases hd
  | _ _ hk' =>
    rw [hk] at hk'
    cases hk'

namespace Using

section

variable (h : Using root (job :: todo) t)
include h

theorem fits : Fits root t job := h.resolving.sound.fits job (.head _)

theorem not_mem_of_fresh (hk : k ∈ t.usesOf x) : k ∉ job.numbers :=
  fun hin => h.fresh k (List.mem_append_left _ hin) x hk

variable (hs : Step job t left t')
include hs

theorem effect : Effect job t t' :=
  hs.effect h.resolving.named (h.linking.stable job (.head _))

/-- The node of a job that is still pending after it is used by nobody. -/
theorem fresh_step (hk : k ∈ pending (left ++ todo)) (x : Nat) :
    k ∉ t'.usesOf x := by
  have hnodup := List.nodup_append.mp h.resolving.sound.nodup
  rw [pending_append, List.mem_append] at hk
  have hold : k ∉ t.usesOf x := by
    rcases hk with hk | hk
    · exact h.fresh k (List.mem_append_left _ (hs.pending_subset hk)) x
    · exact h.fresh k (List.mem_append_right _ hk) x
  rcases (h.effect hs).usesOf_cases x with he | ⟨he, hb⟩
  · rwa [he]
  · rw [he, List.mem_append, List.mem_singleton, not_or]
    refine ⟨hold, fun hown => ?_⟩
    have hin : job.node.number ∈ job.numbers := Job.number_mem hb
    rcases hk with hk | hk
    · rcases hs.perm_pending with hp | ⟨-, rfl | hr⟩
      · exact (List.nodup_cons.mp (hp.nodup_iff.mp hnodup.1)).1 (hown ▸ hk)
      · -- a node that is only placed is not used
        have hlen := congrArg List.length he
        rw [List.length_append] at hlen
        exact absurd hlen (by simp [usesOf, place])
      · exact hb hr
    · exact hnodup.2.2 _ hin _ (hown ▸ hk) rfl

theorem nodup_step (x : Nat) : (t'.usesOf x).Nodup := by
  rcases (h.effect hs).usesOf_cases x with he | ⟨he, hb⟩ <;> rw [he]
  · exact h.nodup x
  · have hnew := h.fresh _ (List.mem_append_left _ (Job.number_mem hb)) x
    refine List.nodup_append.mpr ⟨h.nodup x, by simp, fun a ha b hb' he => hnew ?_⟩
    rw [List.mem_singleton] at hb'
    rw [← hb', ← he]
    exact ha

theorem reads_step (hn : root.numbers.Nodup) (hw : Way root n as)
    (hk : n.kind = .identifier name) (ht : ¬ IsTarget n as) :
    n.number ∈ pending (left ++ todo) ∨ ∃ x, t'.entryOf? n.number = some x ∧ n.number ∈ t'.usesOf x := by
  rcases hs.node_cases h.fits hn hw todo with hl | ⟨rfl, rfl, -, -⟩ | ⟨hown, hl⟩
  · exact .inl hl
  · refine .inr ?_
    have hvisit : job.role = .visit := by
      refine (h.fits.role_of_identifier hk).resolve_right fun hr => ht ?_
      exact (h.plays job (.head _)).target hr
    cases h.effect hs with
    | silent _ hr => exact absurd hvisit (hr _ hk)
    | read _ _ refers used => exact ⟨_, refers, by rw [used, if_pos rfl]; simp⟩
    | imported hr => simp [hvisit] at hr
  · obtain ⟨x, hx, hu⟩ := (h.reads hw hk ht).resolve_left hl
    refine .inr ⟨x, ?_, (h.effect hs).uses_mono hu⟩
    rw [hs.entryOf?_eq h.fits hn hw (by simp [hk]) hown, hx]

theorem origin_step (hn : root.numbers.Nodup)
    (hk : k ∈ t'.usesOf x) : FromRead root t' x k ∨ FromImport root t' x k := by
  have hold : k ∈ t.usesOf x → FromRead root t' x k ∨ FromImport root t' x k := by
    intro hk
    have hout := h.not_mem_of_fresh hk
    rcases h.origin hk with ⟨n, as, name, hw, rfl, hkind, ht, hx⟩ | ⟨v, as, y, hw, rfl, ⟨⟨name, hv⟩, hi⟩, hy, hl⟩
    · refine .inl ⟨n, as, name, hw, rfl, hkind, ht, ?_⟩
      rw [hs.entryOf?_eq h.fits hn hw (by simp [hkind]) hout, hx]
    · refine .inr ⟨v, as, y, hw, rfl, ⟨⟨name, hv⟩, hi⟩, ?_, (h.effect hs).link_mono hl⟩
      rw [hs.entryOf?_eq h.fits hn hw (by simp [hv]) hout, hy]
  have hplays := h.plays job (.head _)
  cases h.effect hs with
  | silent same => exact hold ((same x).1 ▸ hk)
  | @read z name hr hkind refers used _ =>
    rw [used] at hk
    split at hk
    · rename_i hz
      subst hz
      rcases List.mem_append.mp hk with hk | hk
      · exact hold hk
      · obtain rfl := List.mem_singleton.mp hk
        exact .inl ⟨job.node, job.around, name, h.fits.way, rfl, hkind, hplays.visit hr, refers⟩
    · exact hold hk
  | @imported z y hr refers used links _ _ =>
    rw [used] at hk
    split at hk
    · rename_i hz
      subst hz
      rcases List.mem_append.mp hk with hk | hk
      · exact hold hk
      · obtain rfl := List.mem_singleton.mp hk
        exact .inr ⟨job.node, job.around, y, h.fits.way, rfl, (hplays.imported _ hr).mp rfl, refers, by rw [links, if_pos rfl]⟩
    · exact hold hk

theorem linked_step (hl : t'.linkOf? y = some x) :
    t'.usesOf x ≠ [] := by
  have hold : t.linkOf? y = some x → t'.usesOf x ≠ [] := by
    intro hl
    obtain ⟨k, hk⟩ := List.exists_mem_of_ne_nil _ (h.linked hl)
    exact List.ne_nil_of_mem ((h.effect hs).uses_mono hk)
  cases h.effect hs with
  | silent same => exact hold ((same y).2 ▸ hl)
  | read _ _ _ _ links => exact hold (links y ▸ hl)
  | imported _ _ used links =>
    rw [links] at hl
    split at hl
    · cases hl
      rw [used, if_pos rfl]
      simp
    · exact hold hl

theorem step (hn : root.numbers.Nodup) :
    Using root (left ++ todo) t' where
  resolving := h.resolving.step hs hn
  linking := h.linking.step hs h.resolving.named
  plays := by
    intro j hj
    rcases List.mem_append.mp hj with hj | hj
    · exact hs.plays_left h.fits hn (h.plays job (.head _)) j hj
    · exact h.plays j (.tail _ hj)
  fresh := fun _ hk => h.fresh_step hs hk
  nodup := h.nodup_step hs
  reads := h.reads_step hs hn
  origin := h.origin_step hs hn
  linked := h.linked_step hs

end

theorem start (h : tree.FormedFile) :
    Using tree.root (jobs .visit [tree.root] 0 tree.root.children)
      ((ScopeTree.start tree.root.number).place tree.root.number 0) where
  resolving := .start h
  linking := .start tree.root
  plays := fun _ hj => plays_jobs (fun _ _ => plays_visit (by rw [h.file]; rfl)) hj
  fresh := fun _ _ _ hx => by cases hx
  nodup := fun _ => .nil
  reads := by
    intro n as name hw hk _
    rcases root_or_pending h.nodup hw with ⟨rfl, rfl⟩ | hm
    · rw [h.file] at hk
      cases hk
    · exact .inl hm
  origin := fun hx => by cases hx
  linked := fun hl => by cases hl

end Using

theorem using_build (h : tree.FormedFile) : Using tree.root [] (build tree) :=
  (run_build h).invariant (fun hs hi => hi.step hs h.nodup) (.start h)

/-! ## All lists together -/

/-- All that is used, list after list. -/
def allUses (t : ScopeTree) : List Nat := t.entries.flatMap (·.usages)

theorem usesOf_of_entryAt? {e : Entry} (h : t.entryAt? x = some e) : t.usesOf x = e.usages := by
  rw [entryAt?] at h
  simp [usesOf, h]

theorem mem_usesOf_iff : k ∈ t.usesOf x ↔ ∃ e, t.entryAt? x = some e ∧ k ∈ e.usages := by
  rw [usesOf, entryAt?]
  cases t.entries[x]? <;> simp

theorem linkOf?_eq_some_iff : t.linkOf? y = some x ↔ ∃ f, t.entryAt? y = some f ∧ f.imported = some x := by
  rw [linkOf?, entryAt?, Option.bind_eq_some_iff]

theorem mem_allUses_iff : k ∈ t.allUses ↔ ∃ x, k ∈ t.usesOf x := by
  rw [allUses, List.mem_flatMap]
  simp only [mem_usesOf_iff, entryAt?, List.mem_iff_getElem? (l := t.entries)]
  exact ⟨fun ⟨e, ⟨x, he⟩, hk⟩ => ⟨x, e, he, hk⟩, fun ⟨x, e, he, hk⟩ => ⟨e, ⟨x, he⟩, hk⟩⟩

namespace Using

variable {todo : List Job}

/-- No number is in the lists of two entries. -/
theorem eq_of_mem (h : Using root todo t) (hn : root.numbers.Nodup) (hx : k ∈ t.usesOf x) (hy : k ∈ t.usesOf y) :
    x = y := by
  rcases h.origin hx with ⟨n, as, name, hw, rfl, hk, -, he⟩ | ⟨v, as, z, hw, rfl, ⟨⟨name, hk⟩, -⟩, he, hl⟩
  · rcases h.origin hy with ⟨_, _, _, _, _, _, _, he'⟩ | ⟨v, bs, _, hw', hv, ⟨⟨_, hk'⟩, -⟩, -, -⟩
    · exact Option.some.inj (he.symm.trans he')
    · obtain ⟨rfl, -⟩ := hw'.unique hn hw hv
      rw [hk] at hk'
      cases hk'
  · rcases h.origin hy with ⟨n, bs, _, hw', hm, hk', -, -⟩ | ⟨_, _, z', _, _, _, he', hl'⟩
    · obtain ⟨rfl, -⟩ := hw'.unique hn hw hm
      rw [hk] at hk'
      cases hk'
    · cases he.symm.trans he'
      exact Option.some.inj (hl.symm.trans hl')

theorem nodup_allUses (h : Using root todo t) (hn : root.numbers.Nodup) : t.allUses.Nodup := by
  have huses : ∀ {x e}, t.entries[x]? = some e → t.usesOf x = e.usages := fun he => usesOf_of_entryAt? he
  refine List.nodup_flatMap.mpr ⟨fun e he => ?_, List.pairwise_iff_getElem.mpr fun i j hi hj hlt k hki hkj => ?_⟩
  · obtain ⟨x, he⟩ := List.mem_iff_getElem?.mp he
    exact huses he ▸ h.nodup x
  · have hi : k ∈ t.usesOf i := huses (List.getElem?_eq_getElem hi) ▸ hki
    have hj : k ∈ t.usesOf j := huses (List.getElem?_eq_getElem hj) ▸ hkj
    exact absurd (h.eq_of_mem hn hi hj) (Nat.ne_of_lt hlt)

/-- A list is empty when no name that is read refers to the entry and no import takes it over. -/
theorem usesOf_eq_nil_iff (h : Using root [] t) :
    t.usesOf x = [] ↔
      (∀ n as name, Way root n as → n.kind = .identifier name → ¬ IsTarget n as → t.entryOf? n.number ≠ some x) ∧
        ∀ y, t.linkOf? y ≠ some x := by
  refine ⟨fun hnil => ⟨fun n as name hw hk ht hx => ?_, fun y hl => h.linked hl hnil⟩, fun ⟨hread, hlink⟩ => ?_⟩
  · obtain ⟨x', hx', hm⟩ := (h.reads hw hk ht).resolve_left (by simp)
    cases hx.symm.trans hx'
    rw [hnil] at hm
    cases hm
  · refine List.eq_nil_iff_forall_not_mem.mpr fun k hk => ?_
    rcases h.origin hk with ⟨n, as, name, hw, rfl, hkind, ht, hx⟩ | ⟨_, _, y, _, _, _, _, hl⟩
    · exact hread n as name hw hkind ht hx
    · exact hlink y hl

end Using

theorem mem_unusedIds_iff :
    x ∈ t.unusedIds ↔ ∃ e, t.entryAt? x = some e ∧ e.kind.needsUse ∧ t.usesOf x = [] := by
  simp only [unusedIds, List.mem_map, List.mem_filter, Prod.exists, List.mem_zipIdx_iff_getElem?, isUnused,
    Bool.and_eq_true, List.isEmpty_iff, entryAt?]
  constructor
  · rintro ⟨e, _, ⟨he, hneeds, hnil⟩, rfl⟩
    exact ⟨e, he, hneeds, usesOf_of_entryAt? he ▸ hnil⟩
  · rintro ⟨e, he, hneeds, hnil⟩
    exact ⟨e, x, ⟨he, hneeds, usesOf_of_entryAt? he ▸ hnil⟩, rfl⟩

theorem unused_eq_filterMap (t : ScopeTree) : t.unused = t.unusedIds.filterMap t.entryAt? := by
  have hat : ∀ p ∈ t.entries.zipIdx.filter (fun p => isUnused p.1), t.entryAt? p.2 = some p.1 := by
    intro p hp
    exact List.mem_zipIdx_iff_getElem?.mp (List.mem_of_mem_filter hp)
  calc t.entries.filter isUnused
    _ = (t.entries.zipIdx.map Prod.fst).filter isUnused := by rw [List.zipIdx_map_fst]
    _ = (t.entries.zipIdx.filter fun p => isUnused p.1).map Prod.fst := by rw [List.filter_map]; rfl
    _ = (t.entries.zipIdx.filter fun p => isUnused p.1).filterMap fun p => t.entryAt? p.2 := by
      rw [List.filterMap_congr hat, ← List.filterMap_eq_map]
      rfl
    _ = t.unusedIds.filterMap t.entryAt? := by rw [unusedIds, List.filterMap_map]; rfl

/-! ## Files -/

/-- The node is a name of the file that is read. -/
def IsRead (tree : SyntaxTree) (n : Node) : Prop :=
  n ∈ tree.nodes ∧ (∃ name, n.kind = .identifier name) ∧ n.number ∉ Report.targets tree

/-- The node is a variable of an `_import` of the file. -/
def IsImportedVariable (tree : SyntaxTree) (n : Node) : Prop :=
  n ∈ tree.nodes ∧ (∃ name, n.kind = .declared name) ∧
    ∃ p multiple, (tree.ancestors n.number).head? = some p ∧ p.kind = .declaration .imported multiple

/-- What a node assigns to, whether one or many, is all but its last child. -/
theorem mem_assigned_iff (h : n.Formed) : c ∈ Report.assigned n ↔ n.kind.isAssignment ∧ c ∈ n.children.dropLast := by
  rw [Report.assigned]
  cases hk : n.kind with
  | assignment | augmentedAssignment =>
    obtain ⟨target, value, hc⟩ := h.layout.of_isSingleAssignment (hk ▸ rfl)
    simp [hc, Node.Kind.isAssignment]
  | multipleAssignment => simp [Node.Kind.isAssignment]
  | _ => simp [Node.Kind.isAssignment]

theorem mem_targets_iff (h : tree.FormedFile) (hw : Way tree.root n as) :
    n.number ∈ Report.targets tree ↔ IsTarget n as := by
  simp only [Report.targets, List.mem_flatMap, List.mem_map]
  constructor
  · rintro ⟨p, hp, c, hc, he⟩
    obtain ⟨bs, hwp⟩ := SyntaxTree.mem_nodes_iff.mp hp
    obtain ⟨hk, hc⟩ := (mem_assigned_iff (hwp.formed h.formed)).mp hc
    obtain ⟨rfl, rfl⟩ := (Way.child hwp (List.dropLast_subset _ hc)).unique h.nodup hw he
    exact ⟨p, bs, rfl, hk, hc⟩
  · rintro ⟨p, bs, rfl, hk, hc⟩
    cases hw with
    | child hwp _ =>
      exact ⟨p, SyntaxTree.mem_nodes_iff.mpr ⟨bs, hwp⟩, n, (mem_assigned_iff (hwp.formed h.formed)).mpr ⟨hk, hc⟩, rfl⟩

theorem isRead_iff (h : tree.FormedFile) :
    IsRead tree n ↔ ∃ as name, Way tree.root n as ∧ n.kind = .identifier name ∧ ¬ IsTarget n as := by
  constructor
  · rintro ⟨hn, ⟨name, hk⟩, ht⟩
    obtain ⟨as, hw⟩ := SyntaxTree.mem_nodes_iff.mp hn
    exact ⟨as, name, hw, hk, fun h' => ht ((mem_targets_iff h hw).mpr h')⟩
  · rintro ⟨as, name, hw, hk, ht⟩
    exact ⟨SyntaxTree.mem_nodes_iff.mpr ⟨as, hw⟩, ⟨name, hk⟩, fun h' => ht ((mem_targets_iff h hw).mp h')⟩

theorem isImportedVariable_of_isImport (h : tree.FormedFile) (hw : Way tree.root v as) (hi : IsImport v as) :
    IsImportedVariable tree v := by
  obtain ⟨hv, p, rest, multiple, rfl, hp⟩ := hi
  refine ⟨SyntaxTree.mem_nodes_iff.mpr ⟨_, hw⟩, hv, p, multiple, ?_, hp⟩
  rw [h.ancestors_of_way hw]
  rfl

theorem needsUse_iff (kind : Entry.Kind) :
    kind.needsUse ↔ kind = .localVariable ∨ kind = .definition ∨ kind = .constant := by
  cases kind <;> simp [Entry.Kind.needsUse]

/-- For every file: each name that is read is used once, by the entry that it refers to,
    and a name that is assigned is not used. Nothing else is used but variables of an
    `_import`, once at most and by the entry that they were linked to. So the entries that
    the warnings are about are those of locals, definitions and constants that no name
    refers to and no import was linked to. -/
theorem build_usages_exact (tokens : List Token) :
    let tree := (Grammar.parse tokens).1
    let t := build tree
    (∀ n, IsRead tree n → t.allUses.count n.number = 1 ∧
      ∃ x e, t.entryOf? n.number = some x ∧ t.entryAt? x = some e ∧ n.number ∈ e.usages) ∧
    (∀ k ∈ Report.targets tree, t.allUses.count k = 0) ∧
    (∀ k ∈ t.allUses, t.allUses.count k = 1) ∧
    (∀ x e, t.entryAt? x = some e → ∀ k ∈ e.usages, ∃ n, n.number = k ∧
      (IsRead tree n ∧ t.entryOf? k = some x ∨
        IsImportedVariable tree n ∧ ∃ y f, t.entryOf? k = some y ∧ t.entryAt? y = some f ∧ f.imported = some x)) ∧
    (∀ x, x ∈ t.unusedIds ↔ ∃ e, t.entryAt? x = some e ∧
      (e.kind = .localVariable ∨ e.kind = .definition ∨ e.kind = .constant) ∧
      (∀ n, IsRead tree n → t.entryOf? n.number ≠ some x) ∧ ∀ y f, t.entryAt? y = some f → f.imported ≠ some x) ∧
    ∀ id definitions options,
      (Analysis.ofTokens id definitions options tokens).diagnostics = (Grammar.parse tokens).2 ++
        if options.reportUnused then
          (t.unusedIds.filterMap t.entryAt?).map fun e =>
            .warning (Analysis.unusedMessage e.name) ((tree.find? e.node).map Node.span)
        else [] := by
  intro tree t
  have hfile : tree.FormedFile := Grammar.parse_formedFile tokens
  have hu : Using tree.root [] t := using_build hfile
  have hnodup : t.allUses.Nodup := hu.nodup_allUses hfile.nodup
  refine ⟨fun n hn => ?_, fun k hk => ?_, fun k hk => List.count_eq_one_of_mem hnodup hk, fun x e he k hk => ?_,
    fun x => ?_, fun id definitions options => ?_⟩
  · obtain ⟨as, name, hw, hk, ht⟩ := (isRead_iff hfile).mp hn
    obtain ⟨x, hx, hm⟩ := (hu.reads hw hk ht).resolve_left (by simp)
    obtain ⟨e, he, hme⟩ := mem_usesOf_iff.mp hm
    exact ⟨List.count_eq_one_of_mem hnodup (mem_allUses_iff.mpr ⟨x, hm⟩), x, e, hx, he, hme⟩
  · -- A target that is used would be a name that is read, or a variable of a declaration.
    refine List.count_eq_zero.mpr fun hm => ?_
    obtain ⟨x, hm⟩ := mem_allUses_iff.mp hm
    rcases hu.origin hm with ⟨n, as, name, hw, rfl, -, ht, -⟩ | ⟨v, as, y, hw, rfl, ⟨⟨name, hv⟩, p, rest, multiple, rfl, hp⟩, -⟩
    · exact ht ((mem_targets_iff hfile hw).mp hk)
    · obtain ⟨_, _, he, hp', -⟩ := (mem_targets_iff hfile hw).mp hk
      cases he
      rw [hp] at hp'
      cases hp'
  · rcases hu.origin (mem_usesOf_iff.mpr ⟨e, he, hk⟩) with
      ⟨n, as, name, hw, hnk, hkind, ht, hx⟩ | ⟨v, as, y, hw, hvk, hi, hy, hl⟩
    · exact ⟨n, hnk, Or.inl ⟨(isRead_iff hfile).mpr ⟨as, name, hw, hkind, ht⟩, hx⟩⟩
    · obtain ⟨f, hf, himported⟩ := linkOf?_eq_some_iff.mp hl
      exact ⟨v, hvk, Or.inr ⟨isImportedVariable_of_isImport hfile hw hi, y, f, hy, hf, himported⟩⟩
  · simp only [mem_unusedIds_iff, hu.usesOf_eq_nil_iff, needsUse_iff, isRead_iff hfile, ne_eq, linkOf?_eq_some_iff]
    grind
  · have hd : (Analysis.ofTokens id definitions options tokens).diagnostics =
        (Grammar.parse tokens).2 ++ if options.reportUnused then Analysis.unusedWarnings tree t else [] := rfl
    rw [hd, Analysis.unusedWarnings, unused_eq_filterMap]

end ScopeTree

end Magik
