/-
  Magik.Proofs.Reasoning.Rejoining — a belief that is split by tests is whole again behind them.

  Conditions that test one variable against types split what is believed of it: a branch has
  the types of its own test, without some of those that were tested before, and the way
  around has those that no test took away (`Left`). Bodies that do not name the variable
  leave it alone (`Unmentioned.aloof`). So every type of the belief is believed at the end of
  some path, no other is, and joining the ends restores the belief with its order.
-/

import Magik.Proofs.Narrowing.Naming
import Magik.Proofs.Reasoning.Exits
import Magik.Proofs.Scope.Lexical

namespace Magik

open Node (Way)

/-! ## What is left of types -/

namespace TypeSet

variable {a b s : TypeSet} {t : TypeName} {removed : TypeName → Prop}

/-- What is left of a set when some types of a kind are taken away. -/
structure Left (removed : TypeName → Prop) (a s : TypeSet) : Prop where
  wellFormed : s.WellFormed
  sub : ∀ t ∈ s.members, t ∈ a.members
  rest : ∀ t ∈ a.members, ¬ removed t → t ∈ s.members

theorem Left.known (h : Left removed a s) (ha : a.isUndefined = false) : s.isUndefined = false := by
  rw [← Bool.not_eq_true, isUndefined_iff] at ha ⊢
  exact fun hm => ha (h.sub _ hm)

theorem left_self (ha : a.WellFormed) : Left removed a a := ⟨ha, fun _ h => h, fun _ h _ => h⟩

theorem left_difference (ha : a.WellFormed) (hb : ∀ t ∈ b.members, removed t) :
    Left removed a ((a.difference b).getD a) := by
  cases h : a.difference b with
  | none => exact left_self ha
  | some s =>
    have hs := selects_of_difference h
    refine ⟨closed_wellFormed.selected ha hs, fun t ht => hs.sublist.subset ht, fun t ht hr => ?_⟩
    unfold difference at h
    split at h
    · cases h
    · dsimp only at h
      split at h
      · cases h
      · cases h
        have hnot : t ∉ b.members := fun hm => hr (hb t hm)
        simp [contains, ht, hnot]

theorem mem_of_mem_union (h : t ∈ (a.union b).members) : t = .undefined ∨ t ∈ a.members ∨ t ∈ b.members := by
  cases hu : (a.union b).isUndefined with
  | false => exact .inr ((mem_union hu).mp h)
  | true =>
    rw [(wellFormed_union a b).eq_undefined hu] at h
    exact .inl (List.mem_singleton.mp h)

/-- Members are put back into the order in which they were. -/
theorem inOrderOf_eq (ha : a.WellFormed) (hu : a.isUndefined = false) (h : ∀ t, t ∈ s.members ↔ t ∈ a.members) :
    World.inOrderOf (some a) s = a := by
  have hs : s.isUndefined = false := by
    rw [← Bool.not_eq_true, isUndefined_iff, h, ← isUndefined_iff, hu]
    exact Bool.false_ne_true
  have hold : a.members.filter s.contains = a.members := List.filter_eq_self.mpr fun t ht => by simp [contains, h, ht]
  have hnew : (s.members.filter fun t => !a.contains t) = [] := by simp [List.filter_eq_nil_iff, contains, h]
  simp only [World.inOrderOf, hs, Bool.false_eq_true, if_false, hold, hnew, List.append_nil]
  exact ha.ofList_members

end TypeSet

/-! ## Tests of one variable -/

namespace Restriction

variable {removed : TypeName → Prop} {rs : List Restriction} {current : Nat → TypeSet} {x : Nat} {types : TypeSet}

/-- The types that an entry is tested against. -/
def tested : Restriction → TypeSet
  | .value _ types _ _ => types
  | _ => .undefined

/-- The variable is tested against types of a kind, in vain. -/
def Denies (removed : TypeName → Prop) (x : Nat) (r : Restriction) : Prop :=
  ∃ types test, r = .value x types test false ∧ ∀ t ∈ types.members, removed t

/-- Tests in vain take some of the types away that were tested. -/
theorem find?_combine_denied (hu : removed .undefined) (h : ∀ r ∈ rs, r.Denies removed x) {n : Narrowing}
    (hn : (combine rs current).find? x = some n) : ∃ types, n = .remove types ∧ ∀ t ∈ types.members, removed t := by
  refine List.foldlRecOn (motive := fun table => ∀ n, table.find? x = some n →
    ∃ types, n = .remove types ∧ ∀ t ∈ types.members, removed t) _ fold (fun n hn => by cases hn) ?_ n hn
  intro table ht step hs n hn
  obtain ⟨r, hr, hs⟩ := List.mem_flatMap.mp hs
  obtain ⟨types, test, rfl, htypes⟩ := h r hr
  obtain rfl : step = (x, .remove types) := by
    cases test with
    | kindOf => simpa [narrowings] using hs
    | identity =>
      rw [narrowings] at hs
      split at hs
      · simpa using hs
      · cases hs
  rw [find?_fold, if_pos rfl] at hn
  cases hf : table.find? x with
  | none =>
    rw [hf] at hn
    exact ⟨types, (Option.some.inj hn).symm, htypes⟩
  | some old =>
    obtain ⟨others, rfl, hothers⟩ := ht old hf
    rw [hf] at hn
    refine ⟨others.union types, (Option.some.inj hn).symm, fun t ht => ?_⟩
    rcases TypeSet.mem_of_mem_union ht with rfl | hm | hm
    · exact hu
    · exact hothers t hm
    · exact htypes t hm

/-- A test that holds, after tests in vain, leaves of its types those that were not tested before. -/
theorem find?_combine_tested (test : TypeTest) (hu : removed .undefined) (h : ∀ r ∈ rs, r.Denies removed x)
    (ht : types.WellFormed) :
    ∃ s, (combine (rs ++ [.value x types test true]) current).find? x = some (.replace s) ∧ types.Left removed s := by
  have hfold : combine (rs ++ [.value x types test true]) current = fold (combine rs current) (x, .replace types) := by
    unfold combine
    rw [List.flatMap_append, List.foldl_append]
    rfl
  rw [hfold, find?_fold, if_pos rfl]
  cases hf : (combine rs current).find? x with
  | none => exact ⟨types, rfl, TypeSet.left_self ht⟩
  | some n =>
    obtain ⟨others, rfl, hothers⟩ := find?_combine_denied hu h hf
    exact ⟨_, rfl, TypeSet.left_difference ht hothers⟩

end Restriction

/-! ## Names in a body -/

namespace ScopeTree

variable {tree : SyntaxTree} {b k q : Node} {as bs : List Node} {s x : Nat} {name spelled : String}

/-- A name that means an entry of the scope of a block is in the block. -/
theorem mem_of_entryIn (h : tree.FormedFile) (hb : Way tree.root b (q :: as)) (hq : q.kind.isDefinition = false)
    (ho : (build tree).scopeOpenedBy? b.number = some s) (hin : (build tree).entryIn? name s = some x)
    (hk : Way tree.root k bs) (hname : k.kind = .identifier spelled) (hx : (build tree).entryOf? k.number = some x) :
    k ∈ b.withDescendants := by
  obtain ⟨e, he, -, rfl⟩ := (resolving_build h).named hin
  obtain ⟨e', sc, he', hsc, hnode⟩ := lexical_build h hk hname hx
  cases he.symm.trans he'
  have hopened : sc.node = b.number := by simpa [hsc] using (sound_build h).noted hb hq ho
  rw [List.append_nil, hopened, List.mem_map] at hnode
  obtain ⟨a, ha, hnumber⟩ := hnode
  obtain ⟨cs, hwa⟩ : ∃ cs, Way tree.root a cs := by
    rcases List.mem_cons.mp ha with rfl | ha
    · exact ⟨_, hk⟩
    · exact hk.of_mem ha
  obtain ⟨rfl, -⟩ := hwa.unique h.nodup hb hnumber
  rcases List.mem_cons.mp ha with rfl | ha
  · exact Way.root.mem_withDescendants
  · obtain ⟨ds, hw⟩ := hk.below_of_mem ha
    exact hw.mem_withDescendants

end ScopeTree

namespace World

variable {w : World} {x : Nat} {package : String} {body n : Node} {c : Node}

/-- No name in the node means the entry. -/
def Unmentioned (w : World) (x : Nat) (n : Node) : Prop := ∀ k ∈ n.withDescendants, w.scopes.entryOf? k.number ≠ some x

/-- What is given a value is a name, the node itself or a part of it. -/
theorem written_of_given {m : Node} (h : c ∈ m.given) (hf : m.Formed) :
    (c = m ∨ c ∈ m.children) ∧ c.writtenName?.isSome := by
  unfold Node.given at h
  split at h
  · rename_i hk
    have hlayout := hf.layout
    refine ⟨.inr (List.dropLast_subset _ h), ?_⟩
    obtain ⟨name, hname⟩ : ∃ name, c.kind = .identifier name := by
      generalize m.kind = kind, m.children = children at *
      cases hlayout with
      | assignment _ ht => exact List.mem_singleton.mp h ▸ ht
      | multipleAssignment _ ht => exact ht c (by simpa using h)
      | _ => first | cases hk | (cases kind <;> cases hk <;> contradiction)
    simp [Node.writtenName?, hname]
  · split at h
    · rename_i hd
      obtain ⟨name, hname⟩ := Option.isSome_iff_exists.mp hd
      rw [List.mem_singleton.mp h, Node.writtenName?_of_declaredName? hname]
      exact ⟨.inl rfl, rfl⟩
    · cases h

theorem exists_named_of_restriction {k : Memory} (h : x ∈ (w.restriction k c).entries) :
    ∃ d ∈ c.withDescendants, (∃ name, d.kind = .identifier name) ∧ w.scopes.entryOf? d.number = some x := by
  obtain ⟨d, hd, hnamed⟩ := Evidence.exists_named_of_mem_entries c h
  exact ⟨d, hd, Evidence.named?_eq_some_iff.mp hnamed⟩

/-- A node in which no name means an entry, and no handler has a value for it, is aloof from the entry. -/
theorem aloof_of_names (hn : n.Inner)
    (h : ∀ k ∈ n.withDescendants, k.writtenName?.isSome → w.scopes.entryOf? k.number ≠ some x)
    (hcaught : ∀ {m ms names}, Way n m ms → m.kind = .handler names → ∀ b ∈ m.children, ∀ s bound,
      w.scopes.scopeOpenedBy? b.number = some s → w.scopes.entryIn? bound s ≠ some x) : w.Aloof package x n := by
  refine ⟨⟨fun hm hc => ?_, fun hm hh => find?_handlerFlow_of_ne (hcaught hm hh) _ _, fun hm => (hn.below hm).package⟩,
    fun {m c ms} hm hc k _ he => ?_⟩
  · obtain ⟨hmem, hname⟩ := written_of_given hc (hn.below hm).formed
    rcases hmem with rfl | hmem
    · exact h _ hm.mem_withDescendants hname
    · exact h _ (Way.child hm hmem).mem_withDescendants hname
  · obtain ⟨d, hd, ⟨name, hname⟩, hdx⟩ := exists_named_of_restriction he
    obtain ⟨ds, hwd⟩ := Node.mem_withDescendants_iff.mp hd
    exact h d ((Way.child hm (Node.mem_children_of_tested? hc)).trans hwd).mem_withDescendants
      (by simp [Node.writtenName?, hname]) hdx

/-- A body that does not mention a variable is aloof from it. -/
theorem Unmentioned.aloof {tree : SyntaxTree} (h : tree.FormedFile) (hw : w.scopes = .build tree) {as : List Node}
    (hbody : Way tree.root body as) (hinner : body.Inner) (hu : w.Unmentioned x body) {k : Node} {ks : List Node}
    {name : String} (hk : Way tree.root k ks) (hname : k.kind = .identifier name)
    (hx : w.scopes.entryOf? k.number = some x) : w.Aloof package x body := by
  refine aloof_of_names hinner (fun k hk _ => hu k hk) fun {m ms _} hm hh b hb s bound ho hin => ?_
  rw [hw] at ho hin
  have hkb := ScopeTree.mem_of_entryIn h (.child (hbody.trans hm) hb) (hh ▸ rfl) ho hin hk hname (hw ▸ hx)
  exact hu k (Node.mem_withDescendants_trans hkb (Way.child hm hb).mem_withDescendants) hx

/-! ## Beliefs at the ends -/

theorem entryTypes_of_some {f : Flow} {s : TypeSet} (h : f.believed.find? x = some s) : w.entryTypes package f x = s := by
  rw [entryTypes, h]

/-- Ends that believe something are joined to the union. -/
theorem exists_union_of_believed (package : String) (inside : List Nat) (before : Flow) {live : List Flow} (hne : live ≠ [])
    (hl : ∀ f ∈ live, ∃ u : TypeSet, f.believed.find? x = some u ∧ u.WellFormed ∧ u.isUndefined = false) :
    ∃ s : TypeSet, s.WellFormed ∧ (∀ t, t ∈ s.members ↔ ∃ f ∈ live, ∃ u, f.believed.find? x = some u ∧ t ∈ u.members) ∧
      (w.mergeLive package inside before live).believed.find? x = some (inOrderOf (before.believed.find? x) s) := by
  obtain ⟨f, hf⟩ := List.exists_mem_of_ne_nil _ hne
  obtain ⟨u, hu, -⟩ := hl f hf
  have hb : f.believed.find? x ≠ none := by simp [hu]
  have htypes : ∀ f ∈ live, (w.entryTypes package f x).WellFormed := by
    intro f hf
    obtain ⟨u, hu, hw, -⟩ := hl f hf
    rwa [entryTypes_of_some hu]
  obtain ⟨s, hs, hunion, hfind⟩ := find?_mergeLive_of_mem inside before hf hb htypes fun f hf hnone => by
    obtain ⟨u, hu, -⟩ := hl f hf
    cases hnone.symm.trans hu
  refine ⟨s, hs, fun t => (hunion.known ?_ t).trans ?_, hfind⟩
  · intro a ha
    obtain ⟨f, hf, rfl⟩ := List.mem_map.mp ha
    obtain ⟨u, hu, -, hknown⟩ := hl f hf
    rwa [entryTypes_of_some hu]
  · simp only [List.mem_map, exists_exists_and_eq_and]
    refine exists_congr fun f => and_congr_right fun hf => ?_
    obtain ⟨u, hu, -⟩ := hl f hf
    simp [entryTypes_of_some hu, hu]

/-- Where ends are joined at which something is left of some types, it is left behind them. -/
theorem standing_left {removed : TypeName → Prop} {a : TypeSet} (ha : a.isUndefined = false) :
    w.Standing package x fun o => ∃ u, o = some u ∧ a.Left removed u := by
  intro inside before live hne hl
  obtain ⟨s, hs, hmem, hfind⟩ := exists_union_of_believed (w := w) (x := x) package inside before hne fun f hf => by
    obtain ⟨u, hu, hleft⟩ := hl f hf
    exact ⟨u, hu, hleft.wellFormed, hleft.known ha⟩
  refine ⟨_, hfind, TypeSet.wellFormed_inOrderOf _ hs, fun t ht => ?_, fun t ht hr => ?_⟩
  · rw [TypeSet.mem_inOrderOf _ hs, hmem] at ht
    obtain ⟨f, hf, v, hv, ht⟩ := ht
    obtain ⟨u, hu, hleft⟩ := hl f hf
    cases hu.symm.trans hv
    exact hleft.sub t ht
  · obtain ⟨f, hf⟩ := List.exists_mem_of_ne_nil _ hne
    obtain ⟨u, hu, hleft⟩ := hl f hf
    rw [TypeSet.mem_inOrderOf _ hs, hmem]
    exact ⟨f, hf, u, hu, hleft.rest t ht hr⟩

/-- Ends at which all of a belief is believed, and no more, restore it. -/
theorem restored {inside : List Nat} {before : Flow} {ends : List Flow} {belief : TypeSet} (hne : ends ≠ [])
    (hw : belief.WellFormed) (hu : belief.isUndefined = false) (hb : before.believed.find? x = some belief)
    (hl : ∀ f ∈ ends, ∃ u, f.believed.find? x = some u ∧ belief.Left (fun _ => True) u)
    (hall : ∀ t ∈ belief.members, ∃ f ∈ ends, ∃ u, f.believed.find? x = some u ∧ t ∈ u.members) :
    (w.mergeLive package inside before ends).believed.find? x = some belief := by
  obtain ⟨s, -, hmem, hfind⟩ := exists_union_of_believed (w := w) (x := x) package inside before hne fun f hf => by
    obtain ⟨u, hfind, hleft⟩ := hl f hf
    exact ⟨u, hfind, hleft.wellFormed, hleft.known hu⟩
  rw [hfind, hb, TypeSet.inOrderOf_eq hw hu fun t => ?_]
  rw [hmem]
  constructor
  · rintro ⟨f, hf, v, hv, ht⟩
    obtain ⟨u, hfind, hleft⟩ := hl f hf
    cases hfind.symm.trans hv
    exact hleft.sub t ht
  · exact hall t

/-! ## Branches that split a belief -/

section Splitting

variable {around : Around} {m : Moment} {t : Turn} {turns earlier later : List Turn} {belief types : TypeSet} {test : TypeTest}
  {before : Flow} {u : TypeName}

/-- The condition tests a variable against some of the types that are believed of it. -/
def Turn.Tests (x : Nat) (belief : TypeSet) (t : Turn) : Prop :=
  ∃ types test, t.restriction = .value x types test true ∧ types.WellFormed ∧ ∀ u ∈ types.members, u ∈ belief.members

/-- The types that conditions tested. -/
def testedBy (turns : List Turn) (u : TypeName) : Prop := u = .undefined ∨ ∃ t ∈ turns, u ∈ t.restriction.tested.members

theorem denies_negations (h : ∀ t ∈ turns, t.Tests x belief) : ∀ r ∈ negations turns, r.Denies (testedBy turns) x := by
  intro r hr
  obtain ⟨t, ht, rfl⟩ := List.mem_map.mp hr
  obtain ⟨types, test, he, -⟩ := h t ht
  refine ⟨types, test, by rw [he]; rfl, fun u hu => .inr ⟨t, ht, ?_⟩⟩
  rw [he]
  exact hu

/-- Where a body starts, the types of its test are left but for some that were tested before. -/
theorem left_entered (hf : t.Follows w package before (negations earlier)) (he : ∀ e ∈ earlier, e.Tests x belief)
    (ht : t.restriction = .value x types test true) (hw : types.WellFormed) :
    ∃ s, t.entered.flow.believed.find? x = some s ∧ types.Left (testedBy earlier) s := by
  obtain ⟨s, hfind, hleft⟩ := Restriction.find?_combine_tested test (.inl rfl) (denies_negations he) hw
  refine ⟨s, ?_, hleft⟩
  rw [hf.entered, ht, find?_believed_narrowed, hfind]
  rfl

/-- On the way around, the belief is left but for some types that were tested. -/
theorem left_start (hb : before.believed.find? x = some belief) (hw : belief.WellFormed)
    (ht : ∀ t ∈ turns, t.Tests x belief) :
    ∃ s, (w.narrowed package before (negations turns)).believed.find? x = some s ∧ belief.Left (testedBy turns) s := by
  rw [find?_believed_narrowed, entryTypes_of_some hb, hb]
  cases hf : (Restriction.combine (negations turns) (w.entryTypes package before)).find? x with
  | none => exact ⟨belief, rfl, TypeSet.left_self hw⟩
  | some narrowing =>
    obtain ⟨others, rfl, hothers⟩ := Restriction.find?_combine_denied (.inl rfl) (denies_negations ht) hf
    exact ⟨_, rfl, TypeSet.left_difference hw hothers⟩

/-- The first condition that tests a type. -/
theorem exists_first_test (h : ∃ t ∈ turns, u ∈ t.restriction.tested.members) :
    ∃ earlier t later, turns = earlier ++ t :: later ∧ u ∈ t.restriction.tested.members ∧
      ∀ e ∈ earlier, u ∉ e.restriction.tested.members := by
  obtain ⟨t, ht, hu⟩ := h
  obtain ⟨first, hfirst⟩ := Option.isSome_iff_exists.mp
    (List.find?_isSome (p := fun t : Turn => decide (u ∈ t.restriction.tested.members)) |>.mpr ⟨t, ht, by simpa using hu⟩)
  obtain ⟨hm, earlier, later, hs, he⟩ := List.find?_eq_some_iff_append.mp hfirst
  exact ⟨earlier, first, later, hs, by simpa using hm, fun e hm => by simpa using he e hm⟩

/-- Some name means the entry. -/
def Mentioned (tree : SyntaxTree) (x : Nat) : Prop :=
  ∃ k ks name, Way tree.root k ks ∧ k.kind = .identifier name ∧ (ScopeTree.build tree).entryOf? k.number = some x

theorem Turn.Tests.mem (h : t.Tests x belief) (hu : u ∈ t.restriction.tested.members) : u ∈ belief.members := by
  obtain ⟨types, test, he, -, hsub⟩ := h
  rw [he] at hu
  exact hsub u hu

/-- A conditional whose conditions test one variable and whose bodies do not mention it. -/
structure Splits (w : World) (tree : SyntaxTree) (around : Around) (m : Moment) (n : Node) (x : Nat) (belief : TypeSet) :
    Prop where
  file : tree.FormedFile
  scopes : w.scopes = .build tree
  way : ∃ as, Way tree.root n as
  kind : n.kind = .conditional
  believed : m.flow.believed.find? x = some belief
  wellFormed : belief.WellFormed
  known : belief.isUndefined = false
  tests : ∀ t ∈ (w.chain (around.within n.number n.kind) m.flow [] m.memory n.children).turns, t.Tests x belief
  bodies : ∀ b ∈ n.children, ∀ body ∈ b.children, body.kind = .body → w.Unmentioned x body

namespace Splits

variable {tree : SyntaxTree} (h : Splits w tree around m n x belief)
include h

theorem formed : n.Formed :=
  let ⟨_, hway⟩ := h.way
  hway.formed h.file.formed

/-- The first condition names the variable. -/
theorem mentioned : Mentioned tree x := by
  obtain ⟨as, hway⟩ := h.way
  obtain ⟨b, hb, condition, hc⟩ := exists_condition h.formed h.kind
  obtain ⟨t, ht, hcondition⟩ : ∃ t ∈ (w.chain (around.within n.number n.kind) m.flow [] m.memory n.children).turns,
      t.condition = condition := by
    have hm : condition ∈ n.children.filterMap Node.tested? := List.mem_filterMap.mpr ⟨b, hb, hc⟩
    rw [← (branchesStart h.formed (hway.nodup h.file.nodup) h.kind).conditions] at hm
    exact List.mem_map.mp hm
  obtain ⟨earlier, later, hs⟩ := List.append_of_mem ht
  obtain ⟨hf, -⟩ := chain_turns (keptIn_conditional h.formed h.kind) hs
  obtain ⟨types, test, he, -⟩ := h.tests t ht
  obtain ⟨k, hk, ⟨name, hname⟩, hx⟩ := exists_named_of_restriction (w := w) (k := t.tested.memory) (c := t.condition) (x := x)
    (by rw [← hf.restriction, he]; simp [Restriction.entries])
  obtain ⟨ks, hwk⟩ := Node.mem_withDescendants_iff.mp (hcondition ▸ hk)
  exact ⟨k, _, name, ((hway.child hb).child (Node.mem_children_of_tested? hc)).trans hwk, hname, h.scopes ▸ hx⟩

/-- Behind a body, what was left of some types where it starts is left. -/
theorem behind {b : Node} {k : Moment} {removed : TypeName → Prop} {a s : TypeSet} (hb : b ∈ n.children)
    (hbody : body ∈ b.children) (hkind : body.kind = .body) (hk : k.flow.believed.find? x = some s)
    (hl : a.Left removed s) (ha : ∀ u ∈ a.members, u ∈ belief.members) (around : Around) :
    ∃ u, (w.reason around body k).2.flow.believed.find? x = some u ∧ a.Left removed u := by
  obtain ⟨as, hway⟩ := h.way
  have hinner : n.Inner := ⟨h.formed, by simp [h.kind], by simp [h.kind]⟩
  obtain ⟨c, cs, name, hwc, hname, hx⟩ := h.mentioned
  have haloof : w.Aloof k.memory.package x body :=
    (h.bodies b hb body hbody hkind).aloof h.file h.scopes (.child (.child hway hb) hbody)
      ((hinner.child hb).child hbody) hwc hname (h.scopes ▸ hx)
  have hknown : a.isUndefined = false := by
    have hk := h.known
    rw [← Bool.not_eq_true, TypeSet.isUndefined_iff] at hk ⊢
    exact fun hm => hk (ha _ hm)
  exact ((reasons_part (h.formed.child hb) (branch_or_otherwise h.formed h.kind hb) hbody around).upholds haloof
    (standing_left hknown) k rfl ⟨s, hk, hl⟩)

/-- At the end of a branch. -/
theorem turn (hs : (w.chain (around.within n.number n.kind) m.flow [] m.memory n.children).turns = earlier ++ t :: later) :
    ∃ u, t.left.flow.believed.find? x = some u ∧ t.restriction.tested.Left (testedBy earlier) u := by
  obtain ⟨hf, b, hb, body, hbc, hleft⟩ := chain_turns (keptIn_conditional h.formed h.kind) hs
  have ht : t.Tests x belief := h.tests t (by simp [hs])
  obtain ⟨types, test, he, hw, -⟩ := id ht
  obtain ⟨s, hentered, hl⟩ := left_entered hf (fun e hm => h.tests e (by simp [hs, hm])) he hw
  have hkind : body.kind = .body := by
    rcases branch_or_otherwise h.formed h.kind hb with hk | hk
    · obtain ⟨_, _, hc, -, hkind⟩ := (h.formed.child hb).layout.of_takesValueAndBody (hk ▸ rfl)
      cases hbc.symm.trans hc
      exact hkind
    · obtain ⟨_, hc, -⟩ := (h.formed.child hb).layout.of_takesBody (hk ▸ rfl)
      cases hbc.symm.trans hc
  rw [hleft, he]
  exact h.behind hb (by simp [hbc]) hkind hentered hl (fun u hu => ht.mem (by rw [he]; exact hu)) _

/-- At the end of the way around all branches. -/
theorem done : ∃ u, (w.chain (around.within n.number n.kind) m.flow [] m.memory n.children).done.flow.believed.find? x = some u ∧
    belief.Left (testedBy (w.chain (around.within n.number n.kind) m.flow [] m.memory n.children).turns) u := by
  have hkept := keptIn_conditional (w := w) h.formed h.kind
  obtain ⟨-, hstart⟩ := @chain_start w (around.within n.number n.kind) m.flow [] m.memory n.children hkept
  obtain ⟨s, hfind, hl⟩ := left_start (w := w) h.believed h.wellFormed h.tests
  rw [List.nil_append] at hstart
  rw [← hstart] at hfind
  rcases @chain_done w (around.within n.number n.kind) m.flow [] m.memory n.children with hdone | ⟨b, hb, hother, hdone⟩
  · rw [hdone]
    exact ⟨s, hfind, hl⟩
  · rcases branch_or_otherwise h.formed h.kind hb with hk | hk
    · obtain ⟨_, _, hc, -⟩ := (h.formed.child hb).layout.of_takesValueAndBody (hk ▸ rfl)
      exact absurd hc (hother _ _)
    · obtain ⟨body, hc, hkind⟩ := (h.formed.child hb).layout.of_takesBody (hk ▸ rfl)
      rw [hdone, hc, reasonEach_cons, reasonEach_nil]
      exact h.behind hb (by simp [hc]) hkind hfind hl (fun _ hu => hu) _

end Splits

end Splitting

/-- A conditional whose conditions all test one variable, each against types that are believed
    of it, leaves what is believed of the variable as it was, the order of its types included;
    provided that no path through it exits and no body of it mentions the variable. -/
theorem split_belief_is_restored (tokens : List Token) (definitions : Definitions) (around : Around) (m : Moment)
    {n : Node} {x : Nat} {belief : TypeSet} :
    let tree := (Grammar.parse tokens).1
    let w : World := ⟨ScopeTree.build tree, definitions⟩
    let turns := (w.chain (around.within n.number n.kind) m.flow [] m.memory n.children).turns
    n ∈ tree.nodes → n.kind = .conditional →
      m.flow.believed.find? x = some belief → belief.WellFormed → belief.isUndefined = false →
      (∀ t ∈ turns, ∃ types test, t.restriction = .value x types test true ∧ types.WellFormed ∧
        ∀ u ∈ types.members, u ∈ belief.members) →
      (∀ b ∈ n.children, ∀ body ∈ b.children, body.kind = .body → w.Unmentioned x body) →
      (∀ f ∈ (w.ends around n m.flow m).1, f.exited = m.flow.exited) →
      (w.reason around n m).2.flow.believed.find? x = some belief := by
  intro tree w turns hn hk hbelief hw hu htests hbodies hexits
  have hfile : tree.FormedFile := Grammar.parse_formedFile tokens
  have h : Splits w tree around m n x belief :=
    ⟨hfile, rfl, SyntaxTree.mem_nodes_iff.mp hn, hk, hbelief, hw, hu, htests, hbodies⟩
  let c := w.chain (around.within n.number n.kind) m.flow [] m.memory n.children
  have hends : (w.ends around n m.flow m).1 = c.turns.map (·.left.flow) ++ [c.done.flow] := by
    rw [ends, if_neg (by simp [hk]), reasonBranches_eq]
  rw [flow_of_ends (Or.inl hk), flow_merge]
  cases hexited : m.flow.exited with
  | true =>
    rw [if_pos (List.filter_eq_nil_iff.mpr fun f hf => by simp [hexits f hf, hexited])]
    exact hbelief
  | false =>
    rw [List.filter_eq_self.mpr fun f hf => by simp [hexits f hf, hexited], if_neg (by simp [hends]), hends]
    refine restored (by simp) hw hu hbelief (fun f hf => ?_) fun u hm => ?_
    · rcases List.mem_append.mp hf with hf | hf
      · obtain ⟨t, ht, rfl⟩ := List.mem_map.mp hf
        obtain ⟨earlier, later, hs⟩ := List.append_of_mem ht
        obtain ⟨s, hfind, hl⟩ := h.turn hs
        exact ⟨s, hfind, hl.wellFormed, fun u hm => (h.tests t ht).mem (hl.sub u hm), fun _ _ hr => absurd trivial hr⟩
      · obtain ⟨s, hfind, hl⟩ := h.done
        exact ⟨s, List.mem_singleton.mp hf ▸ hfind, hl.wellFormed, hl.sub, fun _ _ hr => absurd trivial hr⟩
    · -- the first branch whose condition tests the type has it, or the way around
      by_cases htested : ∃ t ∈ c.turns, u ∈ t.restriction.tested.members
      · obtain ⟨earlier, t, later, hs, hmt, hfirst⟩ := exists_first_test htested
        obtain ⟨s, hfind, hl⟩ := h.turn hs
        refine ⟨t.left.flow, by simp [hs], s, hfind, hl.rest u hmt ?_⟩
        rintro (rfl | ⟨e, he, hme⟩)
        · exact absurd (TypeSet.isUndefined_iff.mpr hm) (by simp [hu])
        · exact hfirst e he hme
      · obtain ⟨s, hfind, hl⟩ := h.done
        refine ⟨c.done.flow, by simp, s, hfind, hl.rest u hm ?_⟩
        rintro (rfl | hmt)
        · exact absurd (TypeSet.isUndefined_iff.mpr hm) (by simp [hu])
        · exact htested hmt

/-! A variable is tested for `_unset` and then for `_true`; and, in another file, for the value
    of a block that returns. -/

def testingTokens : List Token :=
  (Token.scan "_if p _is _unset _then\n_elif p _is _true _then\n_endif\n").toOption.getD []

def returningTokens : List Token :=
  (Token.scan "_if p _is _block _return\n>> _unset _endblock\n_then\n_endif\n").toOption.getD []

def believing (s : TypeSet) : Moment := ⟨Flow.start.believe 0 s, .start "user"⟩

/-- The first branch takes the last type of the belief, and the order is the same behind. -/
theorem tested_twice_is_restored :
    let belief : TypeSet := .ofList [.boolean, .integer, .unset]
    let n := firstItem testingTokens
    let w : World := ⟨.build (Grammar.parse testingTokens).1, .empty⟩
    let m := believing belief
    n ∈ (Grammar.parse testingTokens).1.nodes ∧ n.kind = .conditional ∧
      (w.chain (Around.file.within n.number n.kind) m.flow [] m.memory n.children).turns.map (·.restriction) =
        [.value 0 (.single .unset) .identity true, .value 0 (.single .boolean) .identity true] ∧
      (∀ f ∈ (w.ends .file n m.flow m).1, f.exited = m.flow.exited) ∧
      (w.reason .file n m).2.flow.believed.find? 0 = some belief := by
  intro belief n w m
  have hn : n ∈ (Grammar.parse testingTokens).1.nodes := by decide +kernel
  have hk : n.kind = .conditional := by decide +kernel
  have htests : (w.chain (Around.file.within n.number n.kind) m.flow [] m.memory n.children).turns.map (·.restriction) =
      [.value 0 (.single .unset) .identity true, .value 0 (.single .boolean) .identity true] := by decide +kernel
  have hbodies : ∀ b ∈ n.children, ∀ body ∈ b.children, body.kind = .body →
      ∀ k ∈ body.withDescendants, w.scopes.entryOf? k.number ≠ some 0 := by decide +kernel
  have hexits : ∀ f ∈ (w.ends .file n m.flow m).1, f.exited = m.flow.exited := by decide +kernel
  refine ⟨hn, hk, htests, hexits, ?_⟩
  refine split_belief_is_restored testingTokens .empty .file m hn hk rfl (TypeSet.wellFormed_ofList _) rfl (fun t ht => ?_)
    hbodies hexits
  have hmem := List.mem_map_of_mem (f := fun t : Turn => t.restriction) ht
  rw [htests, List.mem_cons, List.mem_singleton] at hmem
  rcases hmem with he | he
  · exact ⟨_, _, he, TypeSet.wellFormed_ofList [.unset], by decide⟩
  · exact ⟨_, _, he, TypeSet.wellFormed_ofList [.boolean], by decide⟩

/-- Where a condition exits, its branch does not count behind the conditional: a type is lost, though the
    only body is empty. -/
theorem belief_lost_where_condition_exits :
    let belief : TypeSet := .ofList [.integer, .unset]
    let n := firstItem returningTokens
    let w : World := ⟨.build (Grammar.parse returningTokens).1, .empty⟩
    let m := believing belief
    n ∈ (Grammar.parse returningTokens).1.nodes ∧ n.kind = .conditional ∧ belief.isUndefined = false ∧
      m.flow.believed.find? 0 = some belief ∧
      (w.chain (Around.file.within n.number n.kind) m.flow [] m.memory n.children).turns.map (·.restriction) =
        [.value 0 (.single .unset) .identity true] ∧
      (∀ t ∈ (TypeSet.single .unset).members, t ∈ belief.members) ∧
      (∀ b ∈ n.children, ∀ body ∈ b.children, body.kind = .body → body.children = []) ∧
      (w.reason .file n m).2.flow.believed.find? 0 = some (.single .integer) := by
  decide +kernel

end World

end Magik
