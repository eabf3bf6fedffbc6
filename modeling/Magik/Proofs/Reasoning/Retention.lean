/-
  Magik.Proofs.Reasoning.Retention — nothing that was believed is dropped.

  What is believed of an entry is carried along a flow until it is noted for good. No rule
  of reasoning takes an entry out of the flow that it is given (`Reasons.carries`). Flows
  that end are joined, or retired by the flow that goes on, or settled; whichever it is, an
  entry that a name was given a value for on the way is kept (`Reasons.yields`).
-/

import Magik.Proofs.Reasoning.Exits

namespace Magik

/-! ## Tables -/

namespace Table

variable {α β : Type} [DecidableEq α] {t u : Table α β} {k x : α} {v : β}

theorem contains_iff : t.contains x ↔ x ∈ t.keys := by
  rw [contains, Option.isSome_iff_ne_none, ne_eq, find?_eq_none_iff, not_not]

theorem contains_insert : (t.insert k v).contains x ↔ k = x ∨ t.contains x := by
  by_cases h : k = x <;> simp [contains, find?_insert, h]

theorem contains_insertAll : (t.insertAll u).contains x ↔ t.contains x ∨ x ∈ u.keys := by
  obtain ⟨pairs⟩ := u
  unfold insertAll keys
  induction pairs generalizing t with
  | nil => simp
  | cons p pairs ih =>
    rw [List.foldl_cons, ih, contains_insert, List.map_cons, List.mem_cons, eq_comm (a := x), or_assoc, or_left_comm]

end Table

/-- Something is believed of the entry along the flow. -/
abbrev Flow.Has (f : Flow) (x : Nat) : Prop := f.believed.contains x

namespace World

variable {w : World} {x number : Nat} {f g before : Flow} {types : TypeSet} {package : String} {m : Moment}
  {gs : List Flow}

/-! ## Along a flow -/

theorem has_given (h : w.scopes.entryOf? number = some x ∨ f.Has x) :
    ((w.scopes.entryOf? number).elim f fun entry => f.believe entry types).Has x := by
  cases he : w.scopes.entryOf? number with
  | none => simpa [he] using h
  | some entry => exact Table.contains_insert.mpr (h.imp_left fun h => Option.some.inj (he.symm.trans h))

theorem has_narrowed {rs : List Restriction} (h : f.Has x) : (w.narrowed package f rs).Has x :=
  List.foldlRecOn (motive := fun g : Flow => g.Has x) _ _ h fun _ hg _ _ => Table.contains_insert.mpr (.inr hg)

theorem has_mergeLive {inside : List Nat} {live : List Flow} (hf : f ∈ live) (h : f.Has x) :
    (w.mergeLive package inside before live).Has x := by
  obtain ⟨b, hb⟩ := Option.isSome_iff_exists.mp h
  have hbelieves : Believes ⟨[]⟩ (f.believed.find? x) := ⟨b, hb, by simp⟩
  obtain ⟨b', hb', -⟩ := believes_mergeLive hf hbelieves
  exact Option.isSome_iff_exists.mpr ⟨b', hb'⟩

/-- An entry that is believed something of stays so. -/
def staysBelieved (w : World) (x : Nat) : Invariant w :=
  { ofKind w TypeSet.closed_true (supplies_true w) with
    Known := Bool
    fresh := false
    flow := fun carried f => carried = true → f.Has x
    started := nofun
    exited := id
    believed := fun _ _ _ hf h => Table.contains_insert.mpr (.inr (hf h))
    caught := fun _ _ hf h => by
      rw [handlerFlow_eq]
      exact Option.rec (hf h) (fun _ => Table.contains_insert.mpr (.inr (hf h))) (w.caught? _ _)
    narrowed := fun _ hf _ h => has_narrowed (hf h)
    joined := fun _ hne hlive h => by
      obtain ⟨f, hf⟩ := List.exists_mem_of_ne_nil _ hne
      exact has_mergeLive hf ((hlive f hf).2 h) }

variable {α β : Type} {around : Around} {n value : Node} {targets : List Node}

theorem Reasons.carries {p : Reason Results} (h : Reasons w around n p) {m : Moment} (hm : m.flow.Has x) :
    (p m).2.flow.Has x := by
  obtain ⟨hflow, hmemory⟩ := m.all_true
  exact (h.records (I := staysBelieved w x) (n.framed_true _) trivial true m
    ⟨⟨hflow, fun _ => hm⟩, hmemory, trivial⟩).2.flow.flow rfl

/-! ## Beliefs on the way -/

/-- What is believed of the entry is noted for good. -/
def Settled (x : Nat) (m : Moment) : Prop := m.memory.findings.believed.contains x

/-- Where the entry is due, was settled or was there before, it is settled or there
    behind. -/
def Holds (x : Nat) (due : Prop) (before : Moment → Prop) (p : Reason α) (behind : α → Moment → Prop) : Prop :=
  ∀ m, due ∨ Settled x m ∨ before m → Settled x (p m).2 ∨ behind (p m).1 (p m).2

/-- Reasoning along a flow. -/
abbrev Yields (x : Nat) (due : Prop) (p : Reason α) : Prop := Holds x due (·.flow.Has x) p fun _ m => m.flow.Has x

/-- Reasoning that comes from one flow to another. -/
abbrev Transfers (x : Nat) (due : Prop) (f : Flow) (p : Reason Flow) : Prop := Holds x due (fun _ => f.Has x) p fun g _ => g.Has x

/-- Reasoning along other flows, of which nothing is known to start with. -/
abbrev Branches (x : Nat) (due : Prop) (p : Reason (List Flow)) : Prop :=
  Holds x due (fun _ => False) p fun gs _ => ∃ g ∈ gs, g.Has x

/-- Reasoning that changes nothing that is believed. -/
def Idle (p : Reason α) : Prop :=
  ∀ m, (p m).2.flow.believed = m.flow.believed ∧ (p m).2.memory.findings.believed = m.memory.findings.believed

namespace Idle

theorem of_slight {p : Reason α} (h : Slight number p) : Idle p := by
  intro m
  obtain ⟨hbelieved, rounds, he⟩ := h m
  rw [he]
  cases rounds <;> exact ⟨hbelieved, rfl⟩

theorem deliver (kind : Node.Kind) (r : Results) : Idle (deliver around kind r) := by
  intro m
  obtain ⟨hbelieved, _, _, _, he⟩ := deliver_waiting around kind r m
  rw [he]
  exact ⟨hbelieved, rfl⟩

theorem finish : Idle (finish number) := by
  intro m
  rw [finish_eq]
  unfold Memory.finish
  cases m.memory.looped.find? number <;> exact ⟨rfl, rfl⟩

end Idle

theorem settled_settle (h : Settled x m ∨ f.Has x) : Settled x (Reason.settle f.believed m).2 :=
  Table.contains_insertAll.mpr (h.imp_right Table.contains_iff.mp)

/-- Flows that end leave behind what the flow that goes on does not have. -/
theorem settled_retire (hb : ¬before.Has x) (h : Settled x m ∨ ∃ g ∈ gs, g.Has x) :
    Settled x (gs.forM (Reason.retire before) m).2 := by
  induction gs generalizing m with
  | nil => exact h.resolve_right (by simp)
  | cons g gs ih =>
    refine ih (m := (Reason.retire before g m).2) ?_
    rw [List.exists_mem_cons_iff, ← or_assoc] at h
    refine h.imp_left fun h => Table.contains_insertAll.mpr (h.imp_right fun hg => ?_)
    obtain ⟨p, hp, rfl⟩ := List.mem_map.mp (Table.contains_iff.mp hg)
    exact List.mem_map_of_mem (List.mem_filter.mpr ⟨hp, by simpa using hb⟩)

/-- Where flows are joined, those that have exited are retired. -/
theorem holds_merge (inside : List Nat) (hb : ¬before.Has x) (h : Settled x m ∨ ∃ g ∈ gs, g.Has x) :
    Settled x (w.merge inside before gs m).2 ∨ (w.merge inside before gs m).2.flow.Has x := by
  by_cases hlive : ∃ g ∈ gs, g.exited = false ∧ g.Has x
  · obtain ⟨g, hg, he, h⟩ := hlive
    obtain ⟨live, hlive, hflow⟩ := merge_flow (w := w) inside before hg he m
    exact .inr (hflow ▸ has_mergeLive hlive h)
  · have hretired : Settled x ((gs.filter (·.exited)).forM (Reason.retire before) m).2 := by
      refine settled_retire hb (h.imp_right fun ⟨g, hg, h⟩ => ⟨g, List.mem_filter.mpr ⟨hg, ?_⟩, h⟩)
      by_contra he
      exact hlive ⟨g, hg, by simpa using he, h⟩
    left
    unfold merge
    cases gs.filter (!·.exited) <;> exact hretired

/-! ## What is due -/

/-- Somewhere in the node a name is given a value that stands for the entry. -/
def Gives (w : World) (x : Nat) (n : Node) : Prop :=
  ∃ k ∈ n.withDescendants, ∃ c ∈ k.given, w.scopes.entryOf? c.number = some x

namespace Gives

theorem cases (h : Gives w x n) :
    (∃ c ∈ n.given, w.scopes.entryOf? c.number = some x) ∨ ∃ c ∈ n.children, Gives w x c := by
  obtain ⟨k, hk, hc⟩ := h
  rcases Node.mem_withDescendants_cases hk with rfl | ⟨c, hm, hk⟩
  · exact .inl hc
  · exact .inr ⟨c, hm, k, hk, hc⟩

/-- A node that gives values to no names of its own. -/
theorem below (h : Gives w x n) (hg : n.given = []) : ∃ c ∈ n.children, Gives w x c := by
  simpa [hg] using h.cases

/-- A declared name, and the value below it. -/
theorem declared (h : Gives w x n) {name : String} (hn : n.declaredName? = some name) :
    w.scopes.entryOf? n.number = some x ∨ ∃ c ∈ n.children, Gives w x c := by
  simpa [Node.given_of_declaredName? hn] using h.cases

theorem own (h : Gives w x n) (hc : n.children = []) {name : String} (hn : n.declaredName? = some name) :
    w.scopes.entryOf? n.number = some x := by
  simpa [hc] using h.declared hn

/-- A leaf is given no value where it stands, unless it declares a name. -/
theorem not_leaf (hf : n.Formed) (hl : n.kind.isLeaf) (hd : n.declaredName? = none) : ¬Gives w x n := fun h => by
  have hk : n.kind.isAssignment = false := by cases hk : n.kind <;> simp_all [Node.Kind.isLeaf, Node.Kind.isAssignment]
  simpa [hf.layout.eq_nil_of_isLeaf hl] using h.below (by simp [Node.given, hk, hd])

/-- A definition is made up of its parameters and its body. -/
theorem defined {list body : Node} (h : Gives w x n) (hf : n.Formed) (hk : n.kind.isDefinition)
    (hc : n.children = [list, body]) : (∃ c ∈ list.children, Gives w x c) ∨ Gives w x body := by
  obtain ⟨_, _, he, hlist, -⟩ := hf.layout.of_isDefinition hk
  obtain ⟨rfl, rfl⟩ : list = _ ∧ body = _ := by simpa [hc] using he
  have hgiven : n.given = [] := by
    cases hn : n.kind <;> simp_all [Node.given, Node.declaredName?, Node.Kind.isDefinition, Node.Kind.isAssignment]
  have hbelow : Gives w x list ∨ Gives w x body := by simpa [hc] using h.below hgiven
  exact hbelow.imp_left fun h => h.below (by simp [Node.given, Node.declaredName?, hlist, Node.Kind.isAssignment])

/-- An assignment gives values to its targets, which are names. -/
theorem assigned (h : Gives w x n) (hf : n.Formed) (hk : n.kind.isAssignment) (hc : n.children = targets ++ [value])
    (ht : ∀ c ∈ targets, ∃ name, c.kind = .identifier name) (hv : ¬Gives w x value) :
    ∃ c ∈ targets, w.scopes.entryOf? c.number = some x := by
  rcases h.cases with hown | ⟨c, hm, hg⟩
  · simpa [Node.given, hk, hc] using hown
  · have hformed := hf.child hm
    rcases List.mem_append.mp (hc ▸ hm) with hm | hm
    · obtain ⟨name, hname⟩ := ht c hm
      exact absurd hg (not_leaf hformed (hname ▸ rfl) (by simp [Node.declaredName?, hname]))
    · exact absurd (List.mem_singleton.mp hm ▸ hg) hv

end Gives

/-! ## Rules -/

namespace Holds

variable {P Q : Prop} {A A' : Moment → Prop} {B : α → Moment → Prop} {B' : β → Moment → Prop} {p : Reason α}
  {q : α → Reason β}

theorem mono (h : Holds x P A p B) (hd : Q → P) : Holds x Q A p B := fun m hm => h m (hm.imp_left hd)

theorem weaken (hp : Holds x P A p B) (h : ∀ m, A' m → A m) : Holds x P A' p B :=
  fun m hm => hp m (hm.imp_right fun hm => hm.imp_right (h m))

/-- Nothing need be known to start with. -/
theorem unknown (hp : Holds x P A p B) : Holds x P (fun _ => False) p B := hp.weaken fun _ => False.elim

theorem bind (hp : Holds x P A p B) (hq : ∀ a, Holds x Q (B a) (q a) B') : Holds x (P ∨ Q) A (p >>= q) B' := by
  rintro m ((h | h) | h)
  · exact hq _ _ (.inr (hp m (.inl h)))
  · exact hq _ _ (.inl h)
  · exact hq _ _ (.inr (hp m (.inr h)))

theorem andThen (hp : Holds x P A p B) (hq : ∀ a, Holds x False (B a) (q a) B') : Holds x P A (p >>= q) B' :=
  (hp.bind hq).mono .inl

theorem memory {q : Memory → Reason β} (h : ∀ k, Holds x P A (q k) B') : Holds x P A (Reason.memory >>= q) B' :=
  fun m hm => h _ m hm

theorem idle (hp : Idle p) : Yields x False p := by
  rintro m (h | h)
  · cases h
  · show (p m).2.memory.findings.believed.contains x ∨ (p m).2.flow.believed.contains x
    rwa [(hp m).1, (hp m).2]

theorem pure (a : α) : Yields x False (pure a : Reason α) := idle fun _ => ⟨rfl, rfl⟩

theorem noted {p : Reason Results} (hp : Yields x P p) : Yields x P (noted number p) := fun m hm => hp m hm

theorem assign (procedure : Option Nat) (types : TypeSet) :
    Yields x (w.scopes.entryOf? number = some x) (w.assign number procedure types) := by
  intro m hm
  have hsettled : Settled x m → Settled x (w.assign number procedure types m).2 := by
    unfold World.assign
    cases w.scopes.entryOf? number <;> exact id
  rw [or_left_comm] at hm
  exact hm.imp hsettled fun h => (congrArg (Flow.Has · x) (flow_assign ..)).mpr (has_given h)

theorem assignEach (r : Results) (index : Nat) :
    Yields x (∃ c ∈ targets, w.scopes.entryOf? c.number = some x) (w.assignEach r index targets) := by
  induction targets generalizing index with
  | nil => exact (pure ()).mono (by simp)
  | cons c targets ih => exact ((assign none _).bind fun _ => ih (index + 1)).mono (by simp)

/-- A name that is given a value on another flow. -/
theorem named {r : Results} {p : Reason Flow}
    (hp : Transfers x P ((w.scopes.entryOf? number).elim f fun entry => f.believe entry types) p) :
    Transfers x (w.scopes.entryOf? number = some x ∨ P) f (do Reason.record number r; p) := by
  rintro m ((h | h) | h | h)
  · exact hp _ (.inr (.inr (has_given (.inl h))))
  · exact hp _ (.inl h)
  · exact hp _ (.inr (.inl h))
  · exact hp _ (.inr (.inr (has_given (.inr h))))

theorem loopVariables (rounds : Option Results) (index : Nat) (f : Flow) {vars : List Node} :
    Transfers x (∃ v ∈ vars, w.scopes.entryOf? v.number = some x) f (w.loopVariables rounds index f vars) := by
  induction vars generalizing index f with
  | nil => exact fun m hm => hm.resolve_left (by simp)
  | cons v vars ih => exact (named (ih (index + 1) _)).mono (by simp)

theorem parameters {doc : TypeDoc} {ps : List Node} {p : Reason Flow} (h : BindsParameters w doc f ps p) :
    Transfers x (∃ c ∈ ps, Gives w x c) f p := by
  induction h with
  | nil => exact fun m hm => hm.resolve_left (by simp)
  | cons _ ih =>
    refine (named ih).mono fun h => ((List.exists_mem_cons_iff ..).mp h).imp_left fun h => ?_
    exact h.own rfl (Node.declaredName?_parameter rfl)

theorem along (hp : Yields x P p) (f : Flow) : Transfers x P f (Reason.along f p) :=
  fun m hm => hp ⟨f, m.memory⟩ hm

/-- One more flow. -/
theorem prepend {gs : Reason (List Flow)} (hs : Branches x P gs) (g : Flow) :
    Holds x P (fun _ => g.Has x) (do return g :: (← gs)) fun gs _ => ∃ g ∈ gs, g.Has x := by
  intro m hm
  rw [← or_assoc] at hm
  rw [Bind.bind]
  rcases hm with hm | hm
  · refine (hs m (by simpa using hm)).imp_right ?_
    rintro ⟨g', hg', h⟩
    exact ⟨g', .tail _ hg', h⟩
  · exact .inr ⟨g, .head _, hm⟩

/-- The flow goes on as it was, and a loop leaves behind what it came to. -/
theorem looped {start : Flow → Reason Flow} {p : Reason Results} (hs : ∀ f, Transfers x P f (start f)) (hp : Yields x Q p)
    (hflow : ∀ f m, (start f m).2.flow = m.flow) :
    Yields x (P ∨ Q) (do
      let before ← Reason.flow
      let first ← start before
      let after ← Reason.along first p
      Reason.retire before after
      Reason.takeEmitted number) := by
  intro m hm
  by_cases hc : m.flow.Has x
  · exact .inr ((congrArg (Flow.Has · x) (hflow m.flow m)).mpr hc)
  · have hafter := ((hs m.flow).bind fun first => hp.along first) m hm
    exact .inl (settled_retire hc (hafter.imp_right fun h => ⟨_, List.mem_singleton_self _, h⟩))

/-- Flows are joined. -/
theorem joined {inside : List Nat} {p : Flow → Reason (List Flow)} (hp : ∀ f, Branches x P (p f))
    {q : Reason Results} (hk : ∀ {m}, m.flow.Has x → (q m).2.flow.Has x) (hq : q = World.noted number do
      let before ← Reason.flow
      let outcomes ← p before
      w.merge inside before outcomes
      Reason.takeEmitted number) : Yields x P q := by
  intro m hm
  by_cases hc : m.flow.Has x
  · exact .inr (hk hc)
  · subst hq
    exact holds_merge inside hc (hp m.flow m (by simpa [hc] using hm))

end Holds

section

variable {kind : Node.Kind} {span : Span} {heads parts tests : List Node} {q : List Results → Reason Results}
  {start : Flow → Reason Flow}

theorem yields_inOrder {p : Reason Results} (hk : kind.isInOrder) (hp : Idle p) :
    Yields x (Gives w x ⟨number, kind, span, parts⟩ ∧ ¬∃ c ∈ parts, Gives w x c) p :=
  (Holds.idle hp).mono fun ⟨h, hn⟩ => hn (h.below (by cases kind <;> first | rfl | cases hk))

/-- What is due behind the parts of a node is for the names that it gives values to. -/
theorem Closes.yields (h : Closes w around number kind heads parts q)
    (hf : Node.Formed ⟨number, kind, span, heads ++ parts⟩) (rs : List Results) :
    Yields x (Gives w x ⟨number, kind, span, heads ++ parts⟩ ∧ ¬∃ c ∈ parts, Gives w x c) (q rs) := by
  cases h with
  | made h => exact yields_inOrder (isInOrder_of_made? h) fun _ => ⟨rfl, rfl⟩
  | package => exact yields_inOrder rfl fun _ => ⟨rfl, rfl⟩
  | name => exact yields_inOrder rfl (.of_slight (slight_readName number number))
  | invocation => exact yields_inOrder rfl (.of_slight (slight_invocation _ _ _))
  | call => exact yields_inOrder rfl (.of_slight (slight_call _))
  | deliver h => exact yields_inOrder (by cases kind <;> first | rfl | cases h) (.deliver kind _)
  | depart h | enclosure h => exact yields_inOrder (by cases kind <;> first | rfl | cases h) fun _ => ⟨rfl, rfl⟩
  | @assignment target value _ ht | @augmented _ target value _ ht =>
    refine ((Holds.assign _ _).andThen fun _ => .pure _).mono fun ⟨h, hn⟩ => ?_
    have hassigned : ∃ c ∈ [target], w.scopes.entryOf? c.number = some x :=
      h.assigned hf rfl rfl (by simp [ht]) fun h => hn ⟨value, by simp, h⟩
    simpa using hassigned
  | several ht =>
    refine ((Holds.assignEach _ 0).andThen fun _ => .pure _).mono fun ⟨h, hn⟩ => h.assigned hf rfl rfl ht fun h => ?_
    exact hn ⟨_, List.mem_singleton_self _, h⟩
  | shared ht =>
    refine ((Holds.assignEach _ 0).andThen fun _ => .pure _).mono fun ⟨h, hn⟩ => ?_
    obtain ⟨c, hc, h⟩ := h.below rfl
    rcases List.mem_append.mp hc with hc | hc
    · obtain ⟨⟨name, hk⟩, hnil⟩ := ht c hc
      exact ⟨c, hc, h.own hnil (Node.declaredName?_declared hk)⟩
    · exact absurd ⟨c, hc, h⟩ hn

theorem Starts.yields (h : Starts w kind heads tests start) (before : Flow) :
    Transfers x (∃ v ∈ heads, w.scopes.entryOf? v.number = some x) before (start before) := by
  cases h with
  | forLoop => exact .memory fun k => .loopVariables _ 0 before
  | whileLoop => exact fun m hm => (hm.resolve_left (by simp)).imp_right has_narrowed
  | plainLoop => exact fun m hm => hm.resolve_left (by simp)

end

mutual

/-- By induction on the rules. -/
theorem Reasons.yields {around : Around} {n : Node} {p : Reason Results} (h : Reasons w around n p) (hf : n.Formed) :
    Yields x (Gives w x n) p := by
  have hcf : ∀ c ∈ n.children, c.Formed := fun c hc => hf.child hc
  have hcarries := @Reasons.carries w x around n p h
  match h with
  | .straight hs hq =>
    refine .noted (((hs.yields fun c hc => hcf c (List.mem_append_right _ hc)).bind (hq.yields hf)).mono fun h => ?_)
    exact or_iff_not_imp_left.mpr fun hn => ⟨h, hn⟩
  | .separate h => exact .noted ((h.yields hcf).mono fun h => h.below rfl)
  | .conditional hb => exact .joined (fun before => ((hb before).branches hcf).mono fun h => h.below rfl) hcarries rfl
  | @Reasons.loop _ _ number kind span heads tests body ps start q hs ht hq =>
    have htests := hs.yields fun c hc => hcf c (by simp [hc])
    have hbody := hq.yields (hcf body (by simp))
    refine .noted ((htests.bind fun _ => .looped ht.yields hbody ht.flow_eq).mono fun h => ?_)
    obtain ⟨c, hc, hg⟩ := h.below (by cases ht <;> rfl)
    rcases List.mem_append.mp hc with hm | hm
    · obtain ⟨name, hk⟩ := ht.variable c hm
      have hnil := (hcf c hc).layout.eq_nil_of_isLeaf (hk ▸ rfl)
      exact .inr (.inl ⟨c, hm, hg.own hnil (Node.declaredName?_loopVariable hk)⟩)
    · rcases List.mem_append.mp hm with hm | hm
      · exact .inl ⟨c, hm, hg⟩
      · exact .inr (.inr (List.mem_singleton.mp hm ▸ hg))
  | @Reasons.attempt _ _ _ _ body handlers p binding bound ps hv _ h hs =>
    have hbody := h.yields (hcf body (by simp))
    have hhandlers := fun before => (hs before).branches fun c hc => hcf c (by simp [hc])
    refine Holds.mono (.joined (p := fun before => do
        binding.forM fun v => Reason.record v.number (.ofType .condition)
        let outcome ← Reason.along before p
        return outcome :: (← ps before))
      (fun f m hm => ((hbody.along f).unknown.bind (hhandlers f).prepend) _ (by cases binding <;> exact hm)) hcarries rfl)
      fun h => ?_
    obtain ⟨c, hc, hg⟩ := h.below rfl
    rcases List.mem_append.mp hc with hm | hm
    · obtain ⟨name, hk⟩ := attemptVariable_of_mem hv (Option.mem_toList.mp hm)
      exact absurd hg (Gives.not_leaf (hcf c hc) (hk ▸ rfl) (by simp [Node.declaredName?, hk]))
    · exact (List.exists_mem_cons_iff ..).mp ⟨c, hm, hg⟩
  | @Reasons.definition _ _ number kind _ list body framed close p q hd hp hq =>
    intro m hm
    by_cases hc : m.flow.Has x
    · exact .inr (hcarries hc)
    · have hbody := (hq (framed m).1).yields (hcf body (by simp))
      have hframed : (framed m).2 = m := by cases hd <;> rfl
      have hdue := hm.imp_left fun h => h.defined hf hd.isDefinition rfl
      have hafter := ((Holds.parameters hp).bind fun start => hbody.along start).unknown (framed m).2
        (by simpa [hframed, hc] using hdue)
      have hclose : ∀ r, Idle (close r) := by cases hd <;> exact fun _ _ => ⟨rfl, rfl⟩
      left
      show (close _ (finish number (Reason.settle _ _).2).2).2.memory.findings.believed.contains x
      rw [(hclose _ _).2, (Idle.finish _).2]
      exact settled_settle hafter

theorem ReasonsEach.yields {around : Around} {ns : List Node} {ps : Reason (List Results)} (h : ReasonsEach w around ns ps)
    (hf : ∀ c ∈ ns, c.Formed) : Yields x (∃ c ∈ ns, Gives w x c) ps := by
  match h with
  | .nil => exact (Holds.pure _).mono (by simp)
  | @ReasonsEach.cons _ _ c ns p ps h hs =>
    obtain ⟨hc, hns⟩ := List.forall_mem_cons.mp hf
    exact ((h.yields hc).bind fun _ => (hs.yields hns).andThen fun _ => .pure _).mono (by simp)

theorem ReasonsVariables.yields {around : Around} {modifier : Modifier} {last : Results} {ns : List Node}
    {p : Reason Results} (h : ReasonsVariables w around modifier last ns p) (hf : ∀ c ∈ ns, c.Formed) :
    Yields x (∃ c ∈ ns, Gives w x c) p := by
  match h with
  | .nil => exact (Holds.pure _).mono (by simp)
  | @ReasonsVariables.valued _ _ _ _ number name span value ns p q h hs =>
    obtain ⟨hc, hns⟩ := List.forall_mem_cons.mp hf
    have hvalue := h.yields (hc.child (by simp))
    refine (hvalue.bind fun r => (Holds.assign _ _).bind fun _ => (hs r).yields hns).mono fun h => ?_
    refine or_assoc.mp (((List.exists_mem_cons_iff ..).mp h).imp_left fun h => Or.symm ?_)
    simpa using h.declared (Node.declaredName?_declared rfl)
  | @ReasonsVariables.bare _ _ _ _ number name span ns p hs =>
    have hrest := hs.yields (List.forall_mem_cons.mp hf).2
    have htypes : Idle (w.undeclaredTypes around modifier number) := .of_slight (slight_undeclaredTypes modifier number number)
    refine ((Holds.idle htypes).bind fun _ => (Holds.assign _ _).bind fun _ => hrest).mono fun h => .inr ?_
    exact ((List.exists_mem_cons_iff ..).mp h).imp_left fun h => h.own rfl (Node.declaredName?_declared rfl)

theorem ReasonsBranches.branches {around : Around} {before : Flow} {denied : List Restriction} {ns : List Node}
    {p : Reason (List Flow)} (h : ReasonsBranches w around before denied ns p) (hf : ∀ c ∈ ns, c.Formed) :
    Branches x (∃ c ∈ ns, Gives w x c) p := by
  match h with
  | .nil => exact fun m hm => .inl ((hm.resolve_left (by simp)).resolve_right id)
  | @ReasonsBranches.branch _ _ _ _ number span condition body ns p q rest hp hq hs =>
    obtain ⟨hc, hns⟩ := List.forall_mem_cons.mp hf
    have hcondition := hp.yields (hc.child (by simp))
    have hbody := hq.yields (hc.child (by simp))
    refine Holds.mono (.memory fun k => (hcondition.along _).unknown.bind fun tested => .memory fun k' =>
      ((hbody.along _).weaken fun _ => has_narrowed).bind fun outcome m hm =>
        ((hs _).branches hns).prepend outcome (Reason.recordRestriction condition.number _ m).2 hm) fun h => ?_
    refine or_assoc.mp (((List.exists_mem_cons_iff ..).mp h).imp_left fun h => ?_)
    simpa using h.below rfl
  | @ReasonsBranches.otherwise _ _ _ _ number span body p h =>
    have hbody := h.yields ((hf ⟨number, .otherwise, span, [body]⟩ (by simp)).child (by simp))
    refine Holds.mono (.memory fun k => (hbody.along _).unknown.andThen fun outcome m hm => ?_) fun ⟨c, hc, h⟩ => ?_
    · exact (hm.resolve_left id).imp_right fun h => ⟨outcome, List.mem_singleton_self _, h⟩
    · obtain rfl := List.mem_singleton.mp hc
      simpa using h.below rfl

theorem ReasonsHandlers.branches {around : Around} {before : Flow} {binding : Option String} {ns : List Node}
    {p : Reason (List Flow)} (h : ReasonsHandlers w around before binding ns p) (hf : ∀ c ∈ ns, c.Formed) :
    Branches x (∃ c ∈ ns, Gives w x c) p := by
  match h with
  | .nil => exact fun m hm => .inl ((hm.resolve_left (by simp)).resolve_right id)
  | @ReasonsHandlers.cons _ _ _ _ handler names ns p ps hk h hs =>
    obtain ⟨hc, hns⟩ := List.forall_mem_cons.mp hf
    exact (((h.yields hc).along _).unknown.bind (hs.branches hns).prepend).mono (by simp)

end

/-! ## Files -/

/-- What is believed of an entry is there in the end, whichever flow it was believed along. -/
theorem settled_findings {tree : SyntaxTree} (h : tree.FormedFile) (hg : Gives w x tree.root) (package : String) :
    (w.findings package tree).believed.contains x := by
  obtain ⟨p, hp, he⟩ := findings_by_rules h w package
  have hdue := hg.below (by simp [Node.given, Node.declaredName?, h.file, Node.Kind.isAssignment])
  have hyields := hp.yields (x := x) (fun c hc => h.formed.child hc) ⟨.start, .start package⟩ (.inl hdue)
  rw [he]
  exact settled_settle hyields

/-- Nothing that was believed is dropped. In a parsed file, whichever construct a declared name,
    parameter, loop variable or target of an assignment stands in, something is believed of
    its entry in the end; and no node that is reasoned about takes an entry out of the flow
    that it is given. -/
theorem beliefs_are_retained (w : World) (package : String) (tokens : List Token) :
    let tree := (Grammar.parse tokens).1
    (∀ n ∈ tree.nodes, (n.declaredName?.isSome ∨ ∃ a ∈ tree.nodes, a.kind.isAssignment ∧ n ∈ a.children.dropLast) →
      ∀ x, w.scopes.entryOf? n.number = some x → (w.findings package tree).believed.contains x) ∧
    ∀ n ∈ tree.nodes, n.kind.isReasoned → ∀ around m x, m.flow.believed.contains x →
      (w.reason around n m).2.flow.believed.contains x := by
  intro tree
  have h : tree.FormedFile := Grammar.parse_formedFile tokens
  refine ⟨fun n hn hgiven x hx => settled_findings h ?_ package, fun n hn hk around m x hm => ?_⟩
  · rcases hgiven with hd | ⟨a, ha, hk, hm⟩
    · obtain ⟨name, hname⟩ := Option.isSome_iff_exists.mp hd
      exact ⟨n, hn, n, by simp [Node.given_of_declaredName? hname], hx⟩
    · exact ⟨a, ha, n, by simpa [Node.given, hk] using hm, hx⟩
  · obtain ⟨as, hway⟩ := SyntaxTree.mem_nodes_iff.mp hn
    exact (ruled_of_formed (hway.formed h.formed) hk around).carries hm

/-- A branch that assigns an integer and is left from within a block, with no other beside it. -/
def lonelyTokens : List Token :=
  [.word .kwIf 1 1, .name "a" 1 5, .word .kwThen 1 7,
    .name "x" 2 5, ⟨.chevron, "<<", 2, 7⟩, ⟨.integer 5, "5", 2, 10⟩,
    .word .kwBlock 3 5, .word .kwReturn 3 12,
    .word .kwEndBlock 3 20, .name "x" 4 5,
    .word .kwEndIf 7 1, ⟨.endOfFile, "", 8, 1⟩]

def leavingBlock : Node :=
  ⟨6, .block, ⟨3, 5, 3, 28⟩, [⟨5, .body, ⟨3, 12, 3, 18⟩, [⟨4, .returned, ⟨3, 12, 3, 18⟩, []⟩]⟩]⟩

def lonelyWorld : World := ⟨ScopeTree.build (Grammar.parse lonelyTokens).1, .empty⟩

/-- What is assigned in the branch that is left, and nowhere else, is retained. -/
theorem left_assignment_is_retained :
    let tree := (Grammar.parse lonelyTokens).1
    let m : Moment := ⟨Flow.start.believe 0 .unset, .start "user"⟩
    lonelyWorld.scopes.entryOf? 1 = some 1 ∧ (lonelyWorld.findings "user" tree).believed.contains 1 ∧
      (lonelyWorld.reason .file leavingBlock m).2.flow.believed.contains 0 := by
  intro tree m
  have hentry : lonelyWorld.scopes.entryOf? 1 = some 1 := by decide +kernel
  have hblock : leavingBlock ∈ tree.nodes := by decide +kernel
  have htarget : (⟨1, .identifier "x", ⟨2, 5, 2, 5⟩, []⟩ : Node) ∈ tree.nodes := by decide +kernel
  have hassigned : ∃ a ∈ tree.nodes, a.kind.isAssignment ∧
      (⟨1, .identifier "x", ⟨2, 5, 2, 5⟩, []⟩ : Node) ∈ a.children.dropLast := by decide +kernel
  obtain ⟨hsettled, hcarried⟩ := beliefs_are_retained lonelyWorld "user" lonelyTokens
  exact ⟨hentry, hsettled _ htarget (Or.inr hassigned) 1 hentry, hcarried _ hblock rfl .file m 0 rfl⟩

end World

end Magik
