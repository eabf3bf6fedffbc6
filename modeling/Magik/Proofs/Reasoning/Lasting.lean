/-
  Magik.Proofs.Reasoning.Lasting — assignments that last to the end of a node.

  Whatever way leads through a node, and is not left: the types of the value that an entry
  was assigned last on it are believed of the entry behind the node (`led`). By induction
  on the node, with what is known at a moment (`Knows`) carried along the rules of
  reasoning. Where ways are joined, it is enough that one of them knows it.
-/

import Magik.Proofs.Reasoning.Leading
import Magik.Proofs.Reasoning.Simulation

namespace Magik

open Node (Way numbersAll Enclosed)

namespace World

variable {w : World} {package : String} {x : Nat} {s s' s₁ : Option Node} {n v : Node} {ns : List Node} {P : Prop}
  {p : Reason Results} {k : Memory} {binding : Option String}

/-! ## Beliefs -/

/-- The types are among those that are believed. -/
def Believes (types : TypeSet) (believed : Option TypeSet) : Prop :=
  ∃ b, believed = some b ∧ ∀ t ∈ types.members, b.Covers t

theorem believes_mergeLive {inside : List Nat} {before f : Flow} {live : List Flow} {types : TypeSet} (hf : f ∈ live)
    (h : Believes types (f.believed.find? x)) :
    Believes types ((w.mergeLive package inside before live).believed.find? x) := by
  obtain ⟨b, hb, hcovers⟩ := h
  have hkey : x ∈ (live.flatMap fun f => f.believed.keys).eraseDups := by
    rw [List.mem_eraseDups, List.mem_flatMap]
    refine ⟨f, hf, ?_⟩
    by_contra hnot
    rw [Table.find?_eq_none_iff.mpr hnot] at hb
    cases hb
  have hmerged : ∃ merged, w.mergedTypes? package inside live x = some merged ∧ ∀ t ∈ types.members, merged.Covers t := by
    unfold mergedTypes?
    dsimp only
    generalize hl : List.filterMap _ live = seen
    have hm : b ∈ seen := by
      rw [← hl, List.mem_filterMap]
      exact ⟨f, hf, by simp [hb]⟩
    cases seen with
    | nil => cases hm
    | cons first rest => exact ⟨_, rfl, fun t ht => covers_foldl_union hm (hcovers t ht)⟩
  obtain ⟨merged, hmerged, hc⟩ := hmerged
  refine ⟨inOrderOf (before.believed.find? x) merged, ?_, fun t ht => covers_inOrderOf _ (hc t ht)⟩
  rw [find?_believed_mergeLive, if_pos hkey, hmerged, Option.map_some]

theorem exited_believeName (f : Flow) (number : Nat) (types : TypeSet) :
    ((w.scopes.entryOf? number).elim f fun entry => f.believe entry types).exited = f.exited := by
  cases w.scopes.entryOf? number with
  | none => rfl
  | some entry => rfl

theorem exited_narrowed (package : String) (f : Flow) (rs : List Restriction) :
    (w.narrowed package f rs).exited = f.exited :=
  exited_foldl _

theorem handlerFlow_eq (before : Flow) (binding : Option String) (handler : Node) :
    w.handlerFlow before binding handler =
      (w.caught? binding handler).elim before fun entry => before.believe entry (.single .condition) := by
  unfold handlerFlow caught?
  dsimp only
  split
  · rename_i entry he
    rw [he]
    rfl
  · rename_i he
    rw [he]
    rfl

/-! ## What is known -/

/-- What is known at a moment: its way has not been left, and the types of the value that
    the entry was assigned are believed of it. -/
structure Knows (package : String) (x : Nat) (s : Option Node) (m : Moment) : Prop where
  inForce : m.memory.package = package
  live : m.flow.exited = false
  believes {value : Node} : value ∈ s → ∃ r, m.memory.findings.results.find? value.number = some r ∧
    Believes r.first (m.flow.believed.find? x)

/-- The value that is known is not noted at one of these numbers. -/
def Beyond (s : Option Node) (numbers : List Nat) : Prop := ∀ v ∈ s, v.number ∉ numbers

def Brings (package : String) (x : Nat) (s s' : Option Node) {α : Type} (p : Reason α) : Prop :=
  ∀ m, Knows package x s m → Knows package x s' (p m).2

namespace Knows

variable {f g : Flow} {k k' : Memory}

theorem kept (h : Knows package x s ⟨f, k⟩) (hk : Kept P s s') (he : g.exited = f.exited)
    (hb : P → g.believed.find? x = f.believed.find? x) : Knows package x s' ⟨g, k⟩ where
  inForce := h.inForce
  live := he.trans h.live
  believes {value} hv := by
    rcases hk with rfl | ⟨rfl, hp⟩
    · cases hv
    · rw [show (⟨g, k⟩ : Moment).flow = g from rfl, hb hp]
      exact h.believes hv

/-- What is noted later at other numbers does not matter. -/
theorem later (h : Knows package x s ⟨f, k⟩) (hp : k'.package = k.package)
    (hr : ∀ v ∈ s, k'.findings.results.find? v.number = k.findings.results.find? v.number) : Knows package x s ⟨f, k'⟩ where
  inForce := hp.trans h.inForce
  live := h.live
  believes {value} hv := by
    obtain ⟨r, hf, hb⟩ := h.believes hv
    exact ⟨r, (hr value hv).trans hf, hb⟩

end Knows

theorem Kept.beyond {numbers : List Nat} (h : Kept P s s') (hs : Beyond s numbers) : Beyond s' numbers :=
  fun v hv => hs v (h.mem hv)

theorem Beyond.mono {numbers numbers' : List Nat} (h : Beyond s numbers) (hn : ∀ j ∈ numbers', j ∈ numbers) :
    Beyond s numbers' :=
  fun v hv hj => h v hv (hn _ hj)

theorem flow_assign (number : Nat) (procedure : Option Nat) (types : TypeSet) (m : Moment) :
    (w.assign number procedure types m).2.flow =
      (w.scopes.entryOf? number).elim m.flow fun entry => m.flow.believe entry types := by
  unfold assign
  cases w.scopes.entryOf? number with
  | none => rfl
  | some entry => rfl

/-- What raises no error in the open raises none anywhere. -/
theorem raisesError_of_file {name : String} {children : List Node} (h : w.raisesError .file name children = false)
    (around : Around) : w.raisesError around name children = false := by
  unfold raisesError at h ⊢
  split at h
  · simp_all [Around.isAttempted, Around.file, Around.attemptedIn]
  · rfl

namespace Brings

variable {α β : Type} {p : Reason α} {number : Nat} {numbers : List Nat}

theorem bind {q : α → Reason β} (hp : Brings package x s s₁ p) (hq : ∀ a, Brings package x s₁ s' (q a)) :
    Brings package x s s' (p >>= q) :=
  fun m hm => hq (p m).1 (p m).2 (hp m hm)

theorem kept (hp : Brings package x s s₁ p) (hk : Kept P s₁ s') : Brings package x s s' p :=
  fun m hm => (hp m hm).kept hk rfl fun _ => rfl

/-- Reasoning that leaves the flow as it was. -/
theorem of_flow (hf : ∀ m, (p m).2.flow = m.flow) (hk : Keeps p) (ht : Touches numbers p) (hs : Beyond s numbers) :
    Brings package x s s p := by
  intro m hm
  have hlater : Knows package x s ⟨m.flow, (p m).2.memory⟩ := hm.later (hk m) fun v hv => ht m v.number (hs v hv)
  rw [← hf m] at hlater
  exact hlater

theorem pure (a : α) : Brings package x s s (pure a : Reason α) := fun _ hm => hm

theorem record (r : Results) (hs : Beyond s [number]) : Brings package x s s (Reason.record number r) :=
  of_flow (fun _ => rfl) (fun _ => rfl) (.record r (.head _)) hs

theorem noted {p : Reason Results} (hp : Brings package x s s' p) (hs : Beyond s' [number]) :
    Brings package x s s' (World.noted number p) :=
  hp.bind fun r => (record r hs).bind fun _ => pure r

theorem along (f : Flow) (hk : Keeps p) (ht : Touches numbers p) (hs : Beyond s numbers) :
    Brings package x s s (Reason.along f p) :=
  of_flow (fun _ => rfl) (fun m => hk { m with flow := f }) (ht.along f) hs

theorem assign (procedure : Option Nat) (types : TypeSet) (hx : Kept (w.scopes.entryOf? number ≠ some x) s s')
    (hs : Beyond s [number]) : Brings package x s s' (w.assign number procedure types) := by
  intro m hm
  have hmemory : Knows package x s ⟨m.flow, (w.assign number procedure types m).2.memory⟩ :=
    hm.later (keeps_assign _ _ _ m) fun v hv => touches_assign _ _ (.head _) m v.number (hs v hv)
  refine hmemory.kept hx ?_ fun hne => ?_
  · rw [flow_assign, exited_believeName]
  · rw [flow_assign]
    cases he : w.scopes.entryOf? number with
    | none => rfl
    | some entry =>
      have hentry : entry ≠ x := fun h => hne (he.trans (congrArg some h))
      exact (Table.find?_insert _ _ _ _).trans (if_neg hentry)

theorem assignEach (r : Results) {targets : List Node}
    (hx : Kept (∀ g ∈ targets, w.scopes.entryOf? g.number ≠ some x) s s') (hs : Beyond s (targets.map Node.number))
    (index : Nat) : Brings package x s s' (w.assignEach r index targets) := by
  induction targets generalizing index s with
  | nil => exact (pure _).kept hx
  | cons g targets ih =>
    have hfirst : Kept (w.scopes.entryOf? g.number ≠ some x) s s' := hx.imp fun h => h g (by simp)
    have hrest : Kept (∀ g ∈ targets, w.scopes.entryOf? g.number ≠ some x) s' s' := by
      rcases hx with h | ⟨-, h⟩
      · exact .inl h
      · exact .inr ⟨rfl, fun g hg => h g (.tail _ hg)⟩
    refine (assign _ _ hfirst (hs.mono (by simp))).bind fun _ => ih hrest ?_ (index + 1)
    exact hfirst.beyond (hs.mono fun j hj => .tail _ hj)

/-- The value of an assignment is known. -/
theorem gives {value : Node} {r : Results} (procedure : Option Nat) (hx : w.scopes.entryOf? number = some x)
    (hne : number ≠ value.number) {m : Moment} (hm : Knows package x none m)
    (hr : m.memory.findings.results.find? value.number = some r) :
    Knows package x (some value) (w.assign number procedure r.first m).2 where
  inForce := (keeps_assign _ _ _ m).trans hm.inForce
  live := by
    rw [flow_assign, exited_believeName]
    exact hm.live
  believes {v} hv := by
    obtain rfl : value = v := Option.some.inj hv
    refine ⟨r, ?_, r.first, ?_, fun t ht => .inr ht⟩
    · exact (touches_assign _ _ (List.mem_singleton_self number) m _ (by simpa using Ne.symm hne)).trans hr
    · rw [flow_assign, hx]
      exact (Table.find?_insert _ _ _ _).trans (if_pos rfl)

/-- A value that is reasoned about and then assigned. -/
theorem assigned {around : Around} {value : Node} {p : Reason Results} (hp : Brings package x s s₁ p)
    (hr : Reasons w around value p) (hx : w.scopes.entryOf? number = some x) (hne : number ≠ value.number)
    (procedure : Option Nat) : Brings package x s (some value) (do
      let r ← p
      w.assign number procedure r.first
      return r) :=
  fun m hm => gives procedure hx hne ((hp m hm).kept (.inl rfl : Kept True _ none) rfl fun _ => rfl) (hr.recorded m)

theorem undeclaredTypes (around : Around) (modifier : Modifier) (number : Nat) :
    Brings package x s s (w.undeclaredTypes around modifier number) := by
  unfold World.undeclaredTypes
  cases modifier <;> exact fun _ hm => hm

theorem readName (number : Nat) : Brings package x s s (w.readName number) := by
  unfold World.readName
  split
  · exact fun _ hm => hm
  · exact fun _ hm => hm

/-- Reasoning that changes neither the flow, nor the package, nor what is noted of nodes. -/
theorem of_memory (hf : ∀ m, (p m).2.flow = m.flow) (hk : Keeps p) (ht : Touches [] p) : Brings package x s s p :=
  of_flow hf hk ht fun _ _ => List.not_mem_nil

theorem recordLoop (number : Nat) (r : Results) : Brings package x s s (Reason.recordLoop number r) :=
  of_memory (fun _ => rfl) (fun _ => rfl) (.changeMemory fun _ => rfl)

theorem invocation {name : String} {children : List Node} (h : w.raisesError .file name children = false)
    (around : Around) (number : Nat) (rs : List Results) :
    Brings package x s s (w.invocation around number name children rs) := by
  unfold World.invocation
  rw [if_neg (by simp [raisesError_of_file h])]
  dsimp only
  split
  · split
    · exact pure _
    · exact (recordLoop _ _).bind fun _ => pure _
  · exact pure _

theorem call (number : Nat) (children : List Node) : Brings package x s s (w.call number children) := by
  unfold World.call
  refine .bind (show Brings package x s s Reason.memory from fun _ hm => hm) fun k => ?_
  split
  · exact pure _
  · dsimp only
    split
    · exact (recordLoop _ _).bind fun _ => pure _
    · exact pure _

theorem deliver (around : Around) {kind : Node.Kind} (hk : kind = .emitted ∨ kind = .loopBody) (r : Results) :
    Brings package x s s (World.deliver around kind r) := by
  refine of_memory (fun m => ?_) (keeps_deliver _ _ _) (touches_deliver around kind r)
  rcases hk with rfl | rfl
  · unfold World.deliver
    cases around.emitTarget? with
    | none => rfl
    | some target =>
      obtain ⟨owner, kind⟩ := target
      show ((if kind.isDefinition then Reason.giveBack owner r else Reason.emit owner r) m).2.flow = m.flow
      cases kind.isDefinition <;> rfl
  · unfold World.deliver
    cases around.definition? with
    | none => rfl
    | some owner => rfl

theorem recordRestriction (number : Nat) (r : Restriction) :
    Brings package x s s (Reason.recordRestriction number r) :=
  of_memory (fun _ => rfl) (fun _ => rfl) (.changeMemory fun _ => rfl)

/-- The end of a loop. -/
theorem ended (outer inner : Flow) (number : Nat) : Brings package x s s (do
      Reason.retire outer inner
      Reason.takeEmitted number : Reason Results) :=
  have hretire : Touches [] (Reason.retire outer inner) := .changeMemory fun _ => rfl
  (of_memory (fun _ => rfl) (fun _ => rfl) hretire).bind fun _ =>
    of_memory (fun _ => rfl) (fun _ => rfl) (touches_takeEmitted number)

theorem loopVariables (rounds : Option Results) {vars : List Node} (hs : Beyond s (vars.map Node.number)) (index : Nat)
    (f : Flow) : Brings package x s s (w.loopVariables rounds index f vars) := by
  induction vars generalizing index f with
  | nil => exact pure _
  | cons d vars ih =>
    refine (record _ (hs.mono (by simp))).bind fun _ => ?_
    exact ih (hs.mono fun j hj => .tail _ hj) (index + 1) _

end Brings

/-! ## Parts -/

/-- Whatever way leads through the node, reasoning brings what it says. -/
def Led (w : World) (package : String) (x : Nat) (n : Node) : Prop :=
  ∀ {s s' : Option Node} {around : Around} {p : Reason Results}, Leads w package x s n s' → Reasons w around n p →
    Enclosed [n] → Beyond s n.numbers → Brings package x s s' p

variable {around : Around} {numbers : List Nat}

/-- A value that stands in nodes is not noted elsewhere. -/
theorem beyond_of_below (hs : Beyond s numbers) (hm : ∀ v ∈ s', v ∈ s ∨ ∃ c ∈ ns, v ∈ c.withDescendants)
    (hd : ∀ j ∈ numbersAll ns, j ∉ numbers) : Beyond s' numbers := by
  intro v hv
  rcases hm v hv with h | ⟨c, hc, h⟩
  · exact hs v h
  · exact hd _ (Node.numbers_subset hc _ (Node.number_mem_of_mem_withDescendants h))

theorem Leads.beyond (h : Leads w package x s n s') (hs : Beyond s numbers) (hd : ∀ j ∈ n.numbers, j ∉ numbers) :
    Beyond s' numbers := by
  refine beyond_of_below hs (fun _ => h.mem) fun j hj => hd j ?_
  rw [Node.numbers_eq]
  exact .tail _ hj

theorem LeadsEach.beyond (h : LeadsEach w package x s ns s') (hs : Beyond s numbers) (hd : ∀ j ∈ numbersAll ns, j ∉ numbers) :
    Beyond s' numbers :=
  beyond_of_below hs (fun _ => h.mem) hd

theorem LeadsEach.brings {ps : Reason (List Results)} (h : LeadsEach w package x s ns s') (hr : ReasonsEach w around ns ps)
    (hp : Enclosed ns) (hs : Beyond s (numbersAll ns)) (ih : ∀ c ∈ ns, Led w package x c) : Brings package x s s' ps := by
  induction ns generalizing s ps with
  | nil =>
    cases h
    cases hr
    exact .pure _
  | cons c ns ih' =>
    cases h with
    | cons h hs' =>
      cases hr with
      | cons hr hrs =>
        have hfirst := ih c (by simp) h hr (hp.of_mem (by simp)) (hs.mono (by simp +contextual))
        have hbeyond : Beyond _ (numbersAll ns) := h.beyond (hs.mono (by simp +contextual)) fun _ => hp.disjoint
        refine hfirst.bind fun _ => (ih' hs' hrs hp.tail hbeyond fun d hd => ?_).bind fun _ => .pure _
        exact ih d (.tail _ hd)

/-! ## Branches -/

/-- One of several flows that started alike knows it. -/
def BringsOne (package : String) (x : Nat) (s s' : Option Node) (before : Flow) (p : Reason (List Flow)) : Prop :=
  ∀ m : Moment, Knows package x s ⟨before, m.memory⟩ → ∃ f ∈ (p m).1, Knows package x s' ⟨f, (p m).2.memory⟩

/-- Flows are joined. -/
theorem BringsOne.joined {p : Flow → Reason (List Flow)} (h : ∀ before, BringsOne package x s s' before (p before))
    (inside : List Nat) (number : Nat) : Brings package x s s' (do
      let before ← Reason.flow
      let outcomes ← p before
      w.merge inside before outcomes
      Reason.takeEmitted number) := by
  intro m hm
  obtain ⟨f, hf, hknows⟩ := h m.flow m hm
  let outcomes := (p m.flow m).1
  let done := (w.merge inside m.flow outcomes (p m.flow m).2).2
  obtain ⟨live, hmem, hflow⟩ := merge_flow (w := w) inside m.flow hf hknows.live (p m.flow m).2
  have htouches : Touches [] (w.merge inside m.flow outcomes) := touches_merge inside m.flow outcomes
  have hmemory : Knows package x s' ⟨f, done.memory⟩ :=
    hknows.later (keeps_merge _ _ _ _) fun v _ => htouches _ v.number List.not_mem_nil
  refine ⟨hmemory.inForce, ?_, fun {value} hv => ?_⟩
  · exact (congrArg Flow.exited hflow).trans rfl
  · obtain ⟨r, hr, hb⟩ := hmemory.believes hv
    refine ⟨r, hr, ?_⟩
    show Believes r.first (done.flow.believed.find? x)
    rw [show done.flow = _ from hflow]
    exact believes_mergeLive hmem hb

variable {before : Flow} {denied : List Restriction} {earlier : List Node} {r : Restriction} {b body condition : Node}
  {q : Reason Results} {label : Option String}

theorem Knows.narrowed (h : Knows package x s ⟨before, k⟩) (hk : Kept P s s') (hr : P → ∀ r ∈ denied, x ∉ r.entries)
    (inForce : String) : Knows package x s' ⟨w.narrowed inForce before denied, k⟩ :=
  h.kept hk (exited_narrowed _ _ _) fun hp => find?_narrowed_of_not_mem (hr hp)

theorem not_mem_concat {rs : List Restriction} (hs : ∀ s ∈ rs, x ∉ s.entries) (hr : x ∉ r.entries) :
    ∀ s ∈ rs ++ [r], x ∉ s.entries := by
  intro s hm
  rcases List.mem_append.mp hm with hm | hm
  · exact hs s hm
  · rw [List.mem_singleton.mp hm]
    exact hr

/-- The restriction of a condition names what the condition is about. -/
theorem untested_concat (hk : k.package = package) (hb : b.tested? = some condition)
    (hr : r = w.restriction k condition ∨ r = (w.restriction k condition).negate)
    (hd : w.Untested package x earlier → ∀ r ∈ denied, x ∉ r.entries) (h : w.Untested package x (earlier ++ [b])) :
    ∀ q ∈ denied ++ [r], x ∉ q.entries := by
  refine not_mem_concat (hd fun e he => h e (by simp [he])) ?_
  have hentries : r.entries = w.namedBy package condition := by
    rcases hr with rfl | rfl
    · rw [entries_restriction, hk]
    · rw [Restriction.entries_negate, entries_restriction, hk]
  rw [hentries]
  exact h b (by simp) condition hb

/-- Reasoning along another flow. -/
theorem Reasons.aside (h : Reasons w around n p) (hp : Enclosed [n]) (hs : Beyond s n.numbers)
    (hm : Knows package x s ⟨before, k⟩) (f : Flow) : Knows package x s ⟨before, (p ⟨f, k⟩).2.memory⟩ := by
  have hinner := hp.inner n (by simp)
  have htouches : Touches n.numbers p := h.touches hp.toProper
  exact hm.later (h.keeps hinner ⟨f, k⟩) fun v hv => htouches ⟨f, k⟩ v.number (hs v hv)

/-- A branch that is taken. -/
theorem brings_taken {s₂ s₃ : Option Node} (hb : b.children = [condition, body]) (ht : b.tested? = some condition)
    (h₁ : Kept (w.Untested package x earlier) s s₁) (h : Leads w package x s₁ condition s₂)
    (h₃ : Kept (w.Untested package x (earlier ++ [b])) s₂ s₃) (h' : Leads w package x s₃ body s')
    (hp : Reasons w around condition p) (hq : Reasons w around body q)
    (hd : w.Untested package x earlier → ∀ r ∈ denied, x ∉ r.entries) (hproper : Enclosed [b]) (hs : Beyond s b.numbers)
    (ih : ∀ c ∈ b.children, Led w package x c) (hm : Knows package x s ⟨before, k⟩) :
    let tested := (p ⟨w.narrowed k.package before denied, k⟩).2
    let r := w.restriction tested.memory condition
    Knows package x s' (q ⟨w.narrowed k.package tested.flow (denied ++ [r]), tested.memory⟩).2 := by
  intro tested r
  have hparts : Enclosed [condition, body] := hb ▸ hproper.children
  have hs' : Beyond s (numbersAll [condition, body]) := by
    rw [← hb]
    exact hs.mono fun j hj => by rw [Node.numbers_eq]; exact .tail _ hj
  have hcondition : Knows package x s₂ tested :=
    ih condition (by simp [hb]) h hp (hparts.of_mem (by simp)) (h₁.beyond (hs'.mono (by simp +contextual))) _
      (hm.narrowed h₁ hd _)
  have hbeyond : Beyond s₃ body.numbers :=
    h₃.beyond (h.beyond (h₁.beyond (hs'.mono (by simp +contextual))) fun j hj hj' => hparts.disjoint hj (by simp [hj']))
  refine ih body (by simp [hb]) h' hq (hparts.of_mem (by simp)) hbeyond _ (hcondition.narrowed h₃ ?_ _)
  exact untested_concat hcondition.inForce ht (.inl rfl) hd

/-- A way through the branches of a conditional. -/
theorem ReasonsBranches.brings {p : Reason (List Flow)} (h : ReasonsBranches w around before denied ns p)
    (hl : LeadsBranches w package x s earlier ns s') (ha : around.path ≠ [])
    (hd : w.Untested package x earlier → ∀ r ∈ denied, x ∉ r.entries) (hp : Enclosed ns) (hs : Beyond s (numbersAll ns))
    (ih : ∀ b ∈ ns, ∀ c ∈ b.children, Led w package x c) : BringsOne package x s s' before p := by
  induction ns generalizing denied earlier p with
  | nil =>
    cases h
    cases hl with
    | nil hk => exact fun m hm => ⟨_, List.mem_singleton_self _, hm.narrowed hk hd _⟩
  | cons b ns ih' =>
    have hhead : Beyond s b.numbers := hs.mono (by simp +contextual)
    have htail : Beyond s (numbersAll ns) := hs.mono (by simp +contextual)
    cases h with
    | @branch _ _ _ number span condition body _ p q rest hp' hq hrest =>
      intro m hm
      let tested := (p ⟨w.narrowed m.memory.package before denied, m.memory⟩).2
      let r := w.restriction tested.memory condition
      let left := (q ⟨w.narrowed m.memory.package tested.flow (denied ++ [r]), tested.memory⟩).2
      let later : Moment := (Reason.recordRestriction condition.number r ⟨m.flow, left.memory⟩).2
      cases hl with
      | taken hb h₁ h h₃ h' =>
        have hleft : Knows package x s' left := by
          cases hb
          exact brings_taken rfl rfl h₁ h h₃ h' hp' hq hd (hp.of_mem (by simp)) hhead (ih _ (by simp)) hm
        have hbeyond : Beyond s' (numbersAll ns) := by
          cases hb
          have hout := h.beyond (h₁.beyond htail) fun j hj => hp.disjoint (Node.mem_numbers_of_child (by simp) hj)
          exact h'.beyond (h₃.beyond hout) fun j hj => hp.disjoint (Node.mem_numbers_of_child (by simp) hj)
        have htouches : Touches (numbersAll ns) (rest r) :=
          (hrest r).touches ha hp.tail.toProper
        have hkeeps : Keeps (rest r) := (hrest r).keeps hp.tail.inner
        refine ⟨left.flow, .head _, ?_⟩
        exact Knows.later (k := left.memory) hleft (hkeeps later) fun v hv => htouches later v.number (hbeyond v hv)
      | denied hk h =>
        have hparts : Enclosed [condition, body] := (hp.of_mem (.head _)).children
        have htested : Knows package x s ⟨before, tested.memory⟩ :=
          hp'.aside (hparts.of_mem (by simp)) (hhead.mono fun _ => Node.mem_numbers_of_child (by simp)) hm _
        have hleft : Knows package x s ⟨before, left.memory⟩ :=
          hq.aside (hparts.of_mem (by simp)) (hhead.mono fun _ => Node.mem_numbers_of_child (by simp)) htested _
        obtain ⟨f, hf, hknows⟩ := ih' (hrest r) h (untested_concat htested.inForce rfl (.inr rfl) hd) hp.tail htail
          (fun d hd => ih d (.tail _ hd)) later ⟨hleft.inForce, hleft.live, hleft.believes⟩
        exact ⟨f, .tail _ hf, hknows⟩
      | otherwise hb => cases hb
    | @otherwise _ _ _ number span body p h =>
      cases hl with
      | taken hb => cases hb
      | denied hk => cases hk
      | otherwise hb h₁ h' =>
        cases hb
        intro m hm
        refine ⟨_, List.mem_singleton_self _, ?_⟩
        have hbeyond : Beyond _ body.numbers := h₁.beyond (hhead.mono fun _ => Node.mem_numbers_of_child (by simp))
        exact ih _ (.head _) body (by simp) h' h hp.children hbeyond _ (hm.narrowed h₁ hd _)

/-! ## Handlers -/

theorem Knows.handled {handler : Node} (h : Knows package x s ⟨before, k⟩)
    (hx : Kept (w.caught? binding handler ≠ some x) s s') :
    Knows package x s' ⟨w.handlerFlow before binding handler, k⟩ := by
  refine h.kept hx ?_ fun hne => ?_
  · rw [handlerFlow_eq]
    cases w.caught? binding handler with
    | none => rfl
    | some entry => rfl
  · rw [handlerFlow_eq]
    cases hc : w.caught? binding handler with
    | none => rfl
    | some entry =>
      have hentry : entry ≠ x := fun he => hne (hc.trans (congrArg some he))
      exact (Table.find?_insert _ _ _ _).trans (if_neg hentry)

namespace BringsOne

variable {f : Flow} {p : Reason Results} {ps : Reason (List Flow)}

/-- The first flow knows it, and the others note nothing about it. -/
theorem first (hp : ∀ k, Knows package x s ⟨before, k⟩ → Knows package x s' (p ⟨f, k⟩).2) (hk : Keeps ps)
    (ht : Touches numbers ps) (hs : Beyond s' numbers) : BringsOne package x s s' before (do
      let outcome ← Reason.along f p
      let outcomes ← ps
      return outcome :: outcomes) := by
  intro m hm
  let later : Moment := ⟨m.flow, (p ⟨f, m.memory⟩).2.memory⟩
  refine ⟨_, .head _, ?_⟩
  exact (hp m.memory hm).later (hk later) fun v hv => ht later v.number (hs v hv)

theorem rest (hp : ∀ k, Knows package x s ⟨before, k⟩ → Knows package x s ⟨before, (p ⟨f, k⟩).2.memory⟩)
    (hps : BringsOne package x s s' before ps) : BringsOne package x s s' before (do
      let outcome ← Reason.along f p
      let outcomes ← ps
      return outcome :: outcomes) := by
  intro m hm
  obtain ⟨g, hg, hknows⟩ := hps ⟨m.flow, (p ⟨f, m.memory⟩).2.memory⟩ (hp m.memory hm)
  exact ⟨g, .tail _ hg, hknows⟩

end BringsOne

/-- Flows of a try, whose variable is noted first. -/
theorem BringsOne.bound (binding : Option Node) {ps : Flow → Reason (List Flow)}
    (hs : ∀ v ∈ binding, Beyond s [v.number]) (h : ∀ before, BringsOne package x s s' before (do
      let outcome ← Reason.along before q
      let outcomes ← ps before
      return outcome :: outcomes)) (inside : List Nat) (number : Nat) : Brings package x s s' (do
        let before ← Reason.flow
        binding.forM fun v => Reason.record v.number (.ofType .condition)
        let outcome ← Reason.along before q
        let outcomes ← ps before
        w.merge inside before (outcome :: outcomes)
        Reason.takeEmitted number) := by
  have hone : ∀ before, BringsOne package x s s' before (do
      binding.forM fun v => Reason.record v.number (.ofType .condition)
      let outcome ← Reason.along before q
      let outcomes ← ps before
      return outcome :: outcomes) := by
    intro before m hm
    cases binding with
    | none => exact h before m hm
    | some v =>
      have hnoted := Brings.record (.ofType .condition) (hs v rfl) ⟨before, m.memory⟩ hm
      exact h before (Reason.record v.number (.ofType .condition) m).2 hnoted
  exact BringsOne.joined hone inside number

/-- A way through one of the handlers of a try. -/
theorem ReasonsHandlers.brings {handler : Node} {p : Reason (List Flow)} (h : ReasonsHandlers w around before binding ns p)
    (ha : around.path ≠ []) (hh : handler ∈ ns) (hx : Kept (w.caught? binding handler ≠ some x) s s₁)
    (hl : Leads w package x s₁ handler s') (hp : Enclosed ns) (hs : Beyond s (numbersAll ns)) (ih : Led w package x handler)
    : BringsOne package x s s' before p := by
  induction ns generalizing p with
  | nil => cases hh
  | cons c ns ih' =>
    have hhead : Beyond s c.numbers := hs.mono (by simp +contextual)
    have htail : Beyond s (numbersAll ns) := hs.mono (by simp +contextual)
    cases h with
    | cons hk h hs' =>
      rcases List.mem_cons.mp hh with rfl | hh
      · refine .first (fun k hm => ih hl h (hp.of_mem (by simp)) (hx.beyond hhead) _ (hm.handled hx)) (hs'.keeps hp.tail.inner)
          (hs'.touches ha hp.tail.toProper) ?_
        exact hl.beyond (hx.beyond htail) fun _ => hp.disjoint
      · exact .rest (fun k hm => h.aside (hp.of_mem (by simp)) hhead hm _) (ih' hs' hh hp.tail htail)

theorem ReasonsHandlers.kinds {p : Reason (List Flow)} (h : ReasonsHandlers w around before binding ns p) :
    ∀ c ∈ ns, ∃ names, c.kind = .handler names := by
  induction ns generalizing p with
  | nil => simp
  | cons c ns ih =>
    cases h with
    | cons hk _ hs => exact List.forall_mem_cons.mpr ⟨⟨_, hk⟩, ih hs⟩

theorem errorName?_of_bound {number : Nat} {kind : Node.Kind} {span : Span} {binding : Option Node}
    {bound : Option String} {handlers : List Node} (hv : binding.map Node.kind = bound.map Node.Kind.attemptVariable)
    (hb : body.kind = .body) : Node.errorName? ⟨number, kind, span, binding.toList ++ body :: handlers⟩ = bound := by
  cases binding <;> cases bound <;> simp_all [Node.errorName?]

/-- A way through a try: through its body, or through a handler. -/
theorem Reasons.brings_attempt (hr : Reasons w around n p) (hk : n.kind = .attempt) (hp : Enclosed [n])
    (hs : Beyond s n.numbers) (hown : Beyond s' [n.number]) (ih : ∀ c ∈ n.children, Led w package x c)
    (h : (∃ body ∈ n.children, body.kind = .body ∧ Leads w package x s body s') ∨
      ∃ handler ∈ n.children, ∃ names, handler.kind = .handler names ∧
        ∃ s₁, Kept (w.caught? n.errorName? handler ≠ some x) s s₁ ∧ Leads w package x s₁ handler s') :
    Brings package x s s' p := by
  have hchildren : Enclosed n.children := hp.children
  have hsc : ∀ c ∈ n.children, Beyond s c.numbers := fun c hc => hs.mono fun _ => Node.mem_numbers_of_child hc
  cases hr with
  | @attempt _ number span body handlers q binding bound ps hv hbk hq hps =>
    have hparts : Enclosed (body :: handlers) := hchildren.of_sublist (List.sublist_append_right _ _)
    have hsb : Beyond s body.numbers := hsc body (by simp)
    have hsh : Beyond s (numbersAll handlers) := by
      refine hs.mono fun j hj => ?_
      obtain ⟨c, hm, hj⟩ := Node.exists_of_mem_numbersAll hj
      exact Node.mem_numbers_of_child (by simp [hm]) hj
    have hbinding : ∀ v ∈ binding, Beyond s [v.number] := fun v hm =>
      (hsc v (by simp [Option.mem_def.mp hm])).mono (by simp [Node.number_mem_numbers])
    have hpart : ∀ c ∈ binding.toList ++ body :: handlers, (∀ name, c.kind ≠ .attemptVariable name) →
        c = body ∨ c ∈ handlers := by
      intro c hm hne
      rw [List.mem_append, List.mem_cons] at hm
      refine hm.resolve_left fun hm => ?_
      obtain ⟨name, hname⟩ := attemptVariable_of_mem hv (Option.mem_toList.mp hm)
      exact hne name hname
    refine .noted (BringsOne.bound binding hbinding (fun before => ?_) _ _) hown
    have hkeeps : Keeps (ps before) := (hps before).keeps hparts.tail.inner
    have htouches : Touches (numbersAll handlers) (ps before) :=
      (hps before).touches (by simp [Around.within]) hparts.tail.toProper
    rcases h with ⟨b, hb, hbk', h⟩ | ⟨handler, hh, names, hhk, s₁, hx, h⟩
    · obtain rfl : b = body := by
        refine (hpart b hb (by simp [hbk'])).resolve_right fun hm => ?_
        obtain ⟨names, hnames⟩ := (hps before).kinds b hm
        exact absurd (hbk'.symm.trans hnames) (by simp)
      refine .first (fun k hm => ih b hb h hq (hchildren.of_mem hb) hsb _ hm) hkeeps htouches ?_
      exact h.beyond hsh fun _ => hparts.disjoint
    · have hmem : handler ∈ handlers := by
        refine (hpart handler hh (by simp [hhk])).resolve_left fun he => ?_
        rw [he, hbk] at hhk
        cases hhk
      rw [errorName?_of_bound hv hbk] at hx
      refine .rest (fun k hm => hq.aside (hparts.of_mem (by simp)) hsb hm _) ?_
      exact (hps before).brings (by simp [Around.within]) hmem hx h hparts.tail hsh (ih handler hh)
  | straight _ hq => exact absurd hk (hq.kind_ne rfl)
  | loop _ ht | definition ht => cases ht <;> cases hk
  | _ => cases hk

/-! ## Declarations -/

theorem ReasonsVariables.brings {modifier : Modifier} {last : Results} (h : ReasonsVariables w around modifier last ns p)
    (hl : LeadsDeclared w package x s ns s') (hp : Enclosed ns) (hs : Beyond s (numbersAll ns))
    (ih : ∀ v ∈ ns, ∀ c ∈ v.children, Led w package x c) : Brings package x s s' p := by
  induction ns generalizing s last p with
  | nil =>
    cases h
    cases hl
    exact .pure _
  | cons v ns ih' =>
    have hhead : Beyond s v.numbers := hs.mono (by simp +contextual)
    have htail : Beyond s (numbersAll ns) := hs.mono (by simp +contextual)
    have ih'' : ∀ v ∈ ns, ∀ c ∈ v.children, Led w package x c := fun d hd => ih d (.tail _ hd)
    cases h with
    | @valued _ _ _ number name span value _ p q h hs' =>
      have hvalue : Enclosed [value] := (hp.of_mem (.head _)).children
      have hnumber : ∀ j ∈ value.numbers, j ∉ [number] := fun j hj =>
        (hp.of_mem (.head _)).not_own (by simpa using hj)
      have hout : ∀ j ∈ value.numbers, j ∉ numbersAll ns := fun j hj =>
        hp.disjoint (Node.mem_numbers_of_child (by simp) hj)
      have hvs : Beyond s value.numbers := hhead.mono fun _ => Node.mem_numbers_of_child (by simp)
      have hns : Beyond s [number] := hhead.mono (by simp [Node.numbers_eq])
      cases hl with
      | bare hc => cases hc
      | valued hc hl hx hls =>
        cases hc
        have hbrings := ih _ (.head _) value (by simp) hl h hvalue hvs
        refine hbrings.bind fun r => (Brings.assign _ _ hx (hl.beyond hns hnumber)).bind fun _ => ?_
        exact ih' (hs' r) hls hp.tail (hx.beyond (hl.beyond htail hout)) ih''
      | assigned hc hl hx hls =>
        cases hc
        have hbrings := ih _ (.head _) value (by simp) hl h hvalue hvs
        have hne : number ≠ value.number := fun he => hnumber _ value.number_mem_numbers (by simp [he])
        have hbeyond : Beyond (some value) (numbersAll ns) := by
          intro v hv
          cases hv
          exact hout _ (Node.number_mem_numbers _)
        refine fun m hm => ih' (hs' (p m).1) hls hp.tail hbeyond ih'' _ ?_
        exact hbrings.assigned h hx hne _ m hm
    | @bare _ _ _ number name span _ p hs' =>
      cases hl with
      | bare hc hx hls =>
        refine (Brings.undeclaredTypes _ _ _).bind fun types => ?_
        refine (Brings.assign _ _ hx (hhead.mono (by simp [Node.numbers_eq]))).bind fun _ => ?_
        exact ih' hs' hls hp.tail (hx.beyond htail) ih''
      | valued hc => cases hc
      | assigned hc => cases hc

/-! ## Straight ways -/

theorem Brings.weaken {α : Type} {p : Reason α} (hp : Brings package x s₁ s' p) (hk : Kept P s s₁) :
    Brings package x s s' p :=
  fun m hm => hp m (hm.kept hk rfl fun _ => rfl)

section

variable {number : Nat} {kind : Node.Kind} {span : Span} {heads parts tests : List Node} {body : Node}
  {q : List Results → Reason Results} {start : Flow → Reason Flow} {label : Option String}

/-- What the parts of a node bring is not noted at the names that the node gives values to. -/
theorem LeadsEach.beyond_targets {targets : List Node} {value : Node} (h : LeadsEach w package x s (targets ++ [value]) s')
    (hl : ∀ c ∈ targets, c.children = []) (hp : Enclosed (targets ++ [value]))
    (hs : Beyond s (numbersAll (targets ++ [value]))) : Beyond s' (targets.map Node.number) := by
  obtain ⟨s₁, hk, hv⟩ := h.of_leaves hl
  have hsub : ∀ j ∈ targets.map Node.number, j ∈ numbersAll targets := (Node.map_number_sublist targets).subset
  refine hv.beyond (hk.beyond (hs.mono fun j hj => by simp [hsub j hj])) fun j hj hm => ?_
  have hn := hp.nodup
  rw [Node.numbersAll_append, List.nodup_append] at hn
  exact hn.2.2 j (hsub j hm) j hj rfl

/-- What a node does behind its parts. -/
theorem Closes.brings (hq : Closes w around number kind heads parts q)
    (hd : Running.departs w ⟨number, kind, span, heads ++ parts⟩ = false)
    (h : LeadsEach w package x s (heads ++ parts) s₁)
    (hg : Kept (∀ g ∈ Node.written ⟨number, kind, span, heads ++ parts⟩, w.scopes.entryOf? g.number ≠ some x) s₁ s')
    (hi : Node.Inner ⟨number, kind, span, heads ++ parts⟩) (hp : Enclosed (heads ++ parts))
    (hs : Beyond s (numbersAll (heads ++ parts))) (rs : List Results) : Brings package x s₁ s' (q rs) := by
  have hleaves : ∀ c ∈ heads, c.children = [] := fun c hc => hq.leaf hc (hp.formed c (List.mem_append_left _ hc))
  cases hq with
  | package => exact absurd rfl hi.package
  | made => exact (Brings.pure _).kept hg
  | name => exact (Brings.readName _).kept hg
  | invocation => exact (Brings.invocation hd _ _ _).kept hg
  | call => exact (Brings.call _ _).kept hg
  | deliver hk =>
    have hkind : kind = .emitted ∨ kind = .loopBody := by
      cases kind <;> simp_all [Node.Kind.delivers, Running.departs]
    exact ((Brings.deliver _ hkind _).bind fun _ => .pure _).kept hg
  | depart hk => cases kind <;> simp_all [Node.Kind.departs, Running.departs]
  | enclosure => exact (Brings.of_memory (fun _ => rfl) (fun _ => rfl) (touches_takeEmitted _)).kept hg
  | @assignment target value name ht | @augmented _ target value name ht =>
    have hleaf : ∀ c ∈ [target], c.children = [] := by
      simpa using (hp.formed target (by simp)).layout.eq_nil_of_isLeaf (ht ▸ rfl)
    have htarget : Beyond s₁ [target.number] := LeadsEach.beyond_targets h hleaf hp hs
    have hx : Kept (w.scopes.entryOf? target.number ≠ some x) s₁ s' := hg.imp fun hg => hg target (by simp [Node.written])
    exact (Brings.assign _ _ hx htarget).bind fun _ => .pure _
  | several | shared =>
    refine (Brings.assignEach _ (hg.imp fun hg c hc => ?_) (h.beyond_targets hleaves hp hs) 0).bind fun _ => .pure _
    exact hg c (by simp [Node.written, hc])

/-- A way through the parts of a node, one after the other. -/
theorem Reasons.brings_straight (hr : Reasons w around n p) (hk : n.kind.isStraight) (hd : Running.departs w n = false)
    (h : LeadsEach w package x s n.children s₁) (hg : Kept (∀ g ∈ n.written, w.scopes.entryOf? g.number ≠ some x) s₁ s')
    (hi : n.Inner) (hp : Enclosed n.children) (hs : Beyond s (numbersAll n.children)) (hown : Beyond s' [n.number])
    (ih : ∀ c ∈ n.children, Led w package x c) : Brings package x s s' p := by
  cases hr with
  | @straight _ number kind span heads parts ps q hs' hq =>
    have hleaves : ∀ c ∈ heads, c.children = [] := fun c hc => hq.leaf hc (hp.formed c (List.mem_append_left _ hc))
    obtain ⟨s₀, hk₀, hparts⟩ := h.of_leaves hleaves
    have hbeyond : Beyond s₀ (numbersAll parts) := hk₀.beyond (hs.mono (by simp +contextual))
    have hbrings := (hparts.brings hs' (hp.of_sublist (List.sublist_append_right _ _)) hbeyond fun c hc =>
      ih c (List.mem_append_right _ hc)).weaken hk₀
    exact .noted (hbrings.bind fun rs => hq.brings hd h hg hi hp hs rs) hown
  | loop _ ht => cases ht <;> cases hk
  | definition hdef => cases hdef <;> cases hk
  | _ => cases hk

/-! ## Loops -/

theorem Starts.brings (ht : Starts w kind heads tests start) (hs : Beyond s (heads.map Node.number)) (before : Flow) :
    Brings package x s s (start before) := by
  cases ht with
  | forLoop => exact fun m hm => Brings.loopVariables _ hs 0 before m hm
  | whileLoop => exact fun m hm => Brings.recordRestriction _ _ m hm
  | plainLoop => exact .pure _

/-- Only what comes before the rounds of a loop is gone through. -/
theorem brings_loop {ps : Reason (List Results)} {q : Reason Results}
    (hr : ReasonsEach w (around.within number kind) tests ps) (ht : Starts w kind heads tests start)
    (hq : Reasons w (around.within number kind) body q) (h : LeadsEach w package x s tests s')
    (hp : Enclosed (heads ++ (tests ++ [body]))) (hs : Beyond s (numbersAll (heads ++ (tests ++ [body]))))
    (hown : Beyond s' [number]) (ih : ∀ c ∈ tests, Led w package x c) : Brings package x s s' (noted number do
      let _ ← ps
      let before ← Reason.flow
      let first ← start before
      let after ← Reason.along first q
      Reason.retire before after
      Reason.takeEmitted number) := by
  have hn := hp.nodup
  simp only [Node.numbersAll_append, List.nodup_append, List.mem_append] at hn
  have hsub : ∀ j ∈ heads.map Node.number, j ∈ numbersAll heads := (Node.map_number_sublist heads).subset
  have hvars : Beyond s' (heads.map Node.number) :=
    h.beyond (hs.mono fun j hj => by simp [hsub j hj]) fun j hj hm => hn.2.2 j (hsub j hm) j (.inl hj) rfl
  have hbody : Beyond s' body.numbers :=
    h.beyond (hs.mono (by simp +contextual)) fun j hj hm => hn.2.1.2.2 j hj j (by simpa using hm) rfl
  have hinner : body.Inner := hp.inner body (by simp)
  have htests := h.brings hr (hp.of_sublist ((List.sublist_append_left _ _).trans (List.sublist_append_right _ _)))
    (hs.mono (by simp +contextual)) ih
  refine .noted (htests.bind fun _ m hm => ?_) hown
  exact ((ht.brings hvars m.flow).bind fun first =>
    (Brings.along first (hq.keeps hinner) (hq.touches (hp.toProper.of_mem (by simp))) hbody).bind
      fun after => .ended m.flow after number) m hm

theorem Starts.head_eq {vars : List Node} {head last : Node} (ht : Starts w kind heads tests start)
    (hk : kind = .forLoop label ∨ kind = .whileLoop label) (hc : heads ++ (tests ++ [body]) = vars ++ [head, last]) :
    tests = [head] := by
  have htests : ∃ t, tests = [t] := by
    cases ht with
    | plainLoop => rcases hk with hk | hk <;> cases hk
    | _ => exact ⟨_, rfl⟩
  obtain ⟨t, rfl⟩ := htests
  obtain ⟨-, hlast⟩ := List.append_inj' hc rfl
  rw [(List.cons.inj hlast).1]

theorem Starts.eq_nil (ht : Starts w kind heads tests start) (hk : kind = .plainLoop label) : tests = [] := by
  cases ht with
  | plainLoop => rfl
  | _ => cases hk

end

theorem Reasons.brings_rounds {head last : Node} {vars : List Node} (hr : Reasons w around n p)
    (hk : n.kind = .forLoop label ∨ n.kind = .whileLoop label) (hc : n.children = vars ++ [head, last])
    (h : Leads w package x s head s') (hp : Enclosed n.children) (hs : Beyond s (numbersAll n.children))
    (hown : Beyond s' [n.number]) (ih : ∀ c ∈ n.children, Led w package x c) : Brings package x s s' p := by
  cases hr with
  | loop hs' ht hq =>
    refine brings_loop hs' ht hq (ht.head_eq hk hc ▸ .cons h .nil) hp hs hown fun c hm => ih c (by simp [hm])
  | straight _ hq => exact (hk.elim (hq.kind_ne rfl) (hq.kind_ne rfl)).elim
  | definition hd => cases hd <;> rcases hk with hk | hk <;> cases hk
  | _ => rcases hk with hk | hk <;> cases hk

theorem Reasons.brings_plainLoop (hr : Reasons w around n p) (hk : n.kind = .plainLoop label) (hp : Enclosed n.children)
    (hs : Beyond s (numbersAll n.children)) (hown : Beyond s [n.number]) : Brings package x s s p := by
  cases hr with
  | loop hs' ht hq =>
    have htests := ht.eq_nil hk
    exact brings_loop hs' ht hq (htests ▸ .nil) hp hs hown (by simp [htests])
  | straight _ hq => exact absurd hk (hq.kind_ne rfl)
  | definition hd => cases hd <;> cases hk
  | _ => cases hk

/-! ## The run -/

/-- Whatever way leads through a node, as long as it is not left: the types of the value
    that the entry was assigned last on it are believed behind the node. -/
theorem led (w : World) (package : String) (x : Nat) (n : Node) : Led w package x n := by
  induction n using Node.induction_below with
  | node n ih =>
    intro s s' around p h hr hp hs
    have hinner : n.Inner := hp.inner n (by simp)
    have hchildren : Enclosed n.children := hp.children
    have hsc : Beyond s (numbersAll n.children) := hs.mono fun j hj => by
      rw [Node.numbers_eq]
      exact .tail _ hj
    have hown : Beyond s' [n.number] :=
      beyond_of_below (hs.mono (by simp [Node.number_mem_numbers])) (fun _ => h.mem) fun _ => hp.not_own
    have hself : ∀ c ∈ n.children, Led w package x c := fun c hc => ih c hc c Way.root.mem_withDescendants
    have hbelow : ∀ c ∈ n.children, ∀ d ∈ c.children, Led w package x d := fun c hc d hd =>
      ih c hc d (Node.mem_withDescendants hd Way.root.mem_withDescendants)
    cases h with
    | @assigned _ _ _ target value hk hc h ht =>
      cases hr with
      | @straight _ number kind span heads parts ps q hs' hq =>
        obtain rfl : kind = .assignment := hk
        obtain ⟨target', value', rfl, rfl, rfl⟩ := hq.of_assignment
        cases hc
        cases hs' with
        | cons hv hnil =>
          cases hnil
          have hvalue := hself value (by simp) h hv (hchildren.of_mem (by simp)) (hsc.mono (by simp +contextual))
          have hne : target.number ≠ value.number := fun he =>
            hchildren.disjoint target.number_mem_numbers (by simp [he, Node.number_mem_numbers])
          exact .noted (hvalue.assigned hv ht hne _) hown
      | loop _ ht | definition ht => cases ht <;> cases hk
      | _ => cases hk
    | straight hk hd h hg => exact hr.brings_straight hk hd h hg hinner hchildren hsc hown hself
    | declaration hk h =>
      cases hr with
      | separate hr => exact .noted (hr.brings h hchildren hsc hbelow) hown
      | straight _ hq => exact absurd hk (hq.kind_ne rfl)
      | loop _ ht | definition ht => cases ht <;> cases hk
      | _ => cases hk
    | rounds hk hc h => exact hr.brings_rounds hk hc h hchildren hsc hown hself
    | plainLoop hk => exact hr.brings_plainLoop hk hchildren hsc hown
    | definition hk =>
      exact .of_flow (hr.flow_of_isDefinition hk) (hr.keeps hinner)
        (hr.touches hp.toProper) hs
    | conditional hk h =>
      cases hr with
      | conditional hr =>
        refine .noted (BringsOne.joined (fun before => ?_) _ _) hown
        exact (hr before).brings h (by simp [Around.within]) (fun _ _ hm => by cases hm) hchildren hsc hbelow
      | straight _ hq => exact absurd hk (hq.kind_ne rfl)
      | loop _ ht | definition ht => cases ht <;> cases hk
      | _ => cases hk
    | attempted hk hb hbk h => exact hr.brings_attempt hk hp hs hown hself (.inl ⟨_, hb, hbk, h⟩)
    | handled hk hh hhk hx h => exact hr.brings_attempt hk hp hs hown hself (.inr ⟨_, hh, _, hhk, _, hx, h⟩)

end World

end Magik
