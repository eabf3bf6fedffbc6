/-
  Magik.Proofs.Reasoning.Simulation — reasoning follows every run of a plain body.

  By induction on the body: if what is believed covers the values before a statement, it
  does so after it, on the way that the run takes, and what is noted of each name that the
  run reads covers the value read.
-/

import Magik.Proofs.Reasoning.Assessment
import Magik.Proofs.Reasoning.Keeping
import Magik.Proofs.Scope.Lexical

namespace Magik.World

open Running

variable {w : World} {r : Course} {frame : Frame} {package : String} {A X ns : List Nat} {σ : Store} {n c value : Node}
  {nodes ms statements : List Node} {m m' : Moment} {o : Outcome} {reads : List (Nat × Value)} {number : Nat}
  {around : Around} {span targetSpan : Span} {kind : Node.Kind} {u : TypeName} {denied : List Restriction} {target : Nat}
  {name : String} {before : Flow} {body : Node}

/-! ## Scenes -/

/-- Nodes of a body, inside the nodes `A` and after the nodes `X`: their names are lexical and not listed,
    and the course of the run gives their literals values of the right types. -/
structure Scene (w : World) (r : Course) (frame : Frame) (A X : List Nat) (nodes : List Node) : Prop
    extends Node.Enclosed nodes where
  lexical : ∀ n ∈ nodes, ScopeTree.Lexical w.scopes A n
  inside {a : Nat} : a ∈ A → a ∉ Node.numbersAll nodes
  apart {k : Nat} : k ∈ X → k ∉ A ∧ k ∉ Node.numbersAll nodes
  unlisted {j x : Nat} : j ∈ Node.numbersAll nodes → w.scopes.entryOf? j = some x → w.Unlisted x
  typed {n : Node} {value : Literal} : n ∈ Node.drain nodes → n.kind = .literal value →
    (literalTypes frame value).Covers (r.literal n.number).type

namespace Scene

/-- Some of the nodes, none of which has been run yet. -/
theorem of_sublist (h : Scene w r frame A X nodes) (hs : ms.Sublist nodes) : Scene w r frame A X ms := by
  have hsub : ∀ j ∈ Node.numbersAll ms, j ∈ Node.numbersAll nodes := (Node.numbersAll_sublist hs).subset
  refine ⟨h.toEnclosed.of_sublist hs, fun k hk => h.lexical k (hs.subset hk), fun ha hj => h.inside ha (hsub _ hj),
    fun hk => ⟨(h.apart hk).1, fun hj => (h.apart hk).2 (hsub _ hj)⟩, fun hj => h.unlisted (hsub _ hj), fun hn => h.typed ?_⟩
  obtain ⟨k, hk, as, hw⟩ := Node.exists_way_of_mem_drain _ hn
  exact Node.mem_drain (hs.subset hk) hw.mem_withDescendants

theorem mem (h : Scene w r frame A X nodes) (hn : n ∈ nodes) : Scene w r frame A X [n] :=
  h.of_sublist (List.singleton_sublist.mpr hn)

theorem head (h : Scene w r frame A X (n :: nodes)) : Scene w r frame A X [n] := h.mem (.head _)

theorem tail (h : Scene w r frame A X (n :: nodes)) : Scene w r frame A X nodes := h.of_sublist (List.sublist_cons_self n nodes)

/-- The nodes after the first, which has been run. -/
theorem next (h : Scene w r frame A X (n :: nodes)) : Scene w r frame A (n.numbers ++ X) nodes := by
  refine { h.tail with apart := fun {k} hk => ?_ }
  rcases List.mem_append.mp hk with hk | hk
  · exact ⟨fun ha => h.inside ha (by simp [hk]), h.disjoint hk⟩
  · exact h.tail.apart hk

/-- The nodes below a node. -/
theorem below {children : List Node} (h : Scene w r frame A X [⟨number, kind, span, children⟩]) :
    Scene w r frame (number :: A) X children := by
  have hnumbers : Node.numbersAll [⟨number, kind, span, children⟩] = number :: Node.numbersAll children := by
    simp [Node.numbers]
  have hnodup := h.nodup
  rw [hnumbers, List.nodup_cons] at hnodup
  refine ⟨h.toEnclosed.children, ?_, fun {a} ha hj => ?_, fun {k} hk => ⟨fun ha => ?_, fun hj => ?_⟩, fun hj => ?_,
    fun hn => h.typed ?_⟩
  · exact fun c hc => (h.lexical ⟨number, kind, span, children⟩ (by simp)).child hc
  · rcases List.mem_cons.mp ha with rfl | ha
    · exact hnodup.1 hj
    · exact h.inside ha (by simp [hnumbers, hj])
  · rcases List.mem_cons.mp ha with rfl | ha
    · exact (h.apart hk).2 (by simp [hnumbers])
    · exact (h.apart hk).1 ha
  · exact (h.apart hk).2 (by simp [hnumbers, hj])
  · exact h.unlisted (by simp [hnumbers, hj])
  · rw [Node.drain]
    simpa using .inr hn

/-- Entries that are named in a scene are near. -/
theorem near (h : Scene w r frame A X nodes) {k : Node} {name : String} {x : Nat} (hk : k ∈ Node.drain nodes)
    (hname : k.kind = .identifier name) (hx : w.scopes.entryOf? k.number = some x) : w.Near X x := by
  have hin : k.number ∈ Node.numbersAll nodes := by
    rw [← Node.map_number_drain]
    exact List.mem_map_of_mem hk
  refine ⟨h.unlisted hin hx, ?_⟩
  obtain ⟨n, hn, as, hw⟩ := Node.exists_way_of_mem_drain _ hk
  obtain ⟨e, s, he, hs, hnode⟩ := h.lexical n hn hw hname hx
  have hout : s.node ∉ X := by
    intro hX
    rcases List.mem_append.mp hnode with hin | hA
    · obtain ⟨a, ha, he⟩ := List.mem_map.mp hin
      refine (h.apart hX).2 (Node.numbers_subset hn _ ?_)
      rw [← he]
      rcases List.mem_cons.mp ha with rfl | ha
      · exact hw.number_mem
      · obtain ⟨bs, hwa⟩ := hw.of_mem ha
        exact hwa.number_mem
    · exact (h.apart hX).1 hA
  simp [isStoredWithin, ScopeTree.entryAt?, he, hs, hout]

/-- A plain node leaves the package in force. -/
theorem keeps (h : Scene w r frame A X (n :: nodes)) (hp : Plain w.scopes n) (around : Around) : Keeps (w.reason around n) := by
  have hinner := h.inner n (by simp)
  have hreasoned : n.kind.isReasoned := by
    cases hp with
    | operand h => cases h <;> rfl
    | _ => rfl
  exact (ruled_of_formed hinner.formed hreasoned around).keeps hinner

end Scene

/-! ## Following a run -/

/-- What is noted of each name read covers the value read. -/
def Noted (m : Moment) (ns : List Nat) (reads : List (Nat × Value)) : Prop :=
  ∀ p ∈ reads, p.1 ∈ ns ∧ ∃ res, m.memory.findings.results.find? p.1 = some res ∧ res.first.Covers p.2.type

theorem Noted.later (h : Noted m ns reads)
    (hr : ∀ j ∈ ns, m'.memory.findings.results.find? j = m.memory.findings.results.find? j) : Noted m' ns reads := by
  intro p hp
  obtain ⟨hn, res, hres, hc⟩ := h p hp
  exact ⟨hn, res, (hr _ hn).trans hres, hc⟩

theorem Noted.mono {ms : List Nat} (h : Noted m ns reads) (hsub : ∀ j ∈ ns, j ∈ ms) : Noted m ms reads := by
  intro p hp
  obtain ⟨hn, hres⟩ := h p hp
  exact ⟨hsub _ hn, hres⟩

theorem Noted.append {a b : List (Nat × Value)} (ha : Noted m ns a) (hb : Noted m ns b) : Noted m ns (a ++ b) :=
  fun p hp => (List.mem_append.mp hp).elim (ha p) (hb p)

theorem noted_nil : Noted m ns [] := by simp [Noted]

/-- Where the run got to, the flow is live unless the run has returned, and all it read has been noted. -/
structure Follows (w : World) (package : String) (X ns : List Nat) (m : Moment) (o : Outcome) : Prop where
  live : o.returned = false → w.Live package (ns ++ X) m.flow o.store
  noted : Noted m ns o.reads

/-- Steps that neither change the flow nor what is noted of the nodes run. -/
theorem Follows.later {ms : List Nat} (h : w.Follows package X ns m o) (hf : m'.flow = m.flow)
    (hr : ∀ j ∈ ns, m'.memory.findings.results.find? j = m.memory.findings.results.find? j) (hsub : ∀ j ∈ ns, j ∈ ms) :
    w.Follows package X ms m' o := by
  refine ⟨fun ho => ?_, (h.noted.later hr).mono hsub⟩
  rw [hf]
  refine (h.live ho).mono fun k hk => ?_
  rcases List.mem_append.mp hk with hk | hk
  · exact List.mem_append_left _ (hsub k hk)
  · exact List.mem_append_right _ hk

theorem Follows.record (h : w.Follows package X ns m o) (hn : number ∉ ns) (res : Results) :
    w.Follows package X (number :: ns) (Reason.record number res m).2 o := by
  refine h.later rfl (fun j hj => ?_) (by simp +contextual)
  have hne : number ≠ j := fun he => hn (he ▸ hj)
  rw [find?_record, if_neg hne]

/-- First some reads, then a run that is followed. -/
theorem Follows.after {ms : List Nat} (h : w.Follows package (ns ++ X) ms m' o) (hn : Noted m ns reads)
    (hr : ∀ j ∈ ns, m'.memory.findings.results.find? j = m.memory.findings.results.find? j) :
    w.Follows package X (ns ++ ms) m' (o.after reads) := by
  refine ⟨fun ho => (h.live ho).mono fun k hk => ?_, ?_⟩
  · simp only [List.mem_append] at hk ⊢
    rcases hk with hk | hk | hk
    · exact .inl (.inr hk)
    · exact .inl (.inl hk)
    · exact .inr hk
  · exact Noted.append ((hn.later hr).mono (by simp +contextual)) (h.noted.mono (by simp +contextual))

/-- Whatever happened before, reasoning about the node follows its runs. -/
def Simulates (w : World) (r : Course) (frame : Frame) (n : Node) : Prop :=
  ∀ (around : Around) (m : Moment) (σ : Store) (A X : List Nat), around.frame = frame → Scene w r frame A X [n] →
    w.Live m.memory.package X m.flow σ →
    w.Follows m.memory.package X n.numbers (w.reason around n m).2 (r.exec w.scopes σ n)

/-! ## Operands -/

/-- What an assessed condition reads is noted. -/
theorem Assessed.noted (h : w.Assessed frame c m m') (hs : Scene w r frame A X [c])
    (hl : w.Live m.memory.package X m.flow σ) : Noted m' c.numbers (r.reads w.scopes σ c) := by
  intro p hp
  obtain ⟨x, hx, hv, hres⟩ := h.reads hp
  obtain ⟨k, hk, hnumber, name, hname⟩ := Course.exists_name_of_reads hp
  refine ⟨Course.mem_numbers_of_reads hp, _, hres, ?_⟩
  rw [hv]
  exact hl.covers (hs.near (by rwa [Node.drain_singleton]) hname (hnumber ▸ hx))

/-- An operand gives back types that cover its value. -/
theorem covers_value (hn : Operand w.scopes n) (around : Around) (hs : Scene w r around.frame A X [n])
    (hl : w.Live m.memory.package X m.flow σ) : (w.reason around n m).1.first.Covers (r.value w.scopes σ n).type := by
  cases hn with
  | @name number name span x hx =>
    have hvalue : r.value w.scopes σ ⟨number, .identifier name, span, []⟩ = σ x := by
      simp [Course.value, ScopeTree.named?, Node.identifierName?, hx]
    rw [reason_name hx, hvalue]
    exact hl.covers (hs.near (k := ⟨number, .identifier name, span, []⟩) (by simp [Node.drain]) rfl hx)
  | @literal number value span =>
    rw [reason_literal]
    exact hs.typed (by simp [Node.drain]) rfl

theorem simulates_operand (hn : Operand w.scopes n) : Simulates w r frame n := by
  intro around m σ A X hframe hs hl
  have ha := assesses_operand hn around m hs.nodup_head
  have hexec : r.exec w.scopes σ n = ⟨σ, false, r.reads w.scopes σ n⟩ := by
    cases hn <;> simp [Course.exec]
  rw [hexec]
  rw [hframe] at ha
  refine ⟨fun _ => ?_, ha.noted hs hl⟩
  rw [ha.flow]
  exact hl.mono (by simp +contextual)

/-! ## Assignments -/

theorem Live.assign (hl : w.Live package X m.flow σ) {types : TypeSet} {v : Value} (hv : types.Covers v.type) (number : Nat)
    (procedure : Option Nat) :
    w.Live package X (w.assign number procedure types m).2.flow (σ.set (w.scopes.entryOf? number) v) := by
  unfold World.assign
  dsimp only
  cases hx : w.scopes.entryOf? number with
  | some x => exact hl.believe hv x
  | none => exact hl

theorem reason_assignment :
    w.reason around ⟨number, .assignment, span, [⟨target, .identifier name, targetSpan, []⟩, value]⟩ = (do
      let res ← w.reason (around.within number .assignment) value
      w.assign target (procedureNumber? value) res.first
      Reason.record number res
      return res) := by
  rw [reason, reasonLast, reasonLast]
  · rfl
  · simp

theorem simulates_assignment (hv : Operand w.scopes value) :
    Simulates w r frame ⟨number, .assignment, span, [⟨target, .identifier name, targetSpan, []⟩, value]⟩ := by
  intro around m σ A X hframe hs hl
  have hvalue := hs.below.tail
  have hfresh : number ∉ value.numbers ∧ target ∉ value.numbers := by
    have hn := hs.nodup
    simp only [Node.numbersAll_cons, Node.numbersAll_nil, Node.numbers, List.append_nil, List.cons_append,
      List.nil_append, List.nodup_cons, List.mem_cons, not_or] at hn
    exact ⟨hn.1.2, hn.2.1⟩
  subst hframe
  let inner := around.within number .assignment
  have ha := assesses_operand hv inner m hvalue.nodup_head
  have hcov := covers_value hv inner (m := m) hvalue hl
  have hl' : w.Live m.memory.package X (w.reason inner value m).2.flow σ := by
    rw [ha.flow]
    exact hl
  rw [reason_assignment]
  constructor
  · intro _
    exact (hl'.assign hcov target (procedureNumber? value)).mono (by simp +contextual)
  · refine ((ha.noted hvalue hl).later fun j hj => ?_).mono (by simp +contextual [Node.numbers])
    have hnumber : number ≠ j := fun h => hfresh.1 (h ▸ hj)
    have htarget : j ∉ [target] := fun h => hfresh.2 (List.mem_singleton.mp h ▸ hj)
    exact (find?_record _ _ _ _).trans ((if_neg hnumber).trans
      (touches_assign _ _ (.head _) _ j htarget))

theorem reasonVariables_valued (modifier : Modifier) (last : Results) (nodes : List Node) (m : Moment) :
    w.reasonVariables around modifier last (⟨number, kind, span, [value]⟩ :: nodes) m =
      w.reasonVariables around modifier (w.reason (around.within number kind) value m).1 nodes
        (w.assign number (procedureNumber? value) (w.reason (around.within number kind) value m).1.first
          (w.reason (around.within number kind) value m).2).2 := by
  rw [reasonVariables]
  rfl

theorem reasonVariables_bare (last : Results) (nodes : List Node) (m : Moment) :
    w.reasonVariables around .localVariable last (⟨number, kind, span, []⟩ :: nodes) m =
      w.reasonVariables around .localVariable last nodes (w.assign number none .unset m).2 := by
  rw [reasonVariables]
  · rfl
  · simp

theorem declare_bare (nodes : List Node) : r.declare w.scopes σ (⟨number, kind, span, []⟩ :: nodes) =
      (r.declare w.scopes (σ.set (w.scopes.entryOf? number) .unset) nodes).after [] := by
  rw [Course.declare]
  · rfl
  · simp

/-- One declared name: the moment and the store after it. -/
theorem follows_variable {v : Node} (hv : Variable w.scopes v) (hs : Scene w r around.frame A X [v])
    (hl : w.Live m.memory.package X m.flow σ) (last : Results) :
    ∃ (m' : Moment) (last' : Results) (σ' : Store) (reads : List (Nat × Value)),
      (∀ nodes, w.reasonVariables around .localVariable last (v :: nodes) m =
        w.reasonVariables around .localVariable last' nodes m') ∧
      (∀ nodes, r.declare w.scopes σ (v :: nodes) = (r.declare w.scopes σ' nodes).after reads) ∧
      m'.memory.package = m.memory.package ∧ w.Live m.memory.package X m'.flow σ' ∧ Noted m' v.numbers reads := by
  cases hv with
  | @valued number name span value hvalue =>
    have hscene := hs.below
    have ha := assesses_operand hvalue (around.within number (.declared name)) m hscene.nodup_head
    have hcov := covers_value hvalue (around.within number (.declared name)) (m := m) hscene hl
    have hl' : w.Live m.memory.package X (w.reason (around.within number (.declared name)) value m).2.flow σ := by
      rw [ha.flow]
      exact hl
    refine ⟨_, _, _, _, reasonVariables_valued _ last (m := m), fun nodes => by rw [Course.declare],
      (keeps_assign _ _ _ _).trans ha.package, hl'.assign hcov number (procedureNumber? value), ?_⟩
    refine ((ha.noted hscene hl).later fun j hj => ?_).mono (by simp +contextual [Node.numbers])
    refine touches_assign _ _ (List.mem_singleton_self number) _ j fun h => hs.own ?_
    rw [← List.mem_singleton.mp h]
    simpa using hj
  | @bare number name span =>
    have hunset : TypeSet.unset.Covers Value.unset.type := TypeSet.covers_single _
    exact ⟨_, _, _, [], reasonVariables_bare last (m := m), fun nodes => declare_bare nodes,
      keeps_assign _ _ _ _, hl.assign hunset number none, noted_nil⟩

theorem follows_declare (around : Around) (hv : ∀ v ∈ nodes, Variable w.scopes v)
    (hs : Scene w r around.frame A X nodes) (hl : w.Live m.memory.package X m.flow σ) (last : Results) :
    w.Follows m.memory.package X (Node.numbersAll nodes) (w.reasonVariables around .localVariable last nodes m).2
      (r.declare w.scopes σ nodes) := by
  induction nodes generalizing m σ X last with
  | nil =>
    rw [reasonVariables, Course.declare]
    exact ⟨fun _ => hl.mono (by simp), noted_nil⟩
  | cons v nodes ih =>
    obtain ⟨m', last', σ', reads, hreason, hdeclare, hpackage, hl', hnoted⟩ :=
      follows_variable (hv v (by simp)) hs.head hl last
    rw [hreason, hdeclare, Node.numbersAll_cons]
    have hlive : w.Live m'.memory.package (v.numbers ++ X) m'.flow σ' := by
      rw [hpackage]
      exact hl'.mono (by simp +contextual)
    have hrest := ih (fun u hu => hv u (.tail v hu)) hs.next hlive last'
    rw [hpackage] at hrest
    exact hrest.after hnoted fun j hj => touches_reasonVariables w around _ _ nodes _ _ (hs.disjoint hj)

theorem simulates_locals {names : List Node} (hv : ∀ v ∈ names, Variable w.scopes v) :
    Simulates w r frame ⟨number, .declaration .localVariable false, span, names⟩ := by
  intro around m σ A X hframe hs hl
  subst hframe
  rw [reason, Course.exec, Node.numbers]
  exact (follows_declare (around.within number (.declaration .localVariable false)) hv hs.below hl .nothing).record hs.own _

/-! ## Statements one after the other -/

theorem simulates_returned {values : List Node} (hv : ∀ v ∈ values, Operand w.scopes v) :
    Simulates w r frame ⟨number, .returned, span, values⟩ := by
  intro around m σ A X hframe hs hl
  subst hframe
  obtain ⟨-, -, heach⟩ := assessed_reasonEach (fun v hm => assesses_operand (hv v hm)) hs.below.nodup
    (around.within number .returned) m
  rw [reason, Course.exec, Node.numbers]
  refine ⟨fun h => (by cases h), ?_⟩
  have hnoted : Noted (w.reasonEach (around.within number .returned) values m).2 (Node.numbersAll values)
      (values.flatMap (r.reads w.scopes σ)) := by
    intro p hp
    obtain ⟨v, hm, hp⟩ := List.mem_flatMap.mp hp
    exact ((heach v hm).noted (hs.below.mem hm) hl).mono (Node.numbers_subset hm) p hp
  refine (hnoted.later fun j hj => ?_).mono (by simp +contextual)
  have hne : number ≠ j := fun he => hs.own (he ▸ hj)
  exact (find?_record _ _ _ _).trans ((if_neg hne).trans
    ((touches_deliver around .returned _ : Touches [] _) _ j (by simp)))

theorem follows_each (around : Around) (hp : ∀ n ∈ nodes, Plain w.scopes n)
    (hsim : ∀ n ∈ nodes, Simulates w r around.frame n) (hs : Scene w r around.frame A X nodes)
    (hl : w.Live m.memory.package X m.flow σ) :
    w.Follows m.memory.package X (Node.numbersAll nodes) (w.reasonEach around nodes m).2 (r.execAll w.scopes σ nodes) := by
  induction nodes generalizing m σ X with
  | nil =>
    rw [reasonEach_nil, Course.execAll]
    exact ⟨fun _ => hl.mono (by simp), noted_nil⟩
  | cons n nodes ih =>
    have hfirst := hsim n (by simp) around m σ A X rfl hs.head hl
    have hpackage := hs.keeps (hp n (by simp)) around m
    have hkeep : ∀ j ∈ n.numbers, (w.reasonEach around nodes (w.reason around n m).2).2.memory.findings.results.find? j =
        (w.reason around n m).2.memory.findings.results.find? j :=
      fun j hj => touches_reasonEach w nodes around _ j (hs.disjoint hj)
    rw [reasonEach_cons, Course.execAll, Node.numbersAll_cons]
    split
    · rename_i hreturned
      refine ⟨fun h => ?_, (hfirst.noted.later hkeep).mono (by simp +contextual)⟩
      rw [hreturned] at h
      cases h
    · rename_i hreturned
      have hlive := hfirst.live (by simpa using hreturned)
      rw [← hpackage] at hlive
      have hrest := ih (fun k hk => hp k (.tail _ hk)) (fun k hk => hsim k (.tail _ hk))
        hs.next hlive
      rw [hpackage] at hrest
      exact hrest.after hfirst.noted hkeep

theorem simulates_block (hp : ∀ s ∈ statements, Plain w.scopes s) (hsim : ∀ s ∈ statements, Simulates w r frame s) :
    Simulates w r frame ⟨number, .block, span, statements⟩ := by
  intro around m σ A X hframe hs hl
  subst hframe
  have heach := follows_each (around.within number .block) hp hsim hs.below hl
  rw [reason, Course.exec, Node.numbers]
  have htaken : w.Follows m.memory.package X (Node.numbersAll statements)
      (Reason.takeEmitted number (w.reasonEach (around.within number .block) statements m).2).2
      (r.execAll w.scopes σ statements) := heach.later rfl (fun _ _ => rfl) (fun _ hj => hj)
  exact htaken.record hs.own _

theorem simulates_body (hp : ∀ s ∈ statements, Plain w.scopes s) (hsim : ∀ s ∈ statements, Simulates w r frame s) :
    Simulates w r frame ⟨number, .body, span, statements⟩ := by
  intro around m σ A X hframe hs hl
  subst hframe
  have heach := follows_each (around.within number .body) hp hsim hs.below hl
  rw [reason, Course.exec, Node.numbers]
  · exact heach.record hs.own _
  all_goals simp

/-! ## Conditionals -/

/-- What is known when the restriction of a condition is looked for. -/
def evidence (w : World) (k : Memory) : Evidence where
  scopes := w.scopes
  valueTypes number := ((k.findings.results.find? number).map Results.first).getD .undefined
  isExemplar := w.isExemplar k.package

/-- The restriction of a condition that has been assessed holds as it came out, and compares near entries. -/
theorem Assessed.holds (ha : w.Assessed frame c m m') (hc : BuiltFrom (Comparison w.scopes) c)
    (hs : Scene w r frame A X [c]) (hu : frame.receiverTypes = .single u) (σ : Store) :
    ((w.evidence m'.memory).outcome c (r.truth w.scopes σ c)).Holds σ ∧
      ∀ y ∈ ((w.evidence m'.memory).outcome c (r.truth w.scopes σ c)).compared, w.Near X y := by
  have hfits : r.Fits (w.evidence m'.memory) frame c := by
    constructor
    · intro number value hm
      obtain ⟨n, hn, rfl, hk⟩ := Test.exists_of_literal hm
      refine ⟨?_, hs.typed (by rwa [Node.drain_singleton]) hk⟩
      simp only [evidence, ha.literal hm]
      rfl
    · intro number hm
      have hk := Evidence.isKind_eq_false (e := w.evidence m'.memory) hc hm
      cases hk
  constructor
  · exact Evidence.outcome_holds (hc.mono fun _ => .comparison) hfits hu (Evidence.not_blurs_of_comparisons hc)
  · intro y hy
    obtain ⟨k, hk, hx⟩ := Evidence.exists_named_of_mem_compared (e := w.evidence m'.memory) hc hy
    obtain ⟨name, hname, hx⟩ := Option.bind_eq_some_iff.mp hx
    have hkind : k.kind = .identifier name := by
      unfold Node.identifierName? at hname
      split at hname <;> simp_all
    exact hs.near (by rwa [Node.drain_singleton]) hkind hx

theorem reasonBranches_tested (nodes : List Node) (m : Moment) :
    w.reasonBranches around before denied (⟨number, kind, span, [c, body]⟩ :: nodes) m =
      let inner := around.within number kind
      let tested := (w.reason inner c { m with flow := w.narrowed m.memory.package before denied }).2
      let res := w.restriction tested.memory c
      let ran := (w.reason inner body
        { tested with flow := w.narrowed m.memory.package tested.flow (denied ++ [res]) }).2
      let rest := w.reasonBranches around before (denied ++ [res.negate]) nodes
        (Reason.recordRestriction c.number res { ran with flow := m.flow }).2
      (ran.flow :: rest.1, rest.2) := by
  rw [reasonBranches]
  rfl

theorem reasonBranches_otherwise (nodes : List Node) (m : Moment) :
    w.reasonBranches around before denied (⟨number, kind, span, [body]⟩ :: nodes) m =
      let ran := (w.reasonEach (around.within number kind) [body]
        { m with flow := w.narrowed m.memory.package before denied }).2
      ([ran.flow], { ran with flow := m.flow }) := by
  rw [reasonBranches]
  · rfl
  · simp

/-- The branches of a conditional have been reasoned about: one of the flows they end in is the one of the run. -/
structure Branched (w : World) (package : String) (X ns : List Nat) (out : List Flow × Moment) (o : Outcome) : Prop where
  live : o.returned = false → ∃ f ∈ out.1, w.Live package (ns ++ X) f o.store
  noted : Noted out.2 ns o.reads

section

variable {around : Around} {before : Flow} {denied : List Restriction} {number : Nat} {span : Span} {c body : Node}

/-- All these restrictions hold, and they compare near entries. -/
def AllHold (w : World) (X : List Nat) (σ : Store) (rs : List Restriction) : Prop :=
  ∀ q ∈ rs, q.Holds σ ∧ ∀ y ∈ q.compared, w.Near X y

theorem AllHold.concat {q : Restriction} (h : w.AllHold X σ denied) (hq : q.Holds σ ∧ ∀ y ∈ q.compared, w.Near X y) :
    w.AllHold X σ (denied ++ [q]) := by
  intro q' hm
  rcases List.mem_append.mp hm with hm | hm
  · exact h q' hm
  · rw [List.mem_singleton.mp hm]
    exact hq

theorem AllHold.narrowed {f : Flow} (h : w.AllHold X σ denied) (hl : w.Live package X f σ) :
    w.Live package X (w.narrowed package f denied) σ :=
  hl.narrowed (fun q hq => (h q hq).1) fun q hq => (h q hq).2

theorem branched_tested (hu : around.frame.receiverTypes = .single u) (hc : BuiltFrom (Comparison w.scopes) c)
    (hp : Plain w.scopes body) (hsim : Simulates w r around.frame body)
    (hs : Scene w r around.frame A X (⟨number, .branch, span, [c, body]⟩ :: nodes))
    (hl : w.Live m.memory.package X before σ) (hd : w.AllHold X σ denied)
    (ih : ∀ {m : Moment} {denied : List Restriction}, w.Live m.memory.package X before σ → w.AllHold X σ denied →
      w.Branched m.memory.package X (Node.numbersAll nodes) (w.reasonBranches around before denied nodes m)
        (r.execBranches w.scopes σ nodes)) :
    w.Branched m.memory.package X (Node.numbersAll (⟨number, .branch, span, [c, body]⟩ :: nodes))
      (w.reasonBranches around before denied (⟨number, .branch, span, [c, body]⟩ :: nodes) m)
      (r.execBranches w.scopes σ (⟨number, .branch, span, [c, body]⟩ :: nodes)) := by
  have hscene := hs.head.below
  have hstart : w.Live m.memory.package X (w.narrowed m.memory.package before denied) σ := hd.narrowed hl
  have ha := assesses_condition hc (around.within number .branch)
    { m with flow := w.narrowed m.memory.package before denied } hscene.head.nodup_head
  have hreads := ha.noted hscene.head hstart
  have hholds := ha.holds hc hscene.head hu σ
  rw [reasonBranches_tested, Course.execBranches]
  dsimp only
  generalize (w.reason (around.within number .branch) c
    { m with flow := w.narrowed m.memory.package before denied }).2 = tested at ha hreads hholds ⊢
  let taken : Moment :=
    { tested with flow := w.narrowed m.memory.package tested.flow (denied ++ [w.restriction tested.memory c]) }
  have hpackage : (w.reason (around.within number .branch) body taken).2.memory.package = m.memory.package :=
    (hscene.tail.keeps hp _ taken).trans ha.package
  have hbody := hsim (around.within number .branch) taken σ (number :: A) X rfl hscene.tail
  have htouch := touches_reason w body (around.within number .branch) taken
  generalize (w.reason (around.within number .branch) body taken).2 = ran at hpackage hbody htouch ⊢
  -- neither the body nor the branches after it change what is noted of the condition
  let after : Moment := (Reason.recordRestriction c.number (w.restriction tested.memory c) { ran with flow := m.flow }).2
  have hrest := touches_reasonBranches w around before (denied ++ [(w.restriction tested.memory c).negate]) nodes after
  have hkeepBody : ∀ j ∈ body.numbers, _ = ran.memory.findings.results.find? j :=
    fun j hj => hrest j (hs.disjoint (by simp [Node.numbers, hj]))
  have hkeepTest : ∀ j ∈ c.numbers, _ = tested.memory.findings.results.find? j :=
    fun j hj => (hrest j (hs.disjoint (by simp [Node.numbers, hj]))).trans
      (htouch j (by simpa using hscene.disjoint hj))
  have hreads : Noted _ (Node.numbersAll (⟨number, .branch, span, [c, body]⟩ :: nodes)) (r.reads w.scopes σ c) :=
    (hreads.later hkeepTest).mono (by simp +contextual [Node.numbers])
  cases htruth : r.truth w.scopes σ c with
  | true =>
    have hq : (w.restriction tested.memory c).Holds σ ∧ ∀ y ∈ (w.restriction tested.memory c).compared, w.Near X y := by
      rw [htruth] at hholds
      exact hholds
    have hlive : w.Live taken.memory.package X taken.flow σ := by
      rw [show taken.memory.package = m.memory.package from ha.package]
      refine (hd.concat hq).narrowed ?_
      rw [ha.flow]
      exact hstart
    have hf := hbody hlive
    rw [show taken.memory.package = m.memory.package from ha.package] at hf
    refine ⟨fun ho => ⟨ran.flow, .head _, (hf.live ho).mono ?_⟩, hreads.append
      ((hf.noted.later hkeepBody).mono (by simp +contextual [Node.numbers]))⟩
    simp +contextual [Node.numbers, or_imp]
  | false =>
    have hq : (w.restriction tested.memory c).negate.Holds σ ∧
        ∀ y ∈ (w.restriction tested.memory c).negate.compared, w.Near X y := by
      rw [htruth] at hholds
      exact hholds
    have hlive : w.Live after.memory.package X before σ := by
      rw [show after.memory.package = m.memory.package from hpackage]
      exact hl
    have hothers := ih hlive (hd.concat hq)
    rw [show after.memory.package = m.memory.package from hpackage] at hothers
    refine ⟨fun ho => ?_, hreads.append (hothers.noted.mono (by simp +contextual))⟩
    obtain ⟨f, hf, hlf⟩ := hothers.live ho
    refine ⟨f, .tail _ hf, hlf.mono ?_⟩
    simp +contextual

theorem branched_otherwise (hp : Plain w.scopes body) (hsim : Simulates w r around.frame body)
    (hs : Scene w r around.frame A X (⟨number, .otherwise, span, [body]⟩ :: nodes))
    (hl : w.Live m.memory.package X before σ) (hd : w.AllHold X σ denied) :
    w.Branched m.memory.package X (Node.numbersAll (⟨number, .otherwise, span, [body]⟩ :: nodes))
      (w.reasonBranches around before denied (⟨number, .otherwise, span, [body]⟩ :: nodes) m)
      (r.execBranches w.scopes σ (⟨number, .otherwise, span, [body]⟩ :: nodes)) := by
  let start : Moment := { m with flow := w.narrowed m.memory.package before denied }
  have hone : ∀ k ∈ [body], Simulates w r (around.within number .otherwise).frame k := by
    intro k hk
    rw [List.mem_singleton.mp hk]
    exact hsim
  have hf : w.Follows start.memory.package X _ _ _ :=
    follows_each (around.within number .otherwise) (by simpa using hp) hone hs.head.below (hd.narrowed hl)
  rw [reasonBranches_otherwise, Course.execBranches]
  · refine ⟨fun ho => ⟨_, List.mem_singleton_self _, (hf.live ho).mono ?_⟩, ?_⟩
    · simp +contextual [Node.numbers, or_imp]
    · exact (hf.noted.later fun _ _ => rfl).mono (by simp +contextual [Node.numbers])
  · simp

theorem branched_all (around : Around) (hu : around.frame.receiverTypes = .single u) (hb : ∀ b ∈ nodes, Branch w.scopes b)
    (hp : ∀ b ∈ nodes, ∀ body ∈ b.children.getLast?, Plain w.scopes body)
    (hsim : ∀ b ∈ nodes, ∀ body ∈ b.children.getLast?, Simulates w r around.frame body)
    (hs : Scene w r around.frame A X nodes) (hl : w.Live m.memory.package X before σ) (hd : w.AllHold X σ denied) :
    w.Branched m.memory.package X (Node.numbersAll nodes) (w.reasonBranches around before denied nodes m)
      (r.execBranches w.scopes σ nodes) := by
  induction nodes generalizing m denied with
  | nil =>
    rw [reasonBranches, Course.execBranches]
    exact ⟨fun _ => ⟨_, List.mem_singleton_self _, (hd.narrowed hl).mono (by simp)⟩, noted_nil⟩
  | cons b nodes ih =>
    have hpb := hp b (by simp)
    have hsb := hsim b (by simp)
    cases hb b (by simp) with
    | tested hc =>
      refine branched_tested hu hc (hpb _ rfl) (hsb _ rfl) hs hl hd ?_
      exact ih (fun k hk => hb k (.tail _ hk)) (fun k hk => hp k (.tail _ hk))
        (fun k hk => hsim k (.tail _ hk)) hs.tail
    | otherwise => exact branched_otherwise (hpb _ rfl) (hsb _ rfl) hs hl hd

end

/-- The branches that are still alive are joined; if there are none, the flow is left. -/
theorem flow_merge (inside : List Nat) (before : Flow) (outcomes : List Flow) (m : Moment) :
    (w.merge inside before outcomes m).2.flow =
      if outcomes.filter (!·.exited) = [] then before.exit
      else w.mergeLive m.memory.package inside before (outcomes.filter (!·.exited)) := by
  have hpackage : ((outcomes.filter (·.exited)).forM (Reason.retire before) m).2.memory.package = m.memory.package :=
    keeps_of_calm (.listForM fun flow => .retire before flow : Calm [] [] _) m
  unfold merge
  cases hl : outcomes.filter (!·.exited) with
  | nil => rfl
  | cons first rest =>
    rw [← hpackage]
    rfl

theorem merge_flow (inside : List Nat) (before : Flow) {f : Flow} {outcomes : List Flow} (hf : f ∈ outcomes)
    (he : f.exited = false) (m : Moment) :
    ∃ live, f ∈ live ∧ (w.merge inside before outcomes m).2.flow =
      w.mergeLive m.memory.package inside before live := by
  have hm : f ∈ outcomes.filter (!·.exited) := List.mem_filter.mpr ⟨hf, by simp [he]⟩
  exact ⟨_, hm, (flow_merge ..).trans (if_neg (List.ne_nil_of_mem hm))⟩

theorem simulates_conditional (hu : frame.receiverTypes = .single u) {branches : List Node}
    (hb : ∀ b ∈ branches, Branch w.scopes b) (hp : ∀ b ∈ branches, ∀ body ∈ b.children.getLast?, Plain w.scopes body)
    (hsim : ∀ b ∈ branches, ∀ body ∈ b.children.getLast?, Simulates w r frame body) :
    Simulates w r frame ⟨number, .conditional, span, branches⟩ := by
  intro around m σ A X hframe hs hl
  subst hframe
  have hnone : w.AllHold X σ [] := by simp [AllHold]
  have hall := branched_all (around.within number .conditional) hu hb hp hsim hs.below hl hnone
  rw [reason, Course.exec]
  let inside := number :: (Node.drain branches).map Node.number
  let out := w.reasonBranches (around.within number .conditional) m.flow [] branches m
  have hinside : (Node.mk number .conditional span branches).numbers = inside := by
    rw [Node.numbers, ← Node.map_number_drain]
  have hpackage : out.2.memory.package = m.memory.package := by
    have hkept := hs.keeps (.conditional hb hp) around m
    rw [reason] at hkept
    exact (keeps_merge inside m.flow out.1 out.2).symm.trans hkept
  have hmerge := (touches_merge inside m.flow out.1 : Touches [] (w.merge inside m.flow out.1)) out.2
  rw [hinside]
  constructor
  · intro ho
    obtain ⟨f, hf, hlive⟩ := hall.live ho
    obtain ⟨live, hm, hflow⟩ : ∃ live, f ∈ live ∧ (w.merge inside m.flow out.1 out.2).2.flow = _ :=
      merge_flow inside m.flow hf hlive.exited out.2
    show w.Live m.memory.package (inside ++ X) (w.merge inside m.flow out.1 out.2).2.flow _
    rw [hflow, hpackage]
    refine (hlive.mono fun k hk => ?_).mergeLive hm m.flow
    rw [← hinside, Node.numbers]
    exact .tail _ hk
  · rw [← hinside, Node.numbers]
    refine (hall.noted.later fun j hj => ?_).mono (by simp +contextual)
    have hne : number ≠ j := fun he => hs.own (he ▸ hj)
    exact (find?_record _ _ _ _).trans ((if_neg hne).trans (hmerge j (by simp)))

/-- Reasoning about a plain body follows its runs. -/
theorem simulates_plain (hu : frame.receiverTypes = .single u) (h : Plain w.scopes n) : Simulates w r frame n := by
  induction h with
  | operand h => exact simulates_operand h
  | assignment _ hv => exact simulates_assignment hv
  | locals h => exact simulates_locals h
  | returned h => exact simulates_returned h
  | block hp ih => exact simulates_block hp ih
  | body hp ih => exact simulates_body hp ih
  | conditional hb hp ih => exact simulates_conditional hu hb hp ih

end Magik.World
