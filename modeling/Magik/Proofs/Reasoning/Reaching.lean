/-
  Magik.Proofs.Reasoning.Reaching — when reasoning comes to a node.

  Reasoning about a node comes to its parts, each at a moment of its own (`Enters`), and so
  on to every node that is reasoned about (`exists_comes`). What is found at a node is found
  when reasoning comes to it (`Comes.found`). Reasoning goes forward: if what stands before
  a node keeps an invariant, it holds when the node is reached, whatever comes later
  (`Comes.holds`).
-/

import Magik.Proofs.Reasoning.Turns
import Magik.Proofs.Reasoning.Upkeep

namespace Magik

open Node (Way Proper numbersAll)

namespace World

/-! ## Parts that are entered -/

/-- The moment at which something starts along a flow that has been made out. -/
def begun (p : Reason Flow) (m : Moment) : Moment := ⟨(p m).1, (p m).2.memory⟩

/-- The branches of a conditional are entered at their conditions and bodies. -/
inductive EntersBranch (w : World) (around : Around) (before : Flow) :
    List Restriction → Memory → List Node → Around → Node → Moment → Prop
  | condition {denied k number span condition body ns} :
      EntersBranch w around before denied k (⟨number, .branch, span, [condition, body]⟩ :: ns) (around.within number .branch)
        condition (w.turn (around.within number .branch) before denied k condition body).start
  | body {denied k number span condition body ns} :
      EntersBranch w around before denied k (⟨number, .branch, span, [condition, body]⟩ :: ns) (around.within number .branch)
        body (w.turn (around.within number .branch) before denied k condition body).entered
  | next {denied k number span condition body ns inner c m t}
      (ht : t = w.turn (around.within number .branch) before denied k condition body)
      (h : EntersBranch w around before (denied ++ [t.restriction.negate]) t.after ns inner c m) :
      EntersBranch w around before denied k (⟨number, .branch, span, [condition, body]⟩ :: ns) inner c m
  | otherwise {denied k number span body} :
      EntersBranch w around before denied k [⟨number, .otherwise, span, [body]⟩] (around.within number .otherwise) body
        ⟨w.narrowed k.package before denied, k⟩

/-- Reasoning about a node, from a moment on, comes to one of its parts. -/
inductive Enters (w : World) (around : Around) : Node → Moment → Around → Node → Moment → Prop
  | part {number kind span heads before c after q m} (hl : kind.isLeaf = false) (hk : ∀ d ∈ before, d.kind.isReasoned)
      (hq : Closes w around number kind heads (before ++ c :: after) q) :
      Enters w around ⟨number, kind, span, heads ++ (before ++ c :: after)⟩ m (around.within number kind) c
        (w.reasonEach (around.within number kind) before m).2
  | value {number modifier span before own name place value after m} :
      Enters w around ⟨number, .declaration modifier false, span, before ++ ⟨own, .declared name, place, [value]⟩ :: after⟩ m
        ((around.within number (.declaration modifier false)).within own (.declared name)) value
        (w.reasonVariables (around.within number (.declaration modifier false)) modifier .nothing before m).2
  | branch {number span branches m inner c k}
      (h : EntersBranch w (around.within number .conditional) m.flow [] m.memory branches inner c k) :
      Enters w around ⟨number, .conditional, span, branches⟩ m inner c k
  | test {number kind span heads test body start m} (ht : Starts w kind heads [test] start) :
      Enters w around ⟨number, kind, span, heads ++ ([test] ++ [body])⟩ m (around.within number kind) test m
  | round {number kind span heads tests body start m k} (hk : ∀ d ∈ tests, d.kind.isReasoned)
      (ht : Starts w kind heads tests start) (h : k = (w.reasonEach (around.within number kind) tests m).2) :
      Enters w around ⟨number, kind, span, heads ++ (tests ++ [body])⟩ m (around.within number kind) body (begun (start k.flow) k)
  | leg {number span children m leg}
      (h : leg ∈ (w.legs (around.within number .attempt) m.flow none m.memory children).1) :
      Enters w around ⟨number, .attempt, span, children⟩ m (around.within number .attempt) leg.part leg.start
  | definition {number kind span list body framed close m} (hd : Defines w around number kind framed close) :
      Enters w around ⟨number, kind, span, [list, body]⟩ m { around.within number kind with frame := (framed m).1 } body
        (begun (w.parameters kind.typeDoc .start list.children) m)

/-- Reasoning comes to a node, through parts of parts. -/
inductive Comes (w : World) (inner : Around) (last : Node) (k : Moment) : Around → Node → Moment → Prop
  | here : Comes w inner last k inner last k
  | on {around n m a c m'} (h : Enters w around n m a c m') (hs : Comes w inner last k a c m') :
      Comes w inner last k around n m

variable {w : World} {around inner : Around} {n c last : Node} {m k : Moment} {ns : List Node} {before : Flow}
  {denied : List Restriction} {binding : Option String} {leg : Leg} {j number : Nat} {kind : Node.Kind}
  {heads : List Node}

theorem EntersBranch.under {k : Memory} (h : EntersBranch w around before denied k ns inner c m) :
    ∃ b ∈ ns, c ∈ b.children := by
  induction h with
  | condition | body => exact ⟨_, .head _, by simp⟩
  | next _ _ ih =>
    obtain ⟨b, hb, hc⟩ := ih
    exact ⟨b, .tail _ hb, hc⟩
  | otherwise => exact ⟨_, .head _, by simp⟩

theorem part_mem_legs {k : Memory} (h : leg ∈ (w.legs around before binding k ns).1) : leg.part ∈ ns := by
  induction ns generalizing binding k with
  | nil => simp [legs] at h
  | cons n ns ih =>
    rw [legs] at h
    split at h
    · exact .tail _ (ih h)
    · exact (List.mem_cons.mp h).elim (fun he => he ▸ (.head _)) fun h => .tail _ (ih h)

theorem Enters.under (h : Enters w around n m inner c k) : ∃ d ∈ n.children, c ∈ d.withDescendants := by
  cases h with
  | part | test | round | definition => exact ⟨c, by simp, Way.root.mem_withDescendants⟩
  | value => exact ⟨_, List.mem_append_right _ (.head _), (Way.child .root (by simp)).mem_withDescendants⟩
  | branch h =>
    obtain ⟨b, hb, hc⟩ := h.under
    exact ⟨b, hb, (Way.child .root hc).mem_withDescendants⟩
  | leg h => exact ⟨_, part_mem_legs h, Way.root.mem_withDescendants⟩

theorem Enters.way (h : Enters w around n m inner c k) : ∃ as, Way n c as :=
  let ⟨_, hd, hc⟩ := h.under
  Node.mem_withDescendants_iff.mp (Node.mem_withDescendants hd hc)

/-! ## What is found -/

/-- What is noted in a part of a try is noted when the part is gone through. -/
theorem found_leg {k : Memory} (hn : Proper ns) (h : leg ∈ (w.legs around before binding k ns).1)
    (hj : j ∈ leg.part.numbers) :
    (w.legs around before binding k ns).2.findings.results.find? j =
      (w.reason around leg.part leg.start).2.memory.findings.results.find? j := by
  induction ns generalizing binding k with
  | nil => simp [legs] at h
  | cons n ns ih =>
    by_cases hk : ∃ name, n.kind = .attemptVariable name
    · obtain ⟨name, hk⟩ := hk
      rw [legs_variable hk] at h ⊢
      exact ih hn.tail h
    · rw [not_exists] at hk
      rw [legs_part hk] at h ⊢
      rcases List.mem_cons.mp h with rfl | h
      · let done := (w.reason around n ⟨if Around.isHandler n.kind then w.handlerFlow before binding n else before, k⟩).2
        have htouches := touches_reasonAttempt w around before binding ns done j (hn.disjoint hj)
        rw [reasonAttempt_eq] at htouches
        exact htouches
      · exact ih hn.tail h

/-- What is noted in a part of a branch is noted when the part is gone through. -/
theorem EntersBranch.found {k : Memory} (h : EntersBranch w around before denied k ns inner c m) (hn : Proper ns)
    (hj : j ∈ c.numbers) (f : Flow) : (w.reasonBranches around before denied ns ⟨f, k⟩).2.memory.findings.results.find? j =
      (w.reason inner c m).2.memory.findings.results.find? j := by
  induction h with
  | @condition denied k number span condition body ns =>
    have hparts : Proper [condition, body] := hn.inside (.head _)
    have hrest := hn.disjoint (Node.mem_numbers_of_child (by simp) hj)
    rw [reasonBranches]
    refine (touches_reasonBranches w around before _ ns _ j hrest).trans ?_
    exact touches_reason w body _ _ j fun hm => hparts.disjoint hj (by simpa using hm)
  | @body denied k number span condition body ns =>
    have hrest := hn.disjoint (Node.mem_numbers_of_child (by simp) hj)
    rw [reasonBranches]
    exact touches_reasonBranches w around before _ ns _ j hrest
  | next ht _ ih =>
    subst ht
    rw [reasonBranches]
    exact ih hn.tail hj
  | otherwise =>
    rw [reasonBranches, reasonEach, reasonEach]
    · rfl
    · simp

theorem reasonVariables_append (around : Around) (modifier : Modifier) (r : Results) (vs vs' : List Node) :
    w.reasonVariables around modifier r (vs ++ vs') = (do
      w.reasonVariables around modifier (← w.reasonVariables around modifier r vs) vs') := by
  induction vs generalizing r with
  | nil =>
    rw [List.nil_append, reasonVariables]
    rfl
  | cons v vs ih =>
    obtain ⟨number, kind, span, children⟩ := v
    by_cases hc : ∃ value, children = [value]
    · obtain ⟨value, rfl⟩ := hc
      rw [List.cons_append, reasonVariables, reasonVariables]
      simp only [ih]
      rfl
    · rw [List.cons_append, reasonVariables, reasonVariables]
      · simp only [ih]
        rfl
      all_goals
        intro _ _ _ value he
        cases he
        exact hc ⟨value, rfl⟩

theorem Closes.touches {parts : List Node} {q : List Results → Reason Results}
    (h : Closes w around number kind heads parts q) (span : Span) (rs : List Results) :
    Touches ((heads ++ Node.given ⟨number, kind, span, heads ++ parts⟩).map Node.number) (q rs) := by
  have hhead : ∀ c ∈ heads, c.number ∈ (heads ++ Node.given ⟨number, kind, span, heads ++ parts⟩).map Node.number :=
    fun c hc => List.mem_map_of_mem (List.mem_append_left _ hc)
  cases h with
  | made => exact .pure _
  | package => exact .bind (.changeMemory fun _ => rfl) fun _ => .pure _
  | name => exact .of_slight (slight_readName number number)
  | invocation => exact .of_slight (slight_invocation _ _ _)
  | call => exact .of_slight (slight_call _)
  | deliver => exact .bind (touches_deliver _ _ _) fun _ => .pure _
  | depart => exact .bind (.changeFlow _) fun _ => .pure _
  | enclosure => exact touches_takeEmitted _
  | assignment => exact .bind (touches_assign _ _ (hhead _ (by simp))) fun _ => .pure _
  | augmented => exact .bind (touches_assign _ _ (by simp [Node.given, Node.Kind.isAssignment])) fun _ => .pure _
  | several | shared => exact .bind (touches_assignEach _ hhead 0) fun _ => .pure _

theorem Starts.touches {tests : List Node} {start : Flow → Reason Flow} (h : Starts w kind heads tests start)
    (before : Flow) : Touches (heads.map Node.number) (start before) := by
  cases h with
  | forLoop => exact .bind .memory fun _ => .of_calm (.loopVariables _ (fun _ => List.mem_map_of_mem) 0 before : Calm _ [] _)
  | whileLoop => exact fun _ _ _ => rfl
  | plainLoop => exact .pure _

theorem Touches.same {α : Type} {p : Reason α} (h : Touches [] p) (m : Moment) (j : Nat) :
    (p m).2.memory.findings.results.find? j = m.memory.findings.results.find? j :=
  h m j List.not_mem_nil

theorem results_noted (p : Reason Results) (m : Moment) (h : number ≠ j) :
    (noted number p m).2.memory.findings.results.find? j = (p m).2.memory.findings.results.find? j :=
  (Table.find?_insert _ _ _ _).trans (if_neg h)

theorem not_mem_heads (hn : Proper (heads ++ ns)) (hj : j ∈ numbersAll ns) : j ∉ heads.map Node.number := by
  have hnodup := hn.nodup
  rw [Node.numbersAll_append, List.nodup_append] at hnodup
  exact fun hm => hnodup.2.2 j ((Node.map_number_sublist heads).subset hm) j hj rfl

/-- What is noted in a part is noted when the part is gone through, unless the node gives
    it a value. -/
theorem Enters.found (h : Enters w around n m inner c k) (hn : Proper [n]) (hj : j ∈ c.numbers)
    (hg : ∀ t ∈ n.given, t.number ≠ j) :
    (w.reason around n m).2.memory.findings.results.find? j = (w.reason inner c k).2.memory.findings.results.find? j := by
  have hcn : Proper n.children := hn.inside (by simp)
  have hown : n.number ≠ j := by
    obtain ⟨d, hd, hc⟩ := h.under
    obtain ⟨as, hw⟩ := Node.mem_withDescendants_iff.mp hc
    exact fun he => hn.own (Node.numbers_subset hd _ (he ▸ hw.numbers_subset j hj))
  cases h with
  | @part number kind span heads before _ after q _ hl hk hq =>
    have hafter : j ∉ numbersAll after := ((hcn.of_sublist (List.sublist_append_right _ _)).of_sublist
      (List.sublist_append_right _ _)).disjoint hj
    have htargets : j ∉ (heads ++ Node.given ⟨number, kind, span, heads ++ (before ++ c :: after)⟩).map Node.number := by
      rw [List.map_append, List.mem_append, not_or]
      refine ⟨not_mem_heads hcn (Node.numbers_subset (by simp) j hj), fun hm => ?_⟩
      obtain ⟨t, ht, he⟩ := List.mem_map.mp hm
      exact hg t ht he
    rw [hq.reason_eq hl, results_noted _ _ hown]
    refine (hq.touches span _ _ j htargets).trans ?_
    rw [reasonEach_append, reasonEach_cons]
    exact touches_reasonEach w after _ _ j hafter
  | @value number modifier span before own name place _ after _ =>
    have hv := hcn.of_sublist (List.sublist_append_right before (⟨own, .declared name, place, [c]⟩ :: after))
    have hne : j ∉ [own] := (hv.of_mem (.head _)).not_own (by simpa using hj)
    let a := around.within number (.declaration modifier false)
    let start := w.reasonVariables a modifier .nothing before m
    have hrun : (w.reasonVariables a modifier start.1 (⟨own, .declared name, place, [c]⟩ :: after)
        start.2).2.memory.findings.results.find? j =
          (w.reason (a.within own (.declared name)) c start.2).2.memory.findings.results.find? j := by
      rw [reasonVariables]
      refine (touches_reasonVariables w _ _ _ after _ j (hv.disjoint (Node.mem_numbers_of_child (by simp) hj))).trans ?_
      exact touches_assign _ _ (.head _) _ j hne
    rw [reason, reasonVariables_append]
    exact (results_noted _ _ hown).trans hrun
  | branch h =>
    rw [reason]
    refine (results_noted _ _ hown).trans ((Touches.same (touches_takeEmitted _) _ j).trans ?_)
    exact (Touches.same (touches_merge _ _ _) _ j).trans (h.found hcn hj m.flow)
  | @test number kind span heads _ body start _ ht =>
    have hbody : j ∉ body.numbers := by
      simpa using (hcn.of_sublist (List.sublist_append_right heads ([c] ++ [body]))).disjoint hj
    rw [ht.reason_eq, reasonEach, reasonEach]
    refine (results_noted _ _ hown).trans ?_
    refine (touches_reason w body _ _ j hbody).trans ?_
    exact ht.touches _ _ j (not_mem_heads hcn (Node.numbers_subset (by simp) j hj))
  | round hk ht h =>
    subst h
    rw [ht.reason_eq]
    refine (results_noted _ _ hown).trans ?_
    exact Touches.same (touches_takeEmitted _) _ j
  | @leg number span children _ leg h =>
    rw [(handlersStart (hn.formed _ (.head _)) rfl).run]
    refine (results_noted _ _ hown).trans ((Touches.same (touches_takeEmitted _) _ j).trans ?_)
    exact (Touches.same (touches_merge _ _ _) _ j).trans (found_leg hcn h hj)
  | definition hd =>
    rw [hd.reason_eq]
    refine (results_noted _ _ hown).trans ?_
    cases hd with
    | method => exact Touches.same (touches_finish _) _ j
    | procedure => exact Touches.same (touches_finish _) _ j

/-! ## What stands before a node -/

end World

namespace Node

/-- Below a node, one node stands before another. -/
def Before (root a b : Node) : Prop :=
  ∃ p as c d, Way root p as ∧ [c, d].Sublist p.children ∧ a ∈ c.withDescendants ∧ b ∈ d.withDescendants

end Node

namespace World

variable {w : World} {around inner : Around} {n c last : Node} {m k : Moment} {as ns : List Node} {before : Flow}
  {denied : List Restriction} {I : Invariant w} {κ : I.Known}

/-- What stands before some node in another keeps an invariant of any types. -/
structure Until (I : Invariant w) (last n : Node) : Prop where
  types : I.types = fun _ => True
  node {p a b : Node} {as : List Node} : Way n p as → [a, b].Sublist p.children → last ∈ b.withDescendants → I.node a
  tested {p a b : Node} {as : List Node} {k : Memory} : Way n p as → [a, b].Sublist p.children → last ∈ b.withDescendants →
    p.tested? = some a → I.package k.package → I.restriction (w.restriction k a)
  caught {p : Node} {as : List Node} {names : List String} {κ : I.Known} {f : Flow} {binding : Option String} :
    Way n p as → last ∈ p.withDescendants → p.kind = .handler names → I.flow κ f → I.flow κ (w.handlerFlow f binding p)

theorem Until.below (h : Until I last n) (hw : Way n c as) : Until I last c where
  types := h.types
  node hp := h.node (hw.trans hp)
  tested hp := h.tested (hw.trans hp)
  caught hp := h.caught (hw.trans hp)

section

variable (hu : Until I last n)
include hu

theorem Until.restricts {a b : Node} {k : Memory} (hs : [a, b].Sublist n.children) (hl : last ∈ b.withDescendants)
    (ht : n.tested? = some a) (hk : I.package k.package) : I.Restricts (w.restriction k a) :=
  ⟨hu.types ▸ Restriction.all_true _, hu.tested .root hs hl ht hk⟩

theorem Until.holds {p : Reason Results} (h : Reasons w around c p) (hc : I.node c) (hm : I.Holds κ m) : I.Holds κ (p m).2 :=
  (h.records (hu.types ▸ c.framed_true _) hc κ m hm).2

theorem Until.holdsEach (h : ∀ d ∈ ns, d.Formed ∧ I.node d) (hk : ∀ d ∈ ns, d.kind.isReasoned) (hm : I.Holds κ m) :
    I.Holds κ (w.reasonEach around ns m).2 :=
  ((reasonsEach (fun d hd => ruled_of_formed (h d hd).1) hk around).records (fun d _ => hu.types ▸ d.framed_true _)
    (fun d hd => (h d hd).2) κ m hm).2

end

/-- Before a part of a branch, what comes first is gone through. -/
theorem EntersBranch.holds {k : Memory} (h : EntersBranch w around before denied k ns inner c m) (hf : n.Formed)
    (hk : n.kind = .conditional) (hs : ns.Sublist n.children) (hu : Until I last n) (hl : last ∈ c.withDescendants)
    (hb : I.Along κ before) (hm : I.Within k) (hd : ∀ r ∈ denied, I.Restricts r) : I.Holds κ m := by
  have hreasons : ∀ {b c}, b ∈ n.children → c ∈ b.children → ∀ a, Reasons w a c (w.reason a c) := fun hb hc =>
    reasons_part (hf.child hb) (branch_or_otherwise hf hk hb) hc
  induction h with
  | condition => exact ⟨hb.narrowed hm hd, hm⟩
  | @body denied k number span condition body ns =>
    have hbranch : ⟨number, .branch, span, [condition, body]⟩ ∈ n.children := hs.subset (.head _)
    have hub := hu.below (.child .root hbranch)
    have ht : I.Holds κ (w.turn (around.within number .branch) before denied k condition body).tested :=
      hu.holds (hreasons hbranch (by simp) _) (hub.node .root (.refl _) hl) ⟨hb.narrowed hm hd, hm⟩
    have hr := hub.restricts (.refl _) hl rfl ht.memory.package
    exact ⟨ht.flow.narrowed hm (List.forall_mem_append.mpr ⟨hd, List.forall_mem_singleton.mpr hr⟩), ht.memory⟩
  | @next denied k number span condition body ns inner c m t heq h ih =>
    subst heq
    have hbranch : ⟨number, .branch, span, [condition, body]⟩ ∈ n.children := hs.subset (.head _)
    obtain ⟨e, he, hce⟩ := h.under
    have hnode : I.node ⟨number, .branch, span, [condition, body]⟩ :=
      hu.node .root ((List.singleton_sublist.mpr he).cons_cons _ |>.trans hs) (Node.mem_withDescendants hce hl)
    let t := w.turn (around.within number .branch) before denied k condition body
    have ht : I.Holds κ t.tested :=
      hu.holds (hreasons hbranch (by simp) _) (I.child hnode (by simp)) ⟨hb.narrowed hm hd, hm⟩
    have hr : I.Restricts t.restriction := ht.memory.restricts hnode (c := condition) rfl
    have hleft : I.Holds κ t.left := hu.holds (hreasons hbranch (by simp) _) (I.child hnode (by simp))
      ⟨ht.flow.narrowed hm (List.forall_mem_append.mpr ⟨hd, List.forall_mem_singleton.mpr hr⟩), ht.memory⟩
    refine ih ((List.sublist_cons_self _ _).trans hs) hl (Records.recordRestriction hr _ hleft).2.memory ?_
    exact List.forall_mem_append.mpr ⟨hd, List.forall_mem_singleton.mpr hr.negate⟩
  | otherwise => exact ⟨hb.narrowed hm hd, hm⟩

/-- Variables of a declaration are reasoned about by the rules. -/
theorem reasonsVariables_of_formed {modifier : Modifier} {r : Results}
    (h : ∀ v ∈ ns, v.Formed ∧ ∃ name, v.kind = .declared name) :
    ReasonsVariables w around modifier r ns (w.reasonVariables around modifier r ns) := by
  refine reasonsVariables fun v hv => ?_
  obtain ⟨hf, name, hk⟩ := h v hv
  have hl := hf.layout
  rw [hk] at hl
  refine ⟨⟨name, hk⟩, hl.declared.imp_right fun ⟨value, hc, hx⟩ => ?_⟩
  exact ⟨value, hc, Node.Kind.isReasoned_of_isExpression hx, ruled_of_formed (hf.child (by simp [hc]))⟩

/-- Where a part is entered, what stands before some node in it has kept the invariant. -/
theorem Enters.holds (h : Enters w around n m inner c k) (hf : n.Formed) (hu : Until I last n) (hl : last ∈ c.withDescendants)
    (hκ : n.kind.isDefinition = false → κ = I.fresh) (hm : I.Holds κ m) : I.Holds I.fresh k := by
  have hfresh : n.kind.isDefinition = false → I.Holds I.fresh m := fun hk => hκ hk ▸ hm
  cases h with
  | @part number kind span heads before _ after q _ _ hk hq =>
    have hbefore : ∀ d ∈ before, [d, c].Sublist (heads ++ (before ++ c :: after)) := fun d hd =>
      ((List.singleton_sublist.mpr hd).append (List.singleton_sublist.mpr (.head _))).trans
        (List.sublist_append_right _ _)
    have hkind : kind.isDefinition = false := by
      have hs := hq.isStraight
      cases kind <;> first | rfl | cases hs
    exact hu.holdsEach (fun d hd => ⟨hf.child ((hbefore d hd).subset (by simp)), hu.node .root (hbefore d hd) hl⟩) hk
      (hfresh hkind)
  | @value number modifier span before own name place _ after _ =>
    have hlast : last ∈ Node.withDescendants ⟨own, .declared name, place, [c]⟩ := Node.mem_withDescendants (by simp) hl
    have hbefore : ∀ d ∈ before, [d, ⟨own, .declared name, place, [c]⟩].Sublist
        (before ++ ⟨own, .declared name, place, [c]⟩ :: after) := fun d hd =>
      (List.singleton_sublist.mpr hd).append (List.singleton_sublist.mpr (.head _))
    have hreasons : ReasonsVariables w (around.within number (.declaration modifier false)) modifier .nothing before _ :=
      reasonsVariables_of_formed fun v hv => ⟨hf.child (by simp [hv]), hf.layout.of_separate v (by simp [hv])⟩
    exact (hreasons.records Results.all_nothing (fun _ _ => hu.types ▸ trivial) (fun d _ => hu.types ▸ d.framed_true _)
      (fun d hd => hu.node .root (hbefore d hd) hlast) _ m (hfresh rfl)).2
  | branch h => exact h.holds hf rfl (.refl _) hu hl (hfresh rfl).flow (hfresh rfl).memory (by simp)
  | test ht => exact hfresh (by cases ht <;> rfl)
  | @round number kind span heads tests body start _ _ hk ht h =>
    subst h
    have hkind : kind.isDefinition = false := by cases ht <;> rfl
    have hbefore : ∀ d ∈ heads ++ tests, [d, c].Sublist (heads ++ (tests ++ [c])) := fun d hd =>
      List.append_assoc heads tests [c] ▸ (List.singleton_sublist.mpr hd).append (.refl _)
    have hnode : ∀ d ∈ heads ++ tests, I.node d := fun d hd => hu.node .root (hbefore d hd) hl
    have htests : I.Holds I.fresh (w.reasonEach (around.within number kind) tests m).2 :=
      hu.holdsEach (fun d hd => ⟨hf.child (by simp [hd]), hnode d (by simp [hd])⟩) hk (hfresh hkind)
    have htested : ∀ d, Node.tested? ⟨number, kind, span, heads ++ (tests ++ [c])⟩ = some d → d ∈ heads ++ tests := by
      cases ht <;> simp [Node.tested?]
    obtain ⟨hflow, hmoment⟩ := ht.records (fun d hd => hnode d (by simp [hd]))
      (fun d hd k hk => hu.restricts (hbefore d (htested d hd)) hl hd hk.package) htests.flow _ htests
    exact ⟨hflow, hmoment.memory⟩
  | @leg number span children _ leg h =>
    obtain ⟨binding, parts, k, -, -, hpackage, hpart, hls⟩ := exists_legs w hf rfl (around.within number .attempt) m
    have hchild := part_mem_legs h
    rw [hls] at h
    obtain ⟨hstart, hflow⟩ := mem_legs hpart h
    have hany := leg.start.all_true
    rw [← hu.types] at hany
    refine ⟨⟨hany.1, ?_⟩, hany.2, (hstart.trans hpackage) ▸ hm.memory.package⟩
    rw [hflow]
    cases hk : leg.part.kind with
    | handler names => exact hu.caught (.child .root hchild) hl hk (hfresh rfl).flow.flow
    | _ => exact (hfresh rfl).flow.flow
  | @definition number kind span list _ framed close _ hd =>
    obtain ⟨_, _, hc, hlist, -⟩ := hf.layout.of_isDefinition hd.isDefinition
    cases hc
    have hparameters : BindsParameters w kind.typeDoc .start list.children _ := bindsParameters fun _ =>
      parameters_of_formed (hf.child (by simp)) hlist
    have hstart : I.Along I.fresh .start := ⟨Table.all_empty, I.started⟩
    obtain ⟨hflow, hmoment⟩ := Records.parameters (fun _ _ _ => hu.types ▸ trivial) hparameters
      (fun d hd => I.child (hu.node .root (.refl _) hl) hd) hstart m hm
    exact ⟨hflow, hmoment.memory⟩

/-! ## Nodes that are reached -/

section

variable {p : Reason Results} {number : Nat} {kind : Node.Kind} {heads parts : List Node}
  {q : List Results → Reason Results} {ps : Reason (List Results)}

theorem Closes.isReasoned (h : Closes w around number kind heads parts q) : kind.isReasoned := by
  cases h with
  | made h | deliver h | depart h | enclosure h => cases kind <;> first | rfl | cases h
  | _ => rfl

theorem Reasons.isReasoned (h : Reasons w around n p) : n.kind.isReasoned := by
  cases h with
  | straight _ hq => exact hq.isReasoned
  | loop _ ht => cases ht <;> rfl
  | definition hd => cases hd <;> rfl
  | separate | conditional | attempt => rfl

theorem ReasonsEach.isReasoned (h : ReasonsEach w around ns ps) (hc : c ∈ ns) : c.kind.isReasoned := by
  induction ns generalizing ps with
  | nil => cases hc
  | cons n ns ih =>
    cases h with
    | cons h hs => exact (List.mem_cons.mp hc).elim (fun he => he ▸ h.isReasoned) (ih hs)

theorem ReasonsHandlers.isReasoned {binding : Option String} {ps : Reason (List Flow)}
    (h : ReasonsHandlers w around before binding ns ps) (hc : c ∈ ns) : c.kind.isReasoned := by
  induction ns generalizing ps with
  | nil => cases hc
  | cons n ns ih =>
    cases h with
    | cons _ h hs => exact (List.mem_cons.mp hc).elim (fun he => he ▸ h.isReasoned) (ih hs)

/-- Every part of a branch is entered. -/
theorem ReasonsBranches.enters {ps : Reason (List Flow)} (h : ReasonsBranches w around before denied ns ps) {b : Node}
    (hb : b ∈ ns) (hc : c ∈ b.children) (k : Memory) : ∃ inner m, EntersBranch w around before denied k ns inner c m := by
  induction ns generalizing denied ps k with
  | nil => cases hb
  | cons n ns ih =>
    cases h with
    | branch _ _ hs =>
      rcases List.mem_cons.mp hb with rfl | hb
      · rcases List.mem_pair.mp hc with rfl | rfl
        · exact ⟨_, _, .condition⟩
        · exact ⟨_, _, .body⟩
      · obtain ⟨inner, m, hin⟩ := ih (hs _) hb _
        exact ⟨inner, m, .next rfl hin⟩
    | otherwise =>
      obtain rfl := List.mem_singleton.mp hb
      obtain rfl := List.mem_singleton.mp hc
      exact ⟨_, _, .otherwise⟩

/-- What is not gone through, a node gives a value to or does not reason about. -/
theorem Closes.head (h : Closes w around number kind heads parts q) (span : Span) (hc : c ∈ heads) :
    c.kind.isReasoned = false ∨ c ∈ Node.given ⟨number, kind, span, heads ++ parts⟩ := by
  cases h with
  | assignment | several => exact .inr (by simpa [Node.given, Node.Kind.isAssignment] using hc)
  | shared hv =>
    obtain ⟨⟨name, hk⟩, -⟩ := hv c hc
    exact .inl (hk ▸ rfl)
  | _ => cases hc

/-- Reasoning goes on towards every node that is reasoned about. -/
theorem Reasons.enters (h : Reasons w around n p) (hf : n.Formed) {d : Node} (hd : d ∈ n.children)
    (hl : last ∈ d.withDescendants) (hk : last.kind.isReasoned) (hg : last ∉ n.given) (m : Moment) :
    ∃ inner c k, Enters w around n m inner c k ∧ c.kind.isReasoned ∧ last ∈ c.withDescendants := by
  -- Names stand alone, parameters in a list.
  have hleaf : d.kind.isReasoned = false → (∀ e ∈ d.children, e.kind.isReasoned = false ∧ e.children = []) → False := by
    intro hdk he
    rcases Node.mem_withDescendants_cases hl with rfl | ⟨e, hed, hle⟩
    · cases hk.symm.trans hdk
    · rcases Node.mem_withDescendants_cases hle with rfl | ⟨_, hc, -⟩
      · cases hk.symm.trans (he last hed).1
      · rw [(he e hed).2] at hc
        cases hc
  cases h with
  | @straight _ number kind span heads parts _ _ hs hq =>
    rcases List.mem_append.mp hd with hd | hd
    · have hnil := hq.leaf hd (hf.child (List.mem_append_left _ hd))
      refine ((hq.head span hd).elim (fun hdk => hleaf hdk (by simp [hnil])) fun hgiven => hg ?_).elim
      rcases Node.mem_withDescendants_cases hl with rfl | ⟨e, he, -⟩
      · exact hgiven
      · rw [hnil] at he
        cases he
    · have hkind : kind.isLeaf = false := by
        refine Bool.eq_false_iff.mpr fun hkl => ?_
        have hnil := hf.layout.eq_nil_of_isLeaf hkl
        exact absurd hd (by simp [(List.append_eq_nil_iff.mp hnil).2])
      have hr := hs.isReasoned hd
      obtain ⟨earlier, later, rfl⟩ := List.append_of_mem hd
      exact ⟨_, d, _, .part hkind (fun e he => hs.isReasoned (by simp [he])) hq, hr, hl⟩
  | separate h =>
    obtain ⟨name, hdk⟩ := hf.layout.of_separate d hd
    have hlayout := (hf.child hd).layout
    obtain ⟨own, kind, place, children⟩ := d
    dsimp only at hdk
    subst hdk
    rcases hlayout.declared with rfl | ⟨value, rfl, hx⟩
    · exact (hleaf rfl (by simp)).elim
    · obtain ⟨earlier, later, rfl⟩ := List.append_of_mem hd
      refine ⟨_, value, _, .value, Node.Kind.isReasoned_of_isExpression hx, ?_⟩
      rcases Node.mem_withDescendants_cases hl with rfl | ⟨e, he, hle⟩
      · cases hk
      · exact List.mem_singleton.mp he ▸ hle
  | @conditional _ number span branches _ h =>
    rcases Node.mem_withDescendants_cases hl with rfl | ⟨e, he, hle⟩
    · rcases branch_or_otherwise hf rfl hd with hdk | hdk <;> rw [hdk] at hk <;> cases hk
    · obtain ⟨inner, k, hin⟩ := (h m.flow).enters hd he m.memory
      exact ⟨inner, e, k, .branch hin, isReasoned_part (hf.child hd) (branch_or_otherwise hf rfl hd) he, hle⟩
  | @loop _ number kind span heads tests body _ start _ hs ht hq =>
    rcases List.mem_append.mp hd with hd | hd
    · obtain ⟨name, hdk⟩ := ht.variable d hd
      have hnil := (hf.child (List.mem_append_left _ hd)).layout.eq_nil_of_isLeaf (hdk ▸ rfl)
      exact (hleaf (hdk ▸ rfl) (by simp [hnil])).elim
    · rcases List.mem_append.mp hd with htest | hd
      · have hr := hs.isReasoned htest
        have htests : tests = [d] := by
          cases ht with
          | plainLoop => cases htest
          | forLoop | whileLoop => rw [List.mem_singleton.mp htest]
        subst htests
        exact ⟨_, d, m, .test ht, hr, hl⟩
      · obtain rfl := List.mem_singleton.mp hd
        exact ⟨_, d, _, .round (fun _ => hs.isReasoned) ht rfl, hq.isReasoned, hl⟩
  | @attempt _ number span body handlers _ binding bound _ hv hb h hs =>
    have hvariable : ∀ {name}, d.kind = .attemptVariable name → False := fun hdk =>
      hleaf (hdk ▸ rfl) (by simp [(hf.child hd).layout.eq_nil_of_isLeaf (hdk ▸ rfl)])
    obtain ⟨_, parts, _, hbound, hc, -, hpart, hlegs⟩ := exists_legs w hf rfl (around.within number .attempt) m
    have hdp : d ∈ parts := by
      refine (List.mem_append.mp (hc ▸ hd)).resolve_left fun hdb => ?_
      obtain ⟨name, hdk⟩ := hbound d (by simpa using hdb)
      exact hvariable hdk
    have hr : d.kind.isReasoned := by
      rcases List.mem_append.mp hd with hdb | hd
      · rw [Option.mem_toList.mp hdb] at hv
        obtain ⟨name, -, hdk⟩ := Option.map_eq_some_iff.mp hv.symm
        exact (hvariable hdk.symm).elim
      · exact (List.mem_cons.mp hd).elim (fun he => he ▸ h.isReasoned) (hs m.flow).isReasoned
    rw [← map_part_legs (w := w) fun c hc => (hpart c hc).1] at hdp
    obtain ⟨leg, hleg, rfl⟩ := List.mem_map.mp hdp
    exact ⟨_, _, _, .leg (hlegs ▸ hleg), hr, hl⟩
  | @definition _ number kind span list body _ _ _ _ hdef hp hq =>
    rcases List.mem_pair.mp hd with rfl | rfl
    · obtain ⟨_, _, hc, hlist, -⟩ := hf.layout.of_isDefinition hdef.isDefinition
      cases hc
      refine (hleaf (hlist ▸ rfl) fun e he => ?_).elim
      obtain ⟨⟨name, mode, hek⟩, hnil⟩ := parameters_of_formed (hf.child (by simp)) hlist he
      exact ⟨by rw [hek]; rfl, hnil⟩
    · exact ⟨_, d, _, .definition hdef, (hq .outermost).isReasoned, hl⟩

/-- Reasoning comes to every node that is reasoned about. -/
theorem exists_comes (hf : n.Formed) (hr : n.kind.isReasoned) (hl : last ∈ n.withDescendants) (hk : last.kind.isReasoned)
    (hg : ∀ d ∈ n.withDescendants, last ∉ d.given) (around : Around) (m : Moment) :
    ∃ inner k, Comes w inner last k around n m := by
  induction n using Node.induction_below generalizing around m with
  | node n ih =>
    rcases Node.mem_withDescendants_cases hl with rfl | ⟨d, hd, hld⟩
    · exact ⟨around, m, .here⟩
    · obtain ⟨p, h⟩ : ∃ p, Reasons w around n p := ⟨_, ruled_of_formed hf hr around⟩
      obtain ⟨a, c, k, hin, hr, hlc⟩ := h.enters hf hd hld hk (hg n Way.root.mem_withDescendants) m
      obtain ⟨e, he, hce⟩ := hin.under
      obtain ⟨as, hw⟩ := hin.way
      obtain ⟨inner, k, hs⟩ := ih e he c hce (hw.formed hf) hr hlc
        (fun b hb => hg b (Node.mem_withDescendants_trans hb hw.mem_withDescendants)) a k
      exact ⟨inner, k, .on hin hs⟩

end

/-! ## Along the way -/

section

variable (h : Comes w inner last k around n m)
include h

theorem Comes.mem_withDescendants : last ∈ n.withDescendants := by
  induction h with
  | here => exact Way.root.mem_withDescendants
  | on h _ ih =>
    obtain ⟨as, hw⟩ := h.way
    exact Node.mem_withDescendants_trans ih hw.mem_withDescendants

/-- What is noted in a node is noted when reasoning comes to it, unless a node around it
    gives it a value. -/
theorem Comes.found {j : Nat} (hn : Proper [n]) (hj : j ∈ last.numbers)
    (hg : ∀ d ∈ n.withDescendants, last ∈ d.withDescendants → ∀ t ∈ d.given, t.number ≠ j) :
    (w.reason around n m).2.memory.findings.results.find? j = (w.reason inner last k).2.memory.findings.results.find? j := by
  induction h with
  | here => rfl
  | on h hs ih =>
    obtain ⟨as, hw⟩ := h.way
    obtain ⟨bs, hl⟩ := Node.mem_withDescendants_iff.mp hs.mem_withDescendants
    refine (h.found hn (hl.numbers_subset j hj) (hg _ Way.root.mem_withDescendants (hw.trans hl).mem_withDescendants)).trans
      (ih (hn.below hw) fun a ha => hg a (Node.mem_withDescendants_trans ha hw.mem_withDescendants))

/-- What stands before the node keeps the invariant until reasoning comes to it. -/
theorem Comes.holds (hf : n.Formed) (hu : Until I last n) (hκ : n.kind.isDefinition = false ∨ last = n → κ = I.fresh)
    (hm : I.Holds κ m) : I.Holds I.fresh k := by
  induction h generalizing κ with
  | here => exact hκ (.inr rfl) ▸ hm
  | on h hs ih =>
    obtain ⟨as, hw⟩ := h.way
    exact ih (hw.formed hf) (hu.below hw) (fun _ => rfl)
      (h.holds hf hu hs.mem_withDescendants (fun hk => hκ (.inl hk)) hm)

end

end World

end Magik
