/-
  Magik.Proofs.Reasoning.Passing — reasoning goes through a tree as `Passes` says.

  The steps between the parts of a node are quiet (`Calm`). With these, each rule of
  reasoning is a passage (`Reasons.passes`).
-/

import Magik.Proofs.Reasoning.Passage

namespace Magik

open Node (Formed Layout Proper)

namespace World

variable {w : World}

/-! ## Names that are given values -/

/-- A name that is given types gets them noted last. -/
theorem assign_eq {numbers conditions : List Nat} (number : Nat) (procedure : Option Nat) (types : TypeSet) (m : Moment) :
    ∃ k, Quiet numbers conditions m.memory k ∧
      (w.assign number procedure types m).2.memory = k.note number (.single types) := by
  unfold assign
  cases w.scopes.entryOf? number with
  | some entry =>
    refine ⟨_, ?_, rfl⟩
    exact ⟨.of_findings_eq rfl, rfl⟩
  | none => exact ⟨_, .refl _, rfl⟩

/-- Nothing is noted but at some names, and something is noted at all of them. -/
def Names {α : Type} (conditions : List Nat) (vs : List Node) (p : Reason α) : Prop :=
  ∀ m : Moment, Quiet (vs.map Node.number) conditions m.memory (p m).2.memory ∧
    ∀ v ∈ vs, ((p m).2.memory.findings.results.find? v.number).isSome

section

variable {conditions : List Nat} {α : Type}

theorem names_nil (conditions : List Nat) (a : α) : Names conditions [] (pure a : Reason α) :=
  fun _ => ⟨.refl _, by simp⟩

theorem names_cons {v : Node} {vs : List Node} {p : Reason Unit} {q : Reason α} (hp : Names conditions [v] p)
    (hq : Names conditions vs q) : Names conditions (v :: vs) (do p; q) := by
  intro m
  obtain ⟨hquiet, hsome⟩ := hp m
  obtain ⟨hquiet', hsome'⟩ := hq (p m).2
  refine ⟨(hquiet.mono (by simp)).trans (hquiet'.mono fun j hj => .tail _ hj), ?_⟩
  exact List.forall_mem_cons.mpr ⟨hquiet'.kept (hsome v (by simp)), hsome'⟩

theorem names_record (v : Node) (r : Results) : Names conditions [v] (Reason.record v.number r) := by
  refine fun m => ⟨⟨.note r (by simp), rfl⟩, ?_⟩
  show ∀ u ∈ [v], ((m.memory.note v.number r).findings.results.find? u.number).isSome
  simp [Memory.results_note]

theorem names_assign (v : Node) (procedure : Option Nat) (types : TypeSet) :
    Names conditions [v] (w.assign v.number procedure types) := by
  intro m
  obtain ⟨k, hq, he⟩ := @assign_eq w [v.number] conditions v.number procedure types m
  rw [he]
  exact ⟨hq.trans ⟨.note _ (by simp), rfl⟩, by simp [Memory.results_note]⟩

theorem names_assignEach (r : Results) (index : Nat) (targets : List Node) :
    Names conditions targets (w.assignEach r index targets) := by
  induction targets generalizing index with
  | nil => exact names_nil _ _
  | cons v targets ih => exact names_cons (names_assign v none _) (ih (index + 1))

theorem names_loopVariables (rounds : Option Results) (index : Nat) (f : Flow) (vars : List Node) :
    Names conditions vars (w.loopVariables rounds index f vars) := by
  induction vars generalizing index f with
  | nil => exact names_nil _ _
  | cons v vars ih => exact names_cons (names_record v _) (ih (index + 1) _)

end

/-! ## Destinations -/

/-- The nodes around a node, as reasoning keeps them. -/
def pathOf (around : List Node) : List (Nat × Node.Kind) := around.map fun p => (p.number, p.kind)

theorem loopIn?_pathOf (label : Option String) (around : List Node) :
    Around.loopIn? label (pathOf around) = (Node.loopLeft? label around).map Node.number := by
  induction around with
  | nil => rfl
  | cons p around ih =>
    simp only [pathOf, List.map_cons, Around.loopIn?, Node.loopLeft?, List.takeWhile_cons]
    by_cases hd : p.kind.isDefinition
    · simp [hd]
    · simp only [Bool.not_eq_true] at hd
      rw [hd, Bool.not_false, if_pos rfl, List.find?_cons]
      cases hl : Around.loopLabel? p.kind with
      | none => simpa [Node.loopLeft?, pathOf] using ih
      | some own =>
        by_cases ho : label = none ∨ label = own
        · simp only [Option.any_some, ho]
          rfl
        · simp only [Option.any_some, ho, decide_false, if_false]
          exact ih

theorem memory_deliver {around : Around} {as : List Node} (hp : around.path = pathOf as) {kind : Node.Kind}
    (hk : kind.delivers) (r : Results) (m : Moment) :
    (deliver around kind r m).2.memory = (Node.destination? as kind).elim m.memory (m.memory.send r) := by
  have hdefinition : around.definition? = (as.find? fun p => p.kind.isDefinition).map Node.number := by
    simp [Around.definition?, hp, pathOf, List.find?_map, Function.comp_def]
  have hemit : around.emitTarget? = (as.find? fun p => Around.givesBack p.kind).map fun p => (p.number, p.kind) := by
    rw [Around.emitTarget?, hp, pathOf, List.find?_map]
    rfl
  have hloop : ∀ label, around.loopTarget? label = (Node.loopLeft? label as).map Node.number := by
    intro label
    rw [Around.loopTarget?, hp, loopIn?_pathOf]
  cases kind with
  | returned | loopBody =>
    rw [deliver, hdefinition, Node.destination?]
    cases as.find? fun p => p.kind.isDefinition <;> rfl
  | emitted =>
    rw [deliver, hemit, Node.destination?]
    cases as.find? fun p => Around.givesBack p.kind with
    | none => rfl
    | some p =>
      show ((if p.kind.isDefinition then Reason.giveBack p.number r else Reason.emit p.number r) m).2.memory =
        m.memory.send r (if p.kind.isDefinition then .returned else .emitted, p.number)
      split <;> rfl
  | leave label =>
    rw [deliver, hloop, Node.destination?]
    cases Node.loopLeft? label as <;> rfl
  | _ => cases hk

theorem finish_eq (number : Nat) (m : Moment) :
    finish number m = (m.memory.sentTo .returned number, ⟨m.flow, m.memory.finish number⟩) := by
  show (let k := m.memory.take number .looped
    ((m.memory.looped.find? number).forM fun rounds => Reason.recordLoop number rounds : Reason Unit) ⟨m.flow, k⟩ |>.2
    |> Reason.takeReturned number) = _
  unfold Memory.finish
  cases m.memory.looped.find? number <;> rfl

end World

/-! ## Passages by the rules -/

namespace Parts

theorem append {around late late' a b : List Node} {n : Node} {k k' k'' : Memory} (h : Parts around n late a k k')
    (hl : late ⊆ late') (h' : Parts around n late' b k' k'') : Parts around n late' (a ++ b) k k'' := by
  match h with
  | .done => exact h'
  | .quiet hq hs => exact .quiet (hq.mono (List.map_subset _ hl)) (hs.append hl h')
  | .visit h hs => exact .visit h (hs.append hl h')
  | .skip hv hs => exact .skip (hl hv) (hs.append hl h')

variable {around late a vs : List Node} {n : Node} {k k' k'' : Memory}

theorem skipAll (hv : ∀ v ∈ vs, v ∈ late) (h : Parts around n late a k k') : Parts around n late (vs ++ a) k k' := by
  induction vs with
  | nil => exact h
  | cons v vs ih => exact .skip (hv v (by simp)) (ih fun u hu => hv u (.tail _ hu))

/-- One more quiet step at the end. -/
theorem andQuiet (h : Parts around n [] a k k') (hq : Quiet (late.map Node.number) (Node.numbersAll n.children) k' k'') :
    Parts around n late a k k'' := by
  have h' := h.append (List.nil_subset late) (.quiet hq .done)
  rwa [List.append_nil] at h'

end Parts

namespace Passes

variable {around : List Node} {n : Node} {k k₁ k₂ : Memory} {r : Results}

/-- A node that gives no values to names in its own time. -/
theorem plain (h : Parts around n [] n.children k k₁) (hq : Closing around n k₁ k₂ r) : Passes around n k (k₂.note n.number r) :=
  .closed (.nil n) h (by simp) hq

theorem plainly (hk : n.kind.isOrdinary) (h : Parts around n [] n.children k k₁) (hq : Quiet [n.number] [] k₁ k₂) :
    Passes around n k (k₂.note n.number r) :=
  .plain h (.ordinary hk hq)

/-- A name that is noted where it stands. -/
theorem leaf (hk : n.kind.isOrdinary) (hc : n.children = []) (r : Results) : Passes around n k (k.note n.number r) :=
  .plainly hk (by rw [hc]; exact .done) (.refl _)

end Passes

namespace World

open Node (numbersAll)

variable {w : World} {around : Around} {n : Node} {p : Reason Results}

/-- What a rule comes to is noted last. -/
theorem Reasons.eq_noted (h : Reasons w around n p) : ∃ q, p = noted n.number q := by
  cases h <;> exact ⟨_, rfl⟩

theorem Reasons.recorded (h : Reasons w around n p) (m : Moment) :
    (p m).2.memory.findings.results.find? n.number = some (p m).1 := by
  obtain ⟨q, rfl⟩ := h.eq_noted
  show ((q m).2.memory.note n.number (q m).1).findings.results.find? n.number = _
  rw [Memory.results_note, if_pos rfl]
  rfl

theorem BindsParameters.parts {doc : TypeDoc} {f : Flow} {ps : List Node} {p : Reason Flow}
    (h : BindsParameters w doc f ps p) (around : List Node) (n : Node) (m : Moment) :
    Parts around n [] ps m.memory (p m).2.memory := by
  induction h generalizing m with
  | nil => exact .done
  | @cons f number name mode span rest p h ih =>
    exact .visit (.leaf rfl rfl _) (ih (Reason.record number (.single (parameterTypes doc name mode)) m).2)

theorem path_within {as : List Node} (hp : around.path = pathOf as) (number : Nat) (kind : Node.Kind) (span : Span)
    (children : List Node) : (around.within number kind).path = pathOf (⟨number, kind, span, children⟩ :: as) := by
  simp [Around.within, hp, pathOf]

/-- Names that a node gives values to. -/
theorem late_of_isLeaf {late : List Node} (hf : n.Formed)
    (h : ∀ v ∈ late, v ∈ n.children ∧ v.kind.isLeaf ∧ v.kind.isOrdinary) : Late n late := fun v hv =>
  ⟨(h v hv).1, (hf.child (h v hv).1).layout.eq_nil_of_isLeaf (h v hv).2.1, (h v hv).2.2⟩

section

variable {around : Around} {number : Nat} {kind : Node.Kind} {span : Span} {heads parts as : List Node}
  {q : List Results → Reason Results}

/-- The names that an assignment gives values to are noted last. -/
theorem Closes.names (h : Closes w around number kind heads parts q)
    (hf : Node.Formed ⟨number, kind, span, heads ++ parts⟩) (hk : kind.isInOrder = false) :
    ∃ targets, Late ⟨number, kind, span, heads ++ parts⟩ targets ∧ (∀ c ∈ heads, c ∈ targets) ∧
      ∀ conditions rs, Names conditions targets (q rs) := by
  cases h with
  | made h => cases hk.symm.trans (isInOrder_of_made? h)
  | @assignment target _ _ ht | @augmented _ target _ _ ht =>
    exact ⟨[target], late_of_isLeaf hf (by simpa [ht] using ⟨rfl, rfl⟩), by simp, fun _ _ => names_assign target _ _⟩
  | several ht =>
    refine ⟨heads, late_of_isLeaf hf fun v hv => ?_, fun _ => id, fun _ _ => names_assignEach _ _ _⟩
    obtain ⟨name, hk⟩ := ht v hv
    simpa [hk, hv] using ⟨rfl, rfl⟩
  | shared ht =>
    refine ⟨heads, fun v hv => ?_, fun _ => id, fun _ _ => names_assignEach _ _ _⟩
    obtain ⟨⟨name, hk⟩, hc⟩ := ht v hv
    exact ⟨List.mem_append_left _ hv, hc, by rw [hk]; rfl⟩
  | deliver h | depart h | enclosure h => cases kind <;> cases hk <;> cases h
  | _ => cases hk

/-- What a node does when its parts have been gone through. -/
theorem Closes.passes (h : Closes w around number kind heads parts q)
    (hf : Node.Formed ⟨number, kind, span, heads ++ parts⟩) (hp : around.path = pathOf as) {k : Memory} {m : Moment}
    (hparts : Parts as ⟨number, kind, span, heads ++ parts⟩ [] parts k m.memory) {rs : List Results}
    (hrs : rs = parts.map (Node.resultIn m.memory.findings)) :
    Passes as ⟨number, kind, span, heads ++ parts⟩ k (noted number (q rs) m).2.memory := by
  have hnames (hi : kind.isInOrder = false) (ho : kind.isOrdinary) :
      Passes as ⟨number, kind, span, heads ++ parts⟩ k (noted number (q rs) m).2.memory := by
    obtain ⟨targets, hlate, hheads, hnames⟩ := h.names hf hi
    obtain ⟨hquiet, hsome⟩ := hnames (numbersAll (heads ++ parts)) rs m
    exact .closed hlate (.skipAll hheads (hparts.andQuiet hquiet)) hsome (.ordinary ho (.refl _))
  cases h with
  | made h => exact .plainly (by cases kind <;> first | rfl | cases h) hparts (.refl _)
  | package => exact .plainly rfl hparts ⟨.of_findings_eq rfl, rfl⟩
  | name => exact .plainly rfl hparts (Calm.of_slight (slight_readName number number) (by simp) m).toQuiet
  | invocation => exact .plainly rfl hparts (Calm.of_slight (slight_invocation _ _ _) (by simp) m).toQuiet
  | call => exact .plainly rfl hparts (Calm.of_slight (slight_call _) (by simp) m).toQuiet
  | deliver hk =>
    have h := @Passes.plain as ⟨number, kind, span, parts⟩ _ _ _ _ hparts (.statement hk)
    rw [Node.valuesIn_eq, ← hrs, ← memory_deliver hp hk] at h
    exact h
  | depart hk => exact .plainly (by cases kind <;> first | rfl | cases hk) hparts (.refl _)
  | enclosure hk => exact .plain hparts (.construct (by cases kind <;> first | rfl | cases hk))
  | _ => exact hnames rfl rfl

theorem Starts.names {start : Flow → Reason Flow} {tests : List Node} {body : Node} (h : Starts w kind heads tests start)
    (hf : Node.Formed ⟨number, kind, span, heads ++ (tests ++ [body])⟩) (before : Flow) :
    Late ⟨number, kind, span, heads ++ (tests ++ [body])⟩ heads ∧
      Names (numbersAll (heads ++ (tests ++ [body]))) heads (start before) := by
  cases h with
  | forLoop hv =>
    refine ⟨late_of_isLeaf hf fun v hm => ?_, fun m => names_loopVariables _ 0 before _ m⟩
    obtain ⟨name, hk⟩ := hv v hm
    simpa [hk, hm] using ⟨rfl, rfl⟩
  | @whileLoop _ condition =>
    have hin : condition.number ∈ numbersAll [condition, body] := by simp [numbersAll, Node.number_mem_numbers]
    exact ⟨.nil _, fun m => ⟨(Calm.recordRestriction _ hin m).toQuiet, by simp⟩⟩
  | plainLoop => exact ⟨.nil _, names_nil _ before⟩

end

mutual

/-- By induction on the rules: what a rule does on the way to its parts and after them is quiet, except for
    what its node does last. -/
theorem Reasons.passes {around : Around} {n : Node} {p : Reason Results} {as : List Node} (h : Reasons w around n p)
    (hn : Proper [n]) (hp : around.path = pathOf as) (m : Moment) : Passes as n m.memory (p m).2.memory := by
  have hf : n.Formed := hn.formed n (by simp)
  have hcn : Proper n.children := hn.inside (by simp)
  have hpath : (around.within n.number n.kind).path = pathOf (n :: as) := path_within hp _ _ n.span n.children
  match h with
  | .straight hs hq =>
    obtain ⟨hparts, hvalues⟩ := hs.parts (hcn.of_sublist (List.sublist_append_right _ _)) hpath m
    exact hq.passes hf hp hparts hvalues
  | .separate h => exact .plainly rfl (h.parts hcn hpath m) (.refl _)
  | .conditional h => exact .plain (((h m.flow).parts hcn hpath m).andQuiet (Calm.merge _ _ _ _).toQuiet) (.construct rfl)
  | @Reasons.loop _ _ number kind span heads tests body ps start q hs ht hq =>
    have hsub : tests.Sublist (heads ++ (tests ++ [body])) :=
      (List.sublist_append_left _ _).trans (List.sublist_append_right _ _)
    have htests := (hs.parts (hcn.of_sublist hsub) hpath m).1
    obtain ⟨hlate, hnames⟩ := ht.names hf (ps m).2.flow
    obtain ⟨hquiet, hsome⟩ := hnames (ps m).2
    let first := start (ps m).2.flow (ps m).2
    have hbody := hq.passes (hcn.of_mem (by simp)) hpath ⟨first.1, first.2.memory⟩
    let after := q ⟨first.1, first.2.memory⟩
    exact .closed hlate (.skipAll (fun _ => id) (htests.append (List.nil_subset _) (.quiet hquiet
      (.visit hbody (.quiet (Calm.retire (ps m).2.flow after.2.flow ⟨first.2.flow, after.2.memory⟩).toQuiet .done)))))
      (fun v hv => hbody.notes.kept (hsome v hv)) (.construct (by cases ht <;> rfl))
  | @Reasons.attempt _ _ number span body handlers p binding bound ps hv _ h hs =>
    let bind : Reason Unit := binding.forM fun v => Reason.record v.number (.ofType .condition)
    have hbinding : Parts as ⟨number, .attempt, span, binding.toList ++ body :: handlers⟩ [] binding.toList m.memory
        (bind m).2.memory := by
      cases binding with
      | none => exact .done
      | some v =>
        obtain ⟨name, hk⟩ := attemptVariable_of_mem hv rfl
        exact .visit (.leaf (hk ▸ rfl) ((hcn.formed v (by simp)).layout.eq_nil_of_isLeaf (hk ▸ rfl)) _) .done
    have hbody := h.passes (hcn.of_mem (by simp)) hpath ⟨m.flow, (bind m).2.memory⟩
    have hhandlers := (hs m.flow).parts (hcn.of_sublist (List.sublist_append_right _ _)).tail hpath
      ⟨(bind m).2.flow, (p ⟨m.flow, (bind m).2.memory⟩).2.memory⟩
    exact .plain (hbinding.append (List.nil_subset _) (.visit hbody (hhandlers.andQuiet (Calm.merge _ _ _ _).toQuiet)))
      (.construct rfl)
  | @Reasons.definition _ _ number kind span list body framed close p q hd hb hq =>
    obtain ⟨_, _, he, hlist, -⟩ := hf.layout.of_isDefinition hd.isDefinition
    cases he
    have hparameters := hb.parts (⟨number, kind, span, [list, body]⟩ :: as) list m
    let after := q (framed m).1 ⟨(p m).1, (p m).2.memory⟩
    have hbody := (hq (framed m).1).passes (hcn.of_mem (by simp)) hpath
      ⟨(p m).1, (p m).2.memory⟩
    let settled := (Reason.settle after.2.flow.believed ⟨(p m).2.flow, after.2.memory⟩).2
    have hparts : Parts as ⟨number, kind, span, [list, body]⟩ [] [list, body] m.memory settled.memory :=
      .visit (.silent (hlist ▸ rfl) hparameters) (.visit hbody (.quiet (Calm.settle _ ⟨_, _⟩).toQuiet .done))
    cases hd with
    | method =>
      show Passes _ _ _ ((finish number settled).2.memory.note number (finish number settled).1)
      rw [finish_eq]
      exact .plain hparts (.method rfl)
    | procedure =>
      show Passes _ _ _ (((finish number settled).2.memory.noteProcedure number (finish number settled).1).note number _)
      rw [finish_eq]
      exact .plain hparts (.procedure rfl)

theorem ReasonsEach.parts {around : Around} {n : Node} {ns : List Node} {ps : Reason (List Results)} {as : List Node}
    (h : ReasonsEach w around ns ps) (hn : Proper ns) (hp : around.path = pathOf (n :: as)) (m : Moment) :
    Parts as n [] ns m.memory (ps m).2.memory ∧
      (ps m).1 = ns.map (Node.resultIn (ps m).2.memory.findings) := by
  match h with
  | .nil => exact ⟨.done, rfl⟩
  | @ReasonsEach.cons _ _ c ns p ps h hs =>
    have hc := h.passes (hn.of_mem (by simp)) hp m
    obtain ⟨hrest, hvalues⟩ := hs.parts hn.tail hp (p m).2
    refine ⟨.visit hc hrest, ?_⟩
    have hkept : c.resultIn (ps (p m).2).2.memory.findings = (p m).1 := by
      rw [Node.resultIn, (hrest.notes.same (by simpa using hn.disjoint c.number_mem_numbers)).results, h.recorded m]
      rfl
    show (p m).1 :: (ps (p m).2).1 = _
    rw [List.map_cons, hvalues]
    exact congrArg (· :: _) hkept.symm

theorem ReasonsVariables.parts {around : Around} {n : Node} {ns : List Node} {modifier : Modifier} {last : Results}
    {p : Reason Results} {as : List Node} (h : ReasonsVariables w around modifier last ns p) (hn : Proper ns)
    (hp : around.path = pathOf (n :: as)) (m : Moment) : Parts as n [] ns m.memory (p m).2.memory := by
  match h with
  | .nil => exact .done
  | @ReasonsVariables.valued _ _ _ _ number name span value ns p q h hs =>
    have hinside := hn.inside (c := ⟨number, .declared name, span, [value]⟩) (by simp)
    have hvalue := h.passes (hinside.of_mem (by simp)) (path_within hp _ _ span [value]) m
    obtain ⟨k, hq, he⟩ := @assign_eq w [number] [] number (procedureNumber? value) (p m).1.first (p m).2
    have hrest := (hs (p m).1).parts hn.tail hp
      (w.assign number (procedureNumber? value) (p m).1.first (p m).2).2
    refine .visit ?_ hrest
    rw [he]
    exact .plainly rfl (.visit hvalue .done) hq
  | @ReasonsVariables.bare _ _ _ _ number name span ns p hs =>
    let types := w.undeclaredTypes around modifier number m
    obtain ⟨k, hq, he⟩ := @assign_eq w [number] [] number none types.1 types.2
    have hrest := hs.parts hn.tail hp
      (w.assign number none types.1 types.2).2
    refine .visit ?_ hrest
    rw [he]
    exact .plainly rfl .done ((Calm.of_slight (slight_undeclaredTypes modifier number number) (by simp) m).toQuiet.trans hq)

theorem ReasonsBranches.parts {around : Around} {n : Node} {ns : List Node} {before : Flow} {denied : List Restriction}
    {p : Reason (List Flow)} {as : List Node} (h : ReasonsBranches w around before denied ns p) (hn : Proper ns)
    (hp : around.path = pathOf (n :: as)) (m : Moment) : Parts as n [] ns m.memory (p m).2.memory := by
  match h with
  | .nil => exact .done
  | @ReasonsBranches.branch _ _ _ _ number span condition body ns p q rest hp' hq hs =>
    let branch : Node := ⟨number, .branch, span, [condition, body]⟩
    have hpath : (around.within number .branch).path = pathOf (branch :: n :: as) := path_within hp _ _ span _
    have hinside : Proper branch.children := hn.inside (.head _)
    have hin : condition.number ∈ numbersAll branch.children := by simp [branch, numbersAll, Node.number_mem_numbers]
    let tested := p ⟨w.narrowed m.memory.package before denied, m.memory⟩
    let r := w.restriction tested.2.memory condition
    let outcome := q ⟨w.narrowed m.memory.package tested.2.flow (denied ++ [r]), tested.2.memory⟩
    have hcondition := hp'.passes (hinside.of_mem (by simp [branch])) hpath
      ⟨w.narrowed m.memory.package before denied, m.memory⟩
    have hbody := hq.passes (hinside.of_mem (by simp [branch])) hpath
      ⟨w.narrowed m.memory.package tested.2.flow (denied ++ [r]), tested.2.memory⟩
    have hrest := (hs r).parts hn.tail hp
      (Reason.recordRestriction condition.number r ⟨m.flow, outcome.2.memory⟩).2
    exact .visit (.silent rfl (.visit hcondition (.visit hbody (.quiet (Calm.recordRestriction r hin _).toQuiet .done)))) hrest
  | @ReasonsBranches.otherwise _ _ _ _ number span body p h =>
    let last : Node := ⟨number, .otherwise, span, [body]⟩
    have hpath : (around.within number .otherwise).path = pathOf (last :: n :: as) := path_within hp _ _ span _
    have hinside : Proper last.children := hn.inside (.head _)
    have hbody := h.passes (hinside.of_mem (by simp [last])) hpath
      ⟨w.narrowed m.memory.package before denied, m.memory⟩
    exact .visit (.silent rfl (.visit hbody .done)) .done

theorem ReasonsHandlers.parts {around : Around} {n : Node} {ns : List Node} {before : Flow} {binding : Option String}
    {p : Reason (List Flow)} {as : List Node} (h : ReasonsHandlers w around before binding ns p) (hn : Proper ns)
    (hp : around.path = pathOf (n :: as)) (m : Moment) : Parts as n [] ns m.memory (p m).2.memory := by
  match h with
  | .nil => exact .done
  | @ReasonsHandlers.cons _ _ _ _ c _ ns p ps hk h hs =>
    let start : Moment := ⟨w.handlerFlow before binding c, m.memory⟩
    have hc := h.passes (hn.of_mem (by simp)) hp start
    have hrest := hs.parts hn.tail hp ⟨m.flow, (p start).2.memory⟩
    exact .visit hc hrest

end

/-! ## What is touched -/

/-- The nodes around, as far as reasoning knows them. -/
theorem exists_pathOf (path : List (Nat × Node.Kind)) : ∃ as, path = pathOf as :=
  ⟨path.map fun q => ⟨q.1, q.2, default, []⟩, by simp [pathOf, Function.comp_def]⟩

theorem exists_pathOf_cons {path : List (Nat × Node.Kind)} (h : path ≠ []) : ∃ n as, path = pathOf (n :: as) := by
  obtain ⟨as, rfl⟩ := exists_pathOf path
  cases as with
  | nil => exact absurd rfl h
  | cons n as => exact ⟨n, as, rfl⟩

variable {around : Around} {ns : List Node}

theorem Reasons.touches (h : Reasons w around n p) (hn : Proper [n]) : Touches n.numbers p := by
  intro m j hj
  obtain ⟨as, hp⟩ := exists_pathOf around.path
  exact ((h.passes hn hp m).notes.same hj).results

section

variable (ha : around.path ≠ []) (hn : Proper ns) {before : Flow} {p : Reason (List Flow)}
include ha

theorem touches_of_parts {α : Type} {p : Reason α}
    (h : ∀ {n as}, around.path = pathOf (n :: as) → ∀ m, Parts as n [] ns m.memory (p m).2.memory) :
    Touches (numbersAll ns) p := by
  intro m j hj
  obtain ⟨n, as, hp⟩ := exists_pathOf_cons ha
  exact ((h hp m).notes.same (by simpa using hj)).results

include hn

theorem ReasonsEach.touches {ps : Reason (List Results)} (h : ReasonsEach w around ns ps) : Touches (numbersAll ns) ps :=
  touches_of_parts ha fun hp m => (h.parts hn hp m).1

theorem ReasonsVariables.touches {modifier : Modifier} {r : Results} {p : Reason Results}
    (h : ReasonsVariables w around modifier r ns p) : Touches (numbersAll ns) p :=
  touches_of_parts ha (h.parts hn)

theorem ReasonsBranches.touches {denied : List Restriction} (h : ReasonsBranches w around before denied ns p) :
    Touches (numbersAll ns) p :=
  touches_of_parts ha (h.parts hn)

theorem ReasonsHandlers.touches {binding : Option String} (h : ReasonsHandlers w around before binding ns p) :
    Touches (numbersAll ns) p :=
  touches_of_parts ha (h.parts hn)

end

/-! ## Files -/

/-- What is remembered when a file has been gone through. -/
def remembered (w : World) (package : String) (tree : SyntaxTree) : Memory :=
  let items := w.reasonEach (Around.file.within tree.root.number tree.root.kind) tree.root.children
  ((do let _ ← items; Reason.settle (← Reason.flow).believed : Reason Unit) ⟨.start, .start package⟩).2.memory

theorem findings_remembered (package : String) (tree : SyntaxTree) :
    (w.remembered package tree).findings = w.findings package tree := rfl

theorem passes_file {tree : SyntaxTree} (h : tree.FormedFile) (w : World) (package : String) :
    Passes [] tree.root (.start package) (w.remembered package tree) := by
  have hlayout := h.formed.layout
  rw [h.file] at hlayout
  have hreasons : ReasonsEach w (Around.file.within tree.root.number tree.root.kind) tree.root.children _ :=
    reasonsEach (fun n hn => ruled_of_formed (h.formed.child hn))
      (fun n hn => Node.Kind.isReasoned_of_isItem (hlayout.items n hn)) _
  have hpath : (Around.file.within tree.root.number tree.root.kind).path = pathOf [tree.root] := rfl
  have hparts := (hreasons.parts ((Proper.single h.formed h.nodup).inside (by simp)) hpath ⟨.start, .start package⟩).1
  exact .silent (by rw [h.file]; rfl) (hparts.andQuiet (Calm.settle _ _).toQuiet)

end World

end Magik
