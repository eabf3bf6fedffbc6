/-
  Magik.Proofs.Reasoning.Coincidence — reasoning in worlds whose scopes agree.

  Two pieces of reasoning coincide if they come to the same along every flow that is about
  entries of a domain, and leave such a flow; and they note nothing of nodes other than
  some. Reasoning about a node in the one world and in the other coincide if the scopes
  agree on its numbers (`coincide_reason`). The nodes around it matter as far as values are
  delivered to them, and none is delivered to the file. In one world, this says that
  reasoning about a node notes nothing of nodes outside it (`touches_reason`).
-/

import Magik.Proofs.Reasoning.Agreement

namespace Magik

/-- The second piece of reasoning comes to what the first does, along flows about entries of
    the domain; and the first ends in such a flow, with such an outcome, and what is noted of
    nodes other than these stays. -/
def Coincide {α : Type} (domain : Nat → Prop) (ns : List Nat) (good : α → Prop) (p p' : Reason α) : Prop :=
  ∀ m : Moment, m.flow.Within domain → p' m = p m ∧ (p m).2.flow.Within domain ∧ good (p m).1 ∧
    ∀ j ∉ ns, (p m).2.memory.findings.results.find? j = m.memory.findings.results.find? j

/-- Any outcome will do. -/
def anything {α : Type} (_ : α) : Prop := True

namespace Coincide

variable {α β : Type} {domain : Nat → Prop} {ns : List Nat} {good : α → Prop} {good' : β → Prop} {p : Reason α}
  {p' : Reason α} {f f' : α → Reason Unit}

theorem pure {a : α} (h : good a) : Coincide domain ns good (pure a) (pure a) := fun _ hm => ⟨rfl, hm, h, fun _ _ => rfl⟩

theorem bind {f f' : α → Reason β} (hp : Coincide domain ns good p p')
    (hf : ∀ a, good a → Coincide domain ns good' (f a) (f' a)) : Coincide domain ns good' (p >>= f) (p' >>= f') := by
  intro m hm
  obtain ⟨he, hflow, ha, ht⟩ := hp m hm
  obtain ⟨he', hflow', hb, ht'⟩ := hf (p m).1 ha (p m).2 hflow
  refine ⟨?_, hflow', hb, fun j hj => (ht' j hj).trans (ht j hj)⟩
  show f' (p' m).1 (p' m).2 = f (p m).1 (p m).2
  rw [he, he']

/-- Reasoning that leaves the flow as it is and notes nothing of what nodes give back. -/
theorem of_flow_eq (h : ∀ m, (p m).2.flow = m.flow) (hr : ∀ m, (p m).2.memory.findings.results = m.memory.findings.results)
    : Coincide domain ns anything p p :=
  fun m hm => ⟨rfl, (h m).symm ▸ hm, trivial, fun _ _ => by rw [hr m]⟩

theorem flow : Coincide domain ns (Flow.Within domain) Reason.flow Reason.flow := fun _ hm => ⟨rfl, hm, hm, fun _ _ => rfl⟩

theorem memory : Coincide domain ns anything Reason.memory Reason.memory := of_flow_eq (fun _ => rfl) fun _ => rfl

theorem setFlow {f : Flow} (h : f.Within domain) : Coincide domain ns anything (Reason.setFlow f) (Reason.setFlow f) :=
  fun _ _ => ⟨rfl, h, trivial, fun _ _ => rfl⟩

theorem exit : Coincide domain ns anything Reason.exit Reason.exit := fun _ hm => ⟨rfl, hm.exit, trivial, fun _ _ => rfl⟩

theorem believe {entry : Nat} (h : domain entry) (types : TypeSet) :
    Coincide domain ns anything (Reason.believe entry types) (Reason.believe entry types) :=
  fun _ hm => ⟨rfl, hm.believe h types, trivial, fun _ _ => rfl⟩

theorem changeMemory {change : Memory → Memory} (h : ∀ k, (change k).findings.results = k.findings.results) :
    Coincide domain ns anything (Reason.changeMemory change) (Reason.changeMemory change) :=
  of_flow_eq (fun _ => rfl) fun m => h m.memory

theorem record {number : Nat} (r : Results) (hn : number ∈ ns) :
    Coincide domain ns anything (Reason.record number r) (Reason.record number r) :=
  fun m hm => ⟨rfl, hm, trivial, fun j hj => Touches.record r hn m j hj⟩

theorem along {start : Flow} (hs : start.Within domain) (h : Coincide domain ns good p p') :
    Coincide domain ns (Flow.Within domain) (Reason.along start p) (Reason.along start p') := by
  intro m hm
  obtain ⟨he, hflow, -, ht⟩ := h { m with flow := start } hs
  refine ⟨?_, hm, hflow, ht⟩
  show ((p' { m with flow := start }).2.flow, { (p' { m with flow := start }).2 with flow := m.flow }) = _
  rw [he]
  rfl

theorem optionForM {o : Option α} (h : ∀ a ∈ o, Coincide domain ns anything (f a) (f' a)) :
    Coincide domain ns anything (o.forM f) (o.forM f') := by
  cases o with
  | none => exact pure trivial
  | some a => exact h a rfl

theorem listForM {as : List α} (h : ∀ a ∈ as, Coincide domain ns anything (f a) (f' a)) :
    Coincide domain ns anything (as.forM f) (as.forM f') := by
  induction as with
  | nil => exact pure trivial
  | cons a as ih =>
    exact bind (h a (by simp)) fun _ _ => ih fun b hb => h b (.tail _ hb)

theorem touches (h : Coincide (fun _ => True) ns good p p') : Touches ns p :=
  fun m j hj => (h m fun _ _ => trivial).2.2.2 j hj

end Coincide

/-! ## Surroundings -/

/-- The nodes around deliver to the same, and the frame is the same. -/
structure Around.Alike (a a' : Around) : Prop where
  frame : a'.frame = a.frame
  definition? : a'.definition? = a.definition?
  emitTarget? : a'.emitTarget? = a.emitTarget?
  loopTarget? : ∀ label, a'.loopTarget? label = a.loopTarget? label
  isAttempted : ∀ kind, a'.isAttempted kind = a.isAttempted kind

namespace Around.Alike

variable {a a' : Around}

theorem refl (a : Around) : Alike a a := ⟨rfl, rfl, rfl, fun _ => rfl, fun _ => rfl⟩

/-- No value is delivered to a file. -/
theorem file (number number' : Nat) : Alike (Around.file.within number .file) (Around.file.within number' .file) :=
  ⟨rfl, rfl, rfl, fun _ => rfl, fun _ => rfl⟩

theorem within (h : Alike a a') (number : Nat) (kind : Node.Kind) : Alike (a.within number kind) (a'.within number kind) := by
  obtain ⟨hframe, hdefinition, hemit, hloop, hattempted⟩ := h
  refine ⟨hframe, ?_, ?_, fun label => ?_, fun inner => ?_⟩
  · simp only [Around.definition?, Around.within, List.find?_cons] at hdefinition ⊢
    split
    · rfl
    · exact hdefinition
  · simp only [Around.emitTarget?, Around.within, List.find?_cons] at hemit ⊢
    rw [hemit]
  · simp only [Around.loopTarget?, Around.within, loopIn?] at hloop ⊢
    rw [hloop]
  · simp only [Around.isAttempted, Around.within, attemptedIn] at hattempted ⊢
    rw [hattempted]

theorem withFrame (h : Alike a a') (frame : Frame) : Alike { a with frame } { a' with frame } :=
  ⟨rfl, h.definition?, h.emitTarget?, h.loopTarget?, h.isAttempted⟩

end Around.Alike

/-! ## Single steps -/

namespace World

variable {w : World} {domain : Nat → Prop} {ns : List Nat} {s' : ScopeTree} {a a' : Around} {number : Nat}
  {children : List Node} {n : Node}

theorem coincide_recordLoop (number : Nat) (r : Results) :
    Coincide domain ns anything (Reason.recordLoop number r) (Reason.recordLoop number r) :=
  .of_flow_eq (fun _ => rfl) fun _ => rfl

theorem coincide_invocation (ha : Around.Alike a a') (number : Nat) (name : String) (children : List Node)
    (rs : List Results) :
    Coincide domain ns anything (w.invocation a number name children rs)
      ((w.inScopes s').invocation a' number name children rs) := by
  have hraises : (w.inScopes s').raisesError a' name children = w.raisesError a name children := by
    unfold raisesError
    rw [ha.isAttempted]
    rfl
  have hinvoke : (w.inScopes s').invoke (firstOf rs 0) name = w.invoke (firstOf rs 0) name := rfl
  have hresult : ∀ result rounds : Results, Coincide domain ns anything
      (do unless rounds.toList.isEmpty do Reason.recordLoop number rounds
          return result : Reason Results)
      (do unless rounds.toList.isEmpty do Reason.recordLoop number rounds
          return result : Reason Results) := by
    intro result rounds
    dsimp only
    split
    · exact .pure trivial
    · exact .bind (coincide_recordLoop number _) fun _ _ => .pure trivial
  unfold invocation
  rw [hraises, hinvoke]
  dsimp only
  split
  · refine .bind .exit fun _ _ => ?_
    split
    · exact hresult _ _
    · exact .pure trivial
  · split
    · exact hresult _ _
    · exact .pure trivial

theorem coincide_deliver (ha : Around.Alike a a') (kind : Node.Kind) (r : Results) :
    Coincide domain ns anything (deliver a kind r) (deliver a' kind r) := by
  unfold deliver
  rw [ha.definition?, ha.emitTarget?]
  split
  · exact .bind (.optionForM fun _ _ => .changeMemory fun _ => rfl) fun _ _ => .exit
  · refine .optionForM fun p _ => ?_
    obtain ⟨owner, target⟩ := p
    dsimp only
    split
    · exact .changeMemory fun _ => rfl
    · exact .changeMemory fun _ => rfl
  · rw [ha.loopTarget?]
    exact .bind (.optionForM fun _ _ => .changeMemory fun _ => rfl) fun _ _ => .exit
  · exact .optionForM fun _ _ => .changeMemory fun _ => rfl
  · exact .pure trivial

theorem coincide_finish (number : Nat) : Coincide domain ns anything (finish number) (finish number) :=
  .bind (.of_flow_eq (fun _ => rfl) fun _ => rfl) fun _ _ =>
    .bind (.optionForM fun _ _ => coincide_recordLoop number _) fun _ _ => .of_flow_eq (fun _ => rfl) fun _ => rfl

theorem coincide_retire (outer inner : Flow) :
    Coincide domain ns anything (Reason.retire outer inner) (Reason.retire outer inner) := .of_flow_eq (fun _ => rfl) fun _ => rfl

theorem coincide_takeEmitted (number : Nat) :
    Coincide domain ns anything (Reason.takeEmitted number) (Reason.takeEmitted number) := .of_flow_eq (fun _ => rfl) fun _ => rfl

/-- Nodes whose numbers the scopes agree on. -/
theorem child_numbers (hn : ∀ j ∈ Node.numbersAll children, j ∈ ns) (hc : n ∈ children) :
    ∀ j ∈ n.numbers, j ∈ ns := fun j hj => hn j (Node.numbers_subset hc j hj)

theorem child_number (hn : ∀ j ∈ Node.numbersAll children, j ∈ ns) (hc : n ∈ children) :
    n.number ∈ ns := child_numbers hn hc _ n.number_mem_numbers

theorem below_numbers {nodes : List Node} (hn : ∀ j ∈ Node.numbersAll (n :: nodes), j ∈ ns) :
    ∀ j ∈ Node.numbersAll n.children, j ∈ ns := fun j hj =>
  child_numbers hn (.head _) j (by rw [Node.numbers_eq]; exact .tail _ hj)

section

variable (h : w.scopes.Agree domain ns s') {before f : Flow}
include h

theorem coincide_assign (hn : number ∈ ns) (procedure : Option Nat) (types : TypeSet) :
    Coincide domain ns anything (w.assign number procedure types) ((w.inScopes s').assign number procedure types) := by
  have hentry : (w.inScopes s').scopes.entryOf? number = w.scopes.entryOf? number := h.resolved number hn
  unfold assign
  rw [hentry]
  dsimp only
  split
  · rename_i x hx
    exact .bind (.changeMemory fun _ => rfl) fun _ _ => .bind (.believe (h.below number hn x hx) types) fun _ _ => .record _ hn
  · exact .record _ hn

theorem coincide_assignEach (r : Results) {targets : List Node}
    (hn : ∀ n ∈ targets, n.number ∈ ns) (index : Nat) :
    Coincide domain ns anything (w.assignEach r index targets) ((w.inScopes s').assignEach r index targets) := by
  induction targets generalizing index with
  | nil => exact .pure trivial
  | cons n targets ih =>
    exact .bind (coincide_assign h (hn n (by simp)) none _) fun _ _ =>
      ih (fun m hm => hn m (.tail _ hm)) (index + 1)

theorem coincide_readName (hn : number ∈ ns) :
    Coincide domain ns anything (w.readName number) ((w.inScopes s').readName number) := by
  have hentry : (w.inScopes s').scopes.entryOf? number = w.scopes.entryOf? number := h.resolved number hn
  unfold readName
  rw [hentry]
  split
  · rename_i x hx
    refine .bind .memory fun k _ => .bind .flow fun f _ => ?_
    rw [entryTypes_agree h (h.below number hn x hx)]
    exact .pure trivial
  · exact .pure trivial

theorem coincide_undeclaredTypes (ha : Around.Alike a a') (hn : number ∈ ns)
    (modifier : Modifier) :
    Coincide domain ns anything (w.undeclaredTypes a modifier number) ((w.inScopes s').undeclaredTypes a' modifier number) := by
  have hentry : (w.inScopes s').scopes.entryOf? number = w.scopes.entryOf? number := h.resolved number hn
  have hlooked : Coincide domain ns anything
      (do return ((w.scopes.entryOf? number).map (w.entryTypes (← Reason.memory).package (← Reason.flow))).getD .undefined)
      (do return ((w.scopes.entryOf? number).map
        ((w.inScopes s').entryTypes (← Reason.memory).package (← Reason.flow))).getD .undefined) := by
    refine .bind .memory fun k _ => .bind .flow fun f _ => ?_
    cases hx : w.scopes.entryOf? number with
    | none => exact .pure trivial
    | some x =>
      simp only [Option.map_some, entryTypes_agree h (h.below number hn x hx)]
      exact .pure trivial
  have hlinked : ((w.scopes.entryOf? number).bind (w.inScopes s').scopes.entryAt?).bind (·.imported) =
      ((w.scopes.entryOf? number).bind w.scopes.entryAt?).bind (·.imported) := by
    cases hx : w.scopes.entryOf? number with
    | none => rfl
    | some x =>
      exact h.link (h.below number hn x hx)
  unfold undeclaredTypes
  rw [hentry]
  cases modifier with
  | localVariable | constant | recursive => exact .pure trivial
  | imported =>
    dsimp only
    rw [hlinked, ha.frame]
    exact .pure trivial
  | global | dynamic => exact hlooked

theorem coincide_call (number : Nat) (hn : ∀ n ∈ children, n.number ∈ ns) :
    Coincide domain ns anything (w.call number children) ((w.inScopes s').call number children) := by
  unfold call
  refine .bind .memory fun k _ => ?_
  have hcalled : children.head?.bind ((w.inScopes s').calledProcedure? k) = children.head?.bind (w.calledProcedure? k) := by
    cases children with
    | nil => rfl
    | cons callee rest => exact calledProcedure?_agree h (hn callee (by simp)) k
  rw [hcalled]
  split
  · exact .pure trivial
  · dsimp only
    split
    · exact .bind (coincide_recordLoop number _) fun _ _ => .pure trivial
    · exact .pure trivial

/-- What is believed of a node that means an entry, if it means one. -/
theorem believed_agree (hn : number ∈ ns) (hf : f.Within domain) (types : TypeSet) :
    (((w.inScopes s').scopes.entryOf? number).elim f fun entry => f.believe entry types) =
        ((w.scopes.entryOf? number).elim f fun entry => f.believe entry types) ∧
      ((w.scopes.entryOf? number).elim f fun entry => f.believe entry types).Within domain := by
  have hentry : (w.inScopes s').scopes.entryOf? number = w.scopes.entryOf? number := h.resolved number hn
  rw [hentry]
  cases hx : w.scopes.entryOf? number with
  | none => exact ⟨rfl, hf⟩
  | some x => exact ⟨rfl, hf.believe (h.below number hn x hx) types⟩

theorem coincide_parameters (doc : TypeDoc) {list : List Node} (hn : ∀ n ∈ list, n.number ∈ ns) (hf : f.Within domain) :
    Coincide domain ns (Flow.Within domain) (w.parameters doc f list) ((w.inScopes s').parameters doc f list) := by
  fun_induction w.parameters doc f list with
  | case1 f =>
    rw [parameters]
    exact .pure hf
  | case2 f number name mode span children rest types ih =>
    obtain ⟨he, hw⟩ := believed_agree h (hn _ (.head _)) hf types
    rw [parameters, he]
    exact .bind (.record _ (hn _ (.head _))) fun _ _ => ih (fun n hm => hn n (.tail _ hm)) hw
  | case3 f n rest hkind ih =>
    rw [parameters]
    · exact ih (fun n hm => hn n (.tail _ hm)) hf
    · exact hkind

theorem coincide_loopVariables (rounds : Option Results) {vars : List Node} (hn : ∀ n ∈ vars, n.number ∈ ns) (index : Nat)
    (hf : f.Within domain) :
    Coincide domain ns (Flow.Within domain) (w.loopVariables rounds index f vars)
      ((w.inScopes s').loopVariables rounds index f vars) := by
  induction vars generalizing index f with
  | nil => exact .pure hf
  | cons v vars ih =>
    obtain ⟨he, hw⟩ := believed_agree h (hn v (by simp)) hf ((rounds.map (·.get index)).getD .undefined)
    rw [loopVariables, loopVariables, he]
    exact .bind (.record _ (hn v (.head _))) fun _ _ =>
      ih (fun m hm => hn m (.tail _ hm)) (index + 1) hw

theorem coincide_merge {inside : List Nat} (hi : ∀ j ∈ inside, j ∈ ns) (hb : before.Within domain) {outcomes : List Flow}
    (ho : ∀ f ∈ outcomes, f.Within domain) :
    Coincide domain ns anything (w.merge inside before outcomes) ((w.inScopes s').merge inside before outcomes) := by
  have hlive : ∀ f ∈ outcomes.filter (!·.exited), f.Within domain := fun f hf => ho f (List.mem_of_mem_filter hf)
  refine .bind (.listForM fun _ _ => coincide_retire before _) fun _ _ => ?_
  split
  · exact .setFlow hb.exit
  · refine .bind .memory fun k _ => ?_
    rw [mergeLive_agree h hi hlive]
    exact .setFlow (within_mergeLive hlive)

/-! ## The pass -/

/-- A branch without a condition of its own. -/
theorem coincide_otherwise (hb : before.Within domain) {denied : List Restriction} (hd : ∀ r ∈ denied, r.Within domain)
    {p p' : Reason (List Results)} (hp : Coincide domain ns anything p p') :
    Coincide domain ns (fun outcomes => ∀ f ∈ outcomes, f.Within domain)
      (do let package := (← Reason.memory).package
          let outcome ← Reason.along (w.narrowed package before denied) p
          return [outcome])
      (do let package := (← Reason.memory).package
          let outcome ← Reason.along ((w.inScopes s').narrowed package before denied) p'
          return [outcome]) := by
  refine .bind .memory fun k _ => ?_
  dsimp only
  rw [narrowed_agree h hd]
  exact .bind (.along (within_narrowed hd hb) hp) fun f hf => .pure (by simpa using hf)

end

mutual

/-- One case for each kind of node; the steps of a case coincide one by one. -/
theorem coincide_reason (h : w.scopes.Agree domain ns s') : ∀ (n : Node) (a a' : Around), Around.Alike a a' →
    (∀ j ∈ n.numbers, j ∈ ns) → Coincide domain ns anything (w.reason a n) ((w.inScopes s').reason a' n)
  | ⟨number, kind, span, children⟩, a, a', ha, hn => by
    have hnumber : number ∈ ns := hn number (by simp [Node.numbers])
    have hchildren : ∀ j ∈ Node.numbersAll children, j ∈ ns := fun j hj => hn j (by simp [Node.numbers, hj])
    have hinside : ∀ j ∈ number :: (Node.drain children).map Node.number, j ∈ ns := by
      rw [Node.map_number_drain]
      exact fun j hj => hn j (by simpa [Node.numbers] using hj)
    have hlasts : ∀ v ∈ children.dropLast, v ∈ children := fun v hv => (List.dropLast_sublist _).subset hv
    have hin : Around.Alike (a.within number kind) (a'.within number kind) := ha.within number kind
    have hend : ∀ r, Coincide domain ns anything (do Reason.record number r; return r : Reason Results)
        (do Reason.record number r; return r : Reason Results) :=
      fun r => .bind (.record r hnumber) fun _ _ => .pure trivial
    have heach := coincide_reasonEach h children (a.within number kind) (a'.within number kind) hin hchildren
    have hlast := coincide_reasonLast h children (a.within number kind) (a'.within number kind) hin hchildren
    rw [reason.eq_def w, reason.eq_def (w.inScopes s')]
    dsimp only
    cases kind with
    | package name => exact .bind (.changeMemory fun _ => rfl) fun _ _ => hend _
    | literal value =>
      dsimp only
      rw [ha.frame]
      exact hend _
    | vector => exact .bind heach fun _ _ => hend _
    | identifier name => exact .bind (coincide_readName h hnumber) fun _ _ => hend _
    | assignment =>
      exact .bind hlast fun r _ => .bind (.optionForM fun target ht =>
        coincide_assign h (child_number hchildren (List.mem_of_head? ht)) _ _) fun _ _ => hend _
    | augmentedAssignment operator =>
      exact .bind heach fun rs _ => .bind (.optionForM fun target ht =>
        coincide_assign h (child_number hchildren (List.mem_of_head? ht)) _ _) fun _ _ => hend _
    | multipleAssignment =>
      exact .bind hlast fun r _ => .bind (coincide_assignEach h r (fun v hv => child_number hchildren (hlasts v hv)) 0)
        fun _ _ => hend _
    | declaration modifier multiple =>
      cases multiple with
      | true =>
        exact .bind hlast fun r _ => .bind (coincide_assignEach h r (fun v hv => child_number hchildren (hlasts v hv)) 0)
          fun _ _ => hend _
      | false => exact .bind (coincide_reasonVariables h modifier .nothing children _ _ hin hchildren) fun _ _ => hend _
    | binary operator | unary operator => exact .bind heach fun rs _ => hend _
    | invocation name =>
      exact .bind heach fun rs _ => .bind (coincide_invocation ha number name children rs) fun _ _ => hend _
    | call =>
      exact .bind heach fun _ _ => .bind (coincide_call h number fun n hc => child_number hchildren hc) fun _ _ => hend _
    | returned | emitted | leave | loopBody =>
      exact .bind heach fun rs _ => .bind (coincide_deliver ha _ _) fun _ _ => hend _
    | continued | thrown => exact .bind heach fun _ _ => .bind .exit fun _ _ => hend _
    | conditional =>
      exact .bind .flow fun before hb =>
        .bind (coincide_reasonBranches h before hb [] (fun _ hr => nomatch hr) children _ _ hin hchildren) fun outcomes ho =>
        .bind (coincide_merge h hinside hb ho) fun _ _ => .bind (coincide_takeEmitted number) fun _ _ => hend _
    | forLoop label =>
      exact .bind (coincide_reasonFor h [] children _ _ hin (fun _ hj => nomatch hj) hchildren) fun _ _ =>
        .bind (coincide_takeEmitted number) fun _ _ => hend _
    | whileLoop label =>
      exact .bind (coincide_reasonWhile h children _ _ hin hchildren) fun _ _ =>
        .bind (coincide_takeEmitted number) fun _ _ => hend _
    | plainLoop label =>
      exact .bind .flow fun before hb => .bind (.along hb heach) fun after _ =>
        .bind (coincide_retire before after) fun _ _ => .bind (coincide_takeEmitted number) fun _ _ => hend _
    | attempt =>
      exact .bind .flow fun before hb =>
        .bind (coincide_reasonAttempt h before hb none children _ _ hin hchildren) fun outcomes ho =>
        .bind (coincide_merge h hinside hb ho) fun _ _ => .bind (coincide_takeEmitted number) fun _ _ => hend _
    | block | protect | lock | catching => exact .bind heach fun _ _ => .bind (coincide_takeEmitted number) fun _ _ => hend _
    | method header =>
      exact .bind .memory fun k _ =>
        .bind (coincide_reasonDefinition h _ children _ _ (hin.withFrame _) hchildren) fun _ _ =>
        .bind (coincide_finish number) fun _ _ => hend _
    | procedure name params doc =>
      simp only [ha.frame]
      exact .bind .flow fun f _ =>
        .bind (coincide_reasonDefinition h _ children _ _ (hin.withFrame _) hchildren) fun _ _ =>
        .bind (coincide_finish number) fun r _ => .bind (.of_flow_eq (fun _ => rfl) fun _ => rfl) fun _ _ => hend _
    | syntaxError => exact hend _
    | _ => exact .bind heach fun _ _ => hend _

theorem coincide_reasonEach (h : w.scopes.Agree domain ns s') : ∀ (nodes : List Node) (a a' : Around), Around.Alike a a' →
    (∀ j ∈ Node.numbersAll nodes, j ∈ ns) →
    Coincide domain ns anything (w.reasonEach a nodes) ((w.inScopes s').reasonEach a' nodes)
  | [], a, a', ha, hn => by
    rw [reasonEach, reasonEach]
    exact .pure trivial
  | n :: nodes, a, a', ha, hn => by
    rw [reasonEach, reasonEach]
    exact .bind (coincide_reason h n a a' ha fun j hj => hn j (by simp [hj])) fun _ _ =>
      .bind (coincide_reasonEach h nodes a a' ha fun j hj => hn j (by simp [hj])) fun _ _ => .pure trivial

theorem coincide_reasonLast (h : w.scopes.Agree domain ns s') : ∀ (nodes : List Node) (a a' : Around), Around.Alike a a' →
    (∀ j ∈ Node.numbersAll nodes, j ∈ ns) →
    Coincide domain ns anything (w.reasonLast a nodes) ((w.inScopes s').reasonLast a' nodes)
  | [], a, a', ha, hn => by
    rw [reasonLast, reasonLast]
    exact .pure trivial
  | [n], a, a', ha, hn => by
    rw [reasonLast, reasonLast]
    exact coincide_reason h n a a' ha fun j hj => hn j (by simp [hj])
  | m :: n :: nodes, a, a', ha, hn => by
    rw [reasonLast.eq_def w, reasonLast.eq_def (w.inScopes s')]
    exact coincide_reasonLast h (n :: nodes) a a' ha fun j hj => hn j (List.mem_append_right _ hj)

theorem coincide_reasonVariables (h : w.scopes.Agree domain ns s') (modifier : Modifier) (last : Results) :
    ∀ (nodes : List Node) (a a' : Around), Around.Alike a a' → (∀ j ∈ Node.numbersAll nodes, j ∈ ns) →
    Coincide domain ns anything (w.reasonVariables a modifier last nodes) ((w.inScopes s').reasonVariables a' modifier last nodes)
  | [], a, a', ha, hn => by
    rw [reasonVariables, reasonVariables]
    exact .pure trivial
  | ⟨number, kind, span, children⟩ :: nodes, a, a', ha, hn => by
    have hnumber : number ∈ ns := hn number (by simp [Node.numbers])
    have hrest : ∀ r, Coincide domain ns anything (w.reasonVariables a modifier r nodes)
        ((w.inScopes s').reasonVariables a' modifier r nodes) :=
      fun r => coincide_reasonVariables h modifier r nodes a a' ha fun j hj => hn j (by simp [hj])
    have hother : Coincide domain ns anything
        (do let types ← w.undeclaredTypes a modifier number
            w.assign number none types
            w.reasonVariables a modifier last nodes)
        (do let types ← (w.inScopes s').undeclaredTypes a' modifier number
            (w.inScopes s').assign number none types
            (w.inScopes s').reasonVariables a' modifier last nodes) :=
      .bind (coincide_undeclaredTypes h ha hnumber modifier) fun types _ =>
        .bind (coincide_assign h hnumber none types) fun _ _ => hrest last
    rw [reasonVariables.eq_def w, reasonVariables.eq_def (w.inScopes s')]
    match children with
    | [value] =>
      exact .bind (coincide_reason h value _ _ (ha.within number kind) fun j hj => hn j (by simp [Node.numbers, hj]))
        fun r _ => .bind (coincide_assign h hnumber _ _) fun _ _ => hrest r
    | [] => exact hother
    | _ :: _ :: _ => exact hother

theorem coincide_reasonBranches (h : w.scopes.Agree domain ns s') (before : Flow) (hb : before.Within domain)
    (denied : List Restriction) (hd : ∀ r ∈ denied, r.Within domain) :
    ∀ (nodes : List Node) (a a' : Around), Around.Alike a a' → (∀ j ∈ Node.numbersAll nodes, j ∈ ns) →
    Coincide domain ns (fun outcomes => ∀ f ∈ outcomes, f.Within domain) (w.reasonBranches a before denied nodes)
      ((w.inScopes s').reasonBranches a' before denied nodes)
  | [], a, a', ha, hn => by
    rw [reasonBranches, reasonBranches]
    refine .bind .memory fun k _ => ?_
    rw [narrowed_agree h hd]
    exact .pure (by simpa using within_narrowed hd hb)
  | ⟨number, kind, span, [condition, body]⟩ :: nodes, a, a', ha, hn => by
    have hin := ha.within number kind
    have hcondition : ∀ j ∈ condition.numbers, j ∈ ns := child_numbers (below_numbers hn) (by simp)
    have hbody : ∀ j ∈ body.numbers, j ∈ ns := child_numbers (below_numbers hn) (by simp)
    rw [reasonBranches, reasonBranches]
    refine .bind .memory fun k _ => ?_
    dsimp only
    rw [narrowed_agree h hd]
    refine .bind (.along (within_narrowed hd hb) (coincide_reason h condition _ _ hin hcondition)) fun tested ht =>
      .bind .memory fun k' _ => ?_
    -- the restriction is found after the condition has been reasoned about
    obtain ⟨he, hw⟩ := restriction_agree h hcondition k'
    have hheld : ∀ r ∈ denied ++ [w.restriction k' condition], r.Within domain :=
      List.forall_mem_append.mpr ⟨hd, by simpa using hw⟩
    have hdenied : ∀ r ∈ denied ++ [(w.restriction k' condition).negate], r.Within domain :=
      List.forall_mem_append.mpr ⟨hd, by simpa using hw.negate⟩
    rw [he, narrowed_agree h hheld]
    exact .bind (.along (within_narrowed hheld ht) (coincide_reason h body _ _ hin hbody)) fun f hf =>
      .bind (.of_flow_eq (fun _ => rfl) fun _ => rfl) fun _ _ =>
      .bind (coincide_reasonBranches h before hb _ hdenied nodes a a' ha fun j hj => hn j (by simp [hj])) fun fs hfs =>
      .pure (List.forall_mem_cons.mpr ⟨hf, hfs⟩)
  | ⟨number, kind, span, []⟩ :: nodes, a, a', ha, hn => by
    rw [reasonBranches.eq_def w, reasonBranches.eq_def (w.inScopes s')]
    exact coincide_otherwise h hb hd (coincide_reasonEach h [] _ _ (ha.within number kind) (below_numbers hn))
  | ⟨number, kind, span, [c]⟩ :: nodes, a, a', ha, hn => by
    rw [reasonBranches.eq_def w, reasonBranches.eq_def (w.inScopes s')]
    exact coincide_otherwise h hb hd (coincide_reasonEach h [c] _ _ (ha.within number kind) (below_numbers hn))
  | ⟨number, kind, span, c :: d :: e :: cs⟩ :: nodes, a, a', ha, hn => by
    rw [reasonBranches.eq_def w, reasonBranches.eq_def (w.inScopes s')]
    exact coincide_otherwise h hb hd
      (coincide_reasonEach h (c :: d :: e :: cs) _ _ (ha.within number kind) (below_numbers hn))

theorem coincide_reasonFor (h : w.scopes.Agree domain ns s') : ∀ (vars nodes : List Node) (a a' : Around),
    Around.Alike a a' → (∀ j ∈ Node.numbersAll vars, j ∈ ns) → (∀ j ∈ Node.numbersAll nodes, j ∈ ns) →
    Coincide domain ns anything (w.reasonFor a vars nodes) ((w.inScopes s').reasonFor a' vars nodes)
  | vars, [], a, a', ha, hv, hn | vars, [_], a, a', ha, hv, hn => by
    rw [reasonFor, reasonFor]
    exact .pure trivial
  | vars, [iterable, body], a, a', ha, hv, hn => by
    rw [reasonFor, reasonFor]
    exact .bind (coincide_reason h iterable a a' ha (child_numbers hn (by simp))) fun _ _ => .bind .flow fun before hb =>
      .bind .memory fun k _ =>
      .bind (coincide_loopVariables h _ (fun v hm => child_number hv hm) 0 hb) fun start hs =>
      .bind (.along hs (coincide_reason h body a a' ha (child_numbers hn (by simp)))) fun after _ =>
      coincide_retire before after
  | vars, v :: n :: m :: nodes, a, a', ha, hv, hn => by
    rw [reasonFor.eq_def w, reasonFor.eq_def (w.inScopes s')]
    refine coincide_reasonFor h (vars ++ [v]) (n :: m :: nodes) a a' ha (fun j hj => ?_) fun j hj =>
      hn j (List.mem_append_right _ hj)
    rw [Node.numbersAll_append, List.mem_append] at hj
    exact hj.elim (hv j) fun hj => hn j (by simp_all)

theorem coincide_reasonWhile (h : w.scopes.Agree domain ns s') : ∀ (nodes : List Node) (a a' : Around),
    Around.Alike a a' → (∀ j ∈ Node.numbersAll nodes, j ∈ ns) →
    Coincide domain ns anything (w.reasonWhile a nodes) ((w.inScopes s').reasonWhile a' nodes)
  | [condition, body], a, a', ha, hn => by
    rw [reasonWhile, reasonWhile]
    have hcondition := child_numbers hn (by simp : condition ∈ [condition, body])
    refine .bind (coincide_reason h condition a a' ha hcondition) fun _ _ => .bind .flow fun before hb =>
      .bind .memory fun k _ => ?_
    obtain ⟨he, hw⟩ := restriction_agree h hcondition k
    have hrs : ∀ r ∈ [w.restriction k condition], r.Within domain := by simpa using hw
    dsimp only
    rw [he, narrowed_agree h hrs]
    exact .bind (.of_flow_eq (fun _ => rfl) fun _ => rfl) fun _ _ =>
      .bind (.along (within_narrowed hrs hb) (coincide_reason h body a a' ha (child_numbers hn (by simp)))) fun after _ =>
      coincide_retire before after
  | [], a, a', ha, hn | [_], a, a', ha, hn | _ :: _ :: _ :: _, a, a', ha, hn => by
    rw [reasonWhile.eq_def w, reasonWhile.eq_def (w.inScopes s')]
    exact .pure trivial

theorem coincide_reasonAttempt (h : w.scopes.Agree domain ns s') (before : Flow) (hb : before.Within domain)
    (binding : Option String) :
    ∀ (nodes : List Node) (a a' : Around), Around.Alike a a' → (∀ j ∈ Node.numbersAll nodes, j ∈ ns) →
    Coincide domain ns (fun outcomes => ∀ f ∈ outcomes, f.Within domain) (w.reasonAttempt a before binding nodes)
      ((w.inScopes s').reasonAttempt a' before binding nodes)
  | [], a, a', ha, hn => by
    rw [reasonAttempt, reasonAttempt]
    exact .pure fun _ hf => nomatch hf
  | n :: nodes, a, a', ha, hn => by
    have hnumbers := child_numbers hn ((.head _) : n ∈ n :: nodes)
    have hnode := coincide_reason h n a a' ha hnumbers
    have hrest : ∀ binding, Coincide domain ns (fun outcomes => ∀ f ∈ outcomes, f.Within domain)
        (w.reasonAttempt a before binding nodes) ((w.inScopes s').reasonAttempt a' before binding nodes) :=
      fun binding => coincide_reasonAttempt h before hb binding nodes a a' ha fun j hj => hn j (by simp [hj])
    rw [reasonAttempt.eq_def w, reasonAttempt.eq_def (w.inScopes s')]
    dsimp only
    split
    · exact .bind (.record _ (child_number hn (.head _))) fun _ _ => hrest _
    · obtain ⟨he, hw⟩ := handlerFlow_agree h hnumbers before binding
      rw [he]
      exact .bind (.along (hw hb) hnode) fun f hf => .bind (hrest _) fun fs hfs => .pure (List.forall_mem_cons.mpr ⟨hf, hfs⟩)
    · exact .bind (.along hb hnode) fun f hf => .bind (hrest _) fun fs hfs => .pure (List.forall_mem_cons.mpr ⟨hf, hfs⟩)

theorem coincide_reasonDefinition (h : w.scopes.Agree domain ns s') (doc : TypeDoc) :
    ∀ (nodes : List Node) (a a' : Around), Around.Alike a a' → (∀ j ∈ Node.numbersAll nodes, j ∈ ns) →
    Coincide domain ns anything (w.reasonDefinition a doc nodes) ((w.inScopes s').reasonDefinition a' doc nodes)
  | [list, body], a, a', ha, hn => by
    rw [reasonDefinition, reasonDefinition]
    have hlist : ∀ p ∈ list.children, p.number ∈ ns := fun p hp =>
      child_numbers hn (by simp : list ∈ [list, body]) _ (Node.mem_numbers_of_child hp p.number_mem_numbers)
    exact .bind (coincide_parameters h doc hlist .start) fun start hs =>
      .bind (.along hs (coincide_reason h body a a' ha (child_numbers hn (by simp)))) fun after _ =>
      .of_flow_eq (fun _ => rfl) fun _ => rfl
  | [], a, a', ha, hn | [_], a, a', ha, hn | _ :: _ :: _ :: _, a, a', ha, hn => by
    rw [reasonDefinition.eq_def w, reasonDefinition.eq_def (w.inScopes s')]
    exact .pure trivial

end

/-! ## In one world -/

theorem touches_reason (w : World) (n : Node) (around : Around) : Touches n.numbers (w.reason around n) :=
  (coincide_reason (.refl w.scopes n.numbers) n around around (.refl around) fun _ h => h).touches

theorem touches_reasonEach (w : World) (nodes : List Node) (around : Around) :
    Touches (Node.numbersAll nodes) (w.reasonEach around nodes) :=
  (coincide_reasonEach (.refl w.scopes _) nodes around around (.refl around) fun _ h => h).touches

theorem touches_reasonVariables (w : World) (around : Around) (modifier : Modifier) (last : Results) (nodes : List Node) :
    Touches (Node.numbersAll nodes) (w.reasonVariables around modifier last nodes) :=
  (coincide_reasonVariables (.refl w.scopes _) modifier last nodes around around (.refl around) fun _ h => h).touches

theorem touches_reasonBranches (w : World) (around : Around) (before : Flow) (denied : List Restriction)
    (nodes : List Node) : Touches (Node.numbersAll nodes) (w.reasonBranches around before denied nodes) :=
  (coincide_reasonBranches (.refl w.scopes _) before (fun _ _ => trivial) denied (fun _ _ _ _ => trivial) nodes around
    around (.refl around) fun _ h => h).touches

theorem touches_reasonAttempt (w : World) (around : Around) (before : Flow) (binding : Option String) (nodes : List Node) :
    Touches (Node.numbersAll nodes) (w.reasonAttempt around before binding nodes) :=
  (coincide_reasonAttempt (.refl w.scopes _) before (fun _ _ => trivial) binding nodes around around (.refl around)
    fun _ h => h).touches

end World

end Magik
