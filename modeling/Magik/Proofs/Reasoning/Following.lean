/-
  Magik.Proofs.Reasoning.Following — reasoning follows the story of a file.

  Of what reasoning does to the memory, a call of a name depends on the procedures that
  entries were given and on what was found of procedures. These change at the marks of the
  story and nowhere else, one mark after the other (`Advances`), and what is noted at one
  call changes at its mark. Each rule of reasoning is a way to follow the story of its node
  (`Reasons.tells`).
-/

import Magik.Proofs.Reasoning.Passing
import Magik.Proofs.Running.Story

namespace Magik

open Node (Way Formed)
open Running (Mark Given story storyEach storyDeclared own gives ofVariable calleeOf?)

/-! ## Marks and the memory -/

namespace Running

def Given.procedure? : Given → Option Nat
  | .procedure number => some number
  | _ => none

theorem Given.procedure?_ofValue (n : Node) : (Given.ofValue n).procedure? = World.procedureNumber? n := by
  unfold Given.ofValue World.procedureNumber?
  split <;> rfl

/-- The procedures that entries were last given, after a mark. -/
def Mark.turn (procedures : Table Nat Nat) : Mark → Table Nat Nat
  | .given _ entry what => what.procedure?.elim (procedures.erase entry) (procedures.insert entry)
  | _ => procedures

end Running

/-- What calling the name of an entry gives back. -/
def World.callResult (w : World) (k : Memory) (entry : Nat) : Results :=
  ((w.procedureOf? k.procedures entry).bind k.findings.procedureResults.find?).getD .unknown

/-- Nothing changes that calls depend on, and nothing at one call. -/
structure Unmarked (call : Nat) (k k' : Memory) : Prop where
  procedures : k'.procedures = k.procedures
  made : k'.findings.procedureResults = k.findings.procedureResults
  result : k'.findings.results.find? call = k.findings.results.find? call

/-- What changes at a mark. -/
structure Marked (w : World) (call : Nat) (mark : Mark) (k k' : Memory) : Prop where
  procedures : k'.procedures = mark.turn k.procedures
  made {j : Nat} : mark ≠ .made j → k'.findings.procedureResults.find? j = k.findings.procedureResults.find? j
  called {entry : Nat} : mark = .called call entry → k'.findings.results.find? call = some (w.callResult k entry)
  result : mark.node ≠ call → k'.findings.results.find? call = k.findings.results.find? call

inductive Advances (w : World) (call : Nat) : List Mark → Memory → Memory → Prop
  | done {k} : Advances w call [] k k
  | unmarked {s k k' k''} (h : Unmarked call k k') (hs : Advances w call s k' k'') : Advances w call s k k''
  | mark {mark s k k' k''} (h : Marked w call mark k k') (hs : Advances w call s k' k'') :
      Advances w call (mark :: s) k k''

theorem Unmarked.refl (call : Nat) (k : Memory) : Unmarked call k k := ⟨rfl, rfl, rfl⟩

theorem Unmarked.trans {call : Nat} {k k' k'' : Memory} (h : Unmarked call k k') (h' : Unmarked call k' k'') :
    Unmarked call k k'' :=
  ⟨h'.procedures.trans h.procedures, h'.made.trans h.made, h'.result.trans h.result⟩

namespace Advances

variable {w : World} {call : Nat} {s s' : List Mark} {k k' k'' : Memory}

theorem append (h : Advances w call s k k') (h' : Advances w call s' k' k'') : Advances w call (s ++ s') k k'' := by
  induction h with
  | done => exact h'
  | unmarked hu _ ih => exact .unmarked hu (ih h')
  | mark hm _ ih => exact .mark hm (ih h')

theorem split (h : Advances w call (s ++ s') k k'') : ∃ k', Advances w call s k k' ∧ Advances w call s' k' k'' := by
  generalize he : s ++ s' = marks at h
  induction h generalizing s with
  | done =>
    obtain ⟨rfl, rfl⟩ := List.append_eq_nil_iff.mp he
    exact ⟨_, .done, .done⟩
  | unmarked hu _ ih =>
    obtain ⟨k', h, h'⟩ := ih he
    exact ⟨k', .unmarked hu h, h'⟩
  | mark hm hs ih =>
    cases s with
    | nil =>
      rw [List.nil_append] at he
      subst he
      exact ⟨_, .done, .mark hm hs⟩
    | cons mark s =>
      obtain ⟨rfl, hrest⟩ := List.cons.inj he
      obtain ⟨k', h, h'⟩ := ih hrest
      exact ⟨k', .mark hm h, h'⟩

theorem uncons {mark : Mark} (h : Advances w call (mark :: s) k k'') :
    ∃ k₁ k₂, Unmarked call k k₁ ∧ Marked w call mark k₁ k₂ ∧ Advances w call s k₂ k'' := by
  generalize he : mark :: s = marks at h
  induction h with
  | done => cases he
  | unmarked hu _ ih =>
    obtain ⟨k₁, k₂, hu', hm, hs⟩ := ih he
    exact ⟨k₁, k₂, hu.trans hu', hm, hs⟩
  | mark hm hs =>
    cases he
    exact ⟨_, _, .refl _ _, hm, hs⟩

theorem procedures_eq (h : Advances w call s k k') : k'.procedures = s.foldl Mark.turn k.procedures := by
  induction h with
  | done => rfl
  | unmarked hu _ ih => rw [ih, hu.procedures]
  | mark hm _ ih => rw [ih, hm.procedures, List.foldl_cons]

theorem procedureResults_eq {j : Nat} (h : Advances w call s k k') (hj : .made j ∉ s) :
    k'.findings.procedureResults.find? j = k.findings.procedureResults.find? j := by
  induction h with
  | done => rfl
  | unmarked hu _ ih => rw [ih hj, hu.made]
  | mark hm _ ih =>
    rw [List.mem_cons, not_or] at hj
    rw [ih hj.2, hm.made (Ne.symm hj.1)]

theorem result_eq (h : Advances w call s k k') (hs : ∀ mark ∈ s, mark.node ≠ call) :
    k'.findings.results.find? call = k.findings.results.find? call := by
  induction h with
  | done => rfl
  | unmarked hu _ ih => rw [ih hs, hu.result]
  | mark hm _ ih => rw [ih fun mark hmark => hs mark (List.mem_cons_of_mem _ hmark), hm.result (hs _ (by simp))]

theorem andUnmarked (h : Advances w call s k k') (h' : Unmarked call k' k'') : Advances w call s k k'' := by
  simpa using h.append (.unmarked h' .done)

end Advances

/-! ## Steps without a mark -/

/-- A piece of reasoning without a mark. -/
def Still {α : Type} (call : Nat) (p : Reason α) : Prop := ∀ m : Moment, Unmarked call m.memory (p m).2.memory

namespace Still

variable {α β : Type} {call number : Nat} {w : World} {p : Reason α}

theorem bind {f : α → Reason β} (hp : Still call p) (hf : ∀ a, Still call (f a)) : Still call (p >>= f) :=
  fun m => (hp m).trans (hf (p m).1 (p m).2)

theorem of_calm {numbers conditions : List Nat} (h : Calm numbers conditions p) (hc : call ∉ numbers) : Still call p :=
  fun m => ⟨(h m).procedures, (h m).made, ((h m).same hc).results⟩

/-- Reasoning that is calm and notes nothing. -/
theorem calmly (h : Calm [] [] p) : Still call p := of_calm h (by simp)

theorem of_slight (h : Slight number p) : Still call p := by
  intro m
  obtain ⟨-, rounds, he⟩ := h m
  rw [he]
  cases rounds <;> exact ⟨rfl, rfl, rfl⟩

theorem pure (a : α) : Still call (pure a : Reason α) := calmly (.pure a)

theorem takeEmitted (number : Nat) : Still call (Reason.takeEmitted number) := fun _ => ⟨rfl, rfl, rfl⟩

theorem record (r : Results) (hn : number ≠ call) : Still call (Reason.record number r) :=
  of_calm (.record r (List.mem_singleton_self number) : Calm _ [] _) (by simpa using hn.symm)

theorem merge (inside : List Nat) (before : Flow) (outcomes : List Flow) :
    Still call (w.merge inside before outcomes) :=
  calmly (.merge inside before outcomes)

theorem finish (number : Nat) : Still call (World.finish number) := by
  intro m
  rw [World.finish_eq]
  unfold Memory.finish
  cases m.memory.looped.find? number <;> exact ⟨rfl, rfl, rfl⟩

theorem bindsParameters {doc : TypeDoc} {f : Flow} {ps : List Node} {p : Reason Flow}
    (h : World.BindsParameters w doc f ps p) (hn : ∀ v ∈ ps, v.number ≠ call) : Still call p := by
  induction h with
  | nil => exact pure _
  | cons _ ih => exact bind (record _ (hn _ (.head _))) fun _ => ih fun u hu => hn u (.tail _ hu)

end Still

/-! ## Steps with marks -/

/-- A piece of reasoning that goes by some marks. -/
def Tells {α : Type} (w : World) (call : Nat) (p : Reason α) (s : List Mark) : Prop :=
  ∀ m : Moment, Advances w call s m.memory (p m).2.memory

namespace Tells

variable {α β : Type} {w : World} {call number : Nat} {s s' : List Mark} {p : Reason α} {f : α → Reason β}

theorem of_still (h : Still call p) : Tells w call p [] := fun m => .unmarked (h m) .done

theorem bind (hp : Tells w call p s) (hf : ∀ a, Tells w call (f a) s') : Tells w call (p >>= f) (s ++ s') :=
  fun m => (hp m).append (hf (p m).1 (p m).2)

theorem andStill (hp : Tells w call p s) (hf : ∀ a, Still call (f a)) : Tells w call (p >>= f) s :=
  fun m => (hp m).andUnmarked (hf (p m).1 (p m).2)

theorem afterStill (hp : Still call p) (hf : ∀ a, Tells w call (f a) s) : Tells w call (p >>= f) s :=
  fun m => .unmarked (hp m) (hf (p m).1 (p m).2)

theorem along (start : Flow) (h : Tells w call p s) : Tells w call (Reason.along start p) s :=
  fun m => h { m with flow := start }

theorem noted {p : Reason Results} (h : Tells w call p s) (hn : number ≠ call) :
    Tells w call (World.noted number p) s :=
  h.andStill fun r => .bind (.record r hn) fun _ => .pure _

theorem assign {procedure : Option Nat} (what : Given) (hp : what.procedure? = procedure) (types : TypeSet)
    (hn : number ≠ call) : Tells w call (w.assign number procedure types) (gives w.scopes number what) := by
  intro m
  have hnoted := Still.record (.single types) hn m
  subst hp
  unfold World.assign gives
  cases w.scopes.entryOf? number with
  | none => exact .unmarked hnoted .done
  | some entry =>
    refine .mark ?_ .done
    exact ⟨rfl, fun _ => rfl, fun he => (nomatch he), fun _ => hnoted.result⟩

theorem assignEach (r : Results) {targets : List Node} (hn : ∀ v ∈ targets, v.number ≠ call) (index : Nat) :
    Tells w call (w.assignEach r index targets) (targets.flatMap fun v => gives w.scopes v.number .other) := by
  induction targets generalizing index with
  | nil => exact of_still (.pure _)
  | cons v targets ih =>
    rw [List.flatMap_cons]
    exact (assign .other rfl _ (hn v (by simp))).bind fun _ =>
      ih (fun u hu => hn u (.tail _ hu)) (index + 1)

theorem recordProcedure (number : Nat) (r : Results) :
    Tells w call (Reason.recordProcedure number r) [.made number] := by
  refine fun m => .mark ?_ .done
  refine ⟨rfl, fun {j} hj => ?_, fun he => (nomatch he), fun _ => rfl⟩
  show (m.memory.findings.procedureResults.insert number r).find? j = _
  rw [Table.find?_insert, if_neg (fun he : number = j => hj (congrArg Mark.made he))]

end Tells

/-! ## Reasoning by the rules -/

/-- Nothing but a call of a name has this number below a node. -/
structure CallsAt (t : ScopeTree) (call : Nat) (n : Node) : Prop where
  formed : n.Formed
  only {m : Node} {as : List Node} : Way n m as → m.number = call → m.kind = .call ∧ (calleeOf? t m).isSome

namespace CallsAt

variable {t : ScopeTree} {call : Nat} {n c : Node}

theorem child (h : CallsAt t call n) (hc : c ∈ n.children) : CallsAt t call c :=
  ⟨h.formed.child hc, fun hw => h.only (hw.under hc)⟩

theorem ne (h : CallsAt t call n) (hk : n.kind ≠ .call) : n.number ≠ call :=
  fun he => hk (h.only .root he).1

theorem leaf (h : CallsAt t call n) (hk : n.kind.isLeaf) : story t n = [] ∧ n.number ≠ call := by
  refine ⟨Running.story_of_isLeaf h.formed hk, h.ne fun he => ?_⟩
  rw [he] at hk
  cases hk

end CallsAt

namespace World

variable {w : World} {call : Nat}

theorem call_fst (number : Nat) (callee : Node) (args : List Node) (m : Moment) :
    (w.call number (callee :: args) m).1 =
      ((w.calledProcedure? m.memory callee).bind m.memory.findings.procedureResults.find?).getD .unknown := by
  have hmemory : ∀ f : Memory → Reason Results, (Reason.memory >>= f) m = f m.memory m := fun _ => rfl
  rw [call, hmemory, List.head?_cons, Option.bind_some]
  cases w.calledProcedure? m.memory callee with
  | none => rfl
  | some procedure =>
    dsimp only
    cases m.memory.findings.loopResults.find? procedure <;> rfl

/-- A call of a name gives back what is found of the procedure that the name was given last. -/
theorem tells_call {number : Nat} {span : Span} {parts : List Node} (hc : CallsAt w.scopes call ⟨number, .call, span, parts⟩) :
    Tells w call (noted number (w.call number parts)) (own w.scopes ⟨number, .call, span, parts⟩) := by
  cases he : calleeOf? w.scopes ⟨number, .call, span, parts⟩ with
  | none =>
    have hne : number ≠ call := fun hn => by simpa [he] using (hc.only .root hn).2
    simp only [own, he]
    exact .noted (.of_still (.of_slight (slight_call _))) hne
  | some entry =>
    obtain _ | ⟨callee, args⟩ := parts
    · cases he
    have hcallee : ∀ k : Memory, w.calledProcedure? k callee = w.procedureOf? k.procedures entry := by
      intro k
      obtain ⟨name, kind, _, _⟩ := callee
      cases kind with
      | identifier _ =>
        have hentry : w.scopes.entryOf? name = some entry := he
        simp [calledProcedure?, hentry]
      | _ => cases he
    simp only [own, he]
    intro m
    have hstill : Unmarked call m.memory (w.call number (callee :: args) m).2.memory := Still.of_slight (slight_call _) m
    have hresult := @call_fst w number callee args m
    rw [hcallee] at hresult
    refine .mark ?_ .done
    refine ⟨hstill.procedures, fun {j} _ => congrArg (Table.find? · j) hstill.made, fun hm => ?_, fun hn => ?_⟩
    · obtain ⟨rfl, rfl⟩ := Mark.called.inj hm
      let called := w.call number (callee :: args) m
      show (called.2.memory.findings.results.insert number called.1).find? number = some (w.callResult m.memory entry)
      rw [Table.find?_insert_self, hresult, callResult]
    · exact (hstill.trans (Still.record _ hn (w.call number (callee :: args) m).2)).result

theorem parameters_unmarked {n list body : Node} (hc : CallsAt w.scopes call n) (hk : n.kind.isDefinition)
    (he : n.children = [list, body]) :
    story w.scopes list = [] ∧ ∀ v ∈ list.children, v.number ≠ call := by
  obtain ⟨_, _, he', hlist, -⟩ := hc.formed.layout.of_isDefinition hk
  rw [he] at he'
  cases he'
  have hparameters : CallsAt w.scopes call list := hc.child (by simp [he])
  have hl := hparameters.formed.layout
  rw [hlist] at hl
  refine ⟨Running.story_of_parameterList hparameters.formed hlist, fun v hv => ?_⟩
  obtain ⟨name, mode, hvk⟩ := hl.parameters v hv
  exact (hparameters.child hv).ne (by simp [hvk])

section

variable {around : Around} {number : Nat} {kind : Node.Kind} {span : Span} {heads parts : List Node}
  {q : List Results → Reason Results}

theorem Closes.still (h : Closes w around number kind heads parts q) (hk : kind.isInOrder) (rs : List Results) :
    Still call (q rs) := by
  cases h with
  | made => exact .pure _
  | name => exact .of_slight (slight_readName _ number)
  | invocation => exact .of_slight (slight_invocation _ _ _)
  | call => exact .of_slight (slight_call _)
  | deliver =>
    refine .bind (fun m => ?_) fun _ => .pure _
    obtain ⟨-, _, _, _, he⟩ := deliver_waiting around kind (valuesOf rs) m
    rw [he]
    exact ⟨rfl, rfl, rfl⟩
  | package | depart | enclosure => exact fun _ => ⟨rfl, rfl, rfl⟩
  | _ => cases hk

/-- Names in front, that are given values, have no marks of their own. -/
theorem Closes.unmarked (h : Closes w around number kind heads parts q)
    (hc : CallsAt w.scopes call ⟨number, kind, span, heads ++ parts⟩) :
    ∀ v ∈ heads, story w.scopes v = [] ∧ v.number ≠ call := by
  intro v hv
  have hcv := hc.child (List.mem_append_left parts hv)
  cases h with
  | assignment ht =>
    obtain rfl := List.mem_singleton.mp hv
    exact hcv.leaf (ht ▸ rfl)
  | several ht =>
    obtain ⟨name, hk⟩ := ht v hv
    exact hcv.leaf (hk ▸ rfl)
  | shared ht =>
    obtain ⟨⟨name, hk⟩, hnil⟩ := ht v hv
    exact ⟨Running.story_of_declared hk hnil, hcv.ne (by simp [hk])⟩
  | _ => cases hv

/-- What a node does after its parts. -/
theorem Closes.tells (h : Closes w around number kind heads parts q)
    (hc : CallsAt w.scopes call ⟨number, kind, span, heads ++ parts⟩) (rs : List Results) :
    Tells w call (noted number (q rs)) (own w.scopes ⟨number, kind, span, heads ++ parts⟩) := by
  have hheads := fun v hv => (h.unmarked hc v hv).2
  have hinOrder (hi : kind.isInOrder) (hk : kind ≠ .call) :
      Tells w call (noted number (q rs)) (own w.scopes ⟨number, kind, span, heads ++ parts⟩) := by
    have hown : own w.scopes ⟨number, kind, span, heads ++ parts⟩ = [] := by
      cases kind <;> first | rfl | exact absurd rfl hk | cases hi
    rw [hown]
    exact .noted (.of_still (h.still hi rs)) (hc.ne hk)
  cases h with
  | call => exact tells_call hc
  | @assignment target value =>
    have hown : own w.scopes ⟨number, .assignment, span, [target, value]⟩ = gives w.scopes target.number (.ofValue value) := by
      simp [own]
    rw [List.singleton_append, hown]
    refine .noted (.andStill (.assign _ (Given.procedure?_ofValue value) _ ?_) fun _ => .pure _) (hc.ne (by simp))
    exact hheads target (.head _)
  | @augmented operator target value name ht =>
    have hown : own w.scopes ⟨number, .augmentedAssignment operator, span, [target, value]⟩ =
        gives w.scopes target.number .other := by simp [own]
    rw [List.nil_append, hown]
    refine .noted (.andStill (.assign .other rfl _ ?_) fun _ => .pure _) (hc.ne (by simp))
    exact (hc.child (c := target) (by simp)).ne (by simp [ht])
  | several | shared =>
    simp only [own, List.dropLast_concat]
    exact .noted (.andStill (.assignEach _ hheads 0) fun _ => .pure _) (hc.ne (by simp))
  | made h => exact hinOrder (isInOrder_of_made? h) (by rintro rfl; cases h)
  | deliver h | depart h | enclosure h =>
    exact hinOrder (by cases kind <;> first | rfl | cases h) (by rintro rfl; cases h)
  | _ => exact hinOrder rfl (by simp)

theorem Starts.still {start : Flow → Reason Flow} {tests : List Node} {body : Node} (h : Starts w kind heads tests start)
    (hc : CallsAt w.scopes call ⟨number, kind, span, heads ++ (tests ++ [body])⟩) (before : Flow) :
    story w.scopes ⟨number, kind, span, heads ++ (tests ++ [body])⟩ = storyEach w.scopes tests ++ story w.scopes body ∧
      number ≠ call ∧ Still call (start before) := by
  cases h with
  | forLoop hv =>
    have hvars : ∀ v ∈ heads, story w.scopes v = [] ∧ v.number ≠ call := by
      intro v hm
      obtain ⟨name, hk⟩ := hv v hm
      exact (hc.child (by simp [hm])).leaf (hk ▸ rfl)
    refine ⟨?_, hc.ne (by simp), fun m => ?_⟩
    · rw [Running.story_plain (by simp) rfl, Running.storyEach_append, Running.storyEach_eq_nil fun v hv => (hvars v hv).1]
      simp
    · refine Still.of_calm (.loopVariables _ (fun _ => List.mem_map_of_mem) 0 before : Calm _ [] _) (fun hm => ?_) m
      obtain ⟨v, hv, he⟩ := List.mem_map.mp hm
      exact (hvars v hv).2 he
  | whileLoop => exact ⟨by simp [Running.story_eq, own], hc.ne (by simp), fun _ => ⟨rfl, rfl, rfl⟩⟩
  | plainLoop => exact ⟨by simp [Running.story_eq, own], hc.ne (by simp), .pure _⟩

end

mutual

/-- By induction on the rules: the marks of a node come from its parts, and then from itself. -/
theorem Reasons.tells {around : Around} {n : Node} {p : Reason Results} (h : Reasons w around n p)
    (hc : CallsAt w.scopes call n) : Tells w call p (story w.scopes n) := by
  have hcc : ∀ c ∈ n.children, CallsAt w.scopes call c := fun c hm => hc.child hm
  match h with
  | .straight hs hq =>
    rw [Running.story_eq fun _ => hq.kind_ne rfl, Running.storyEach_append,
      Running.storyEach_eq_nil fun v hv => (hq.unmarked hc v hv).1, List.nil_append]
    exact (hs.tells fun c hm => hcc c (List.mem_append_right _ hm)).bind fun rs => hq.tells hc rs
  | .separate h =>
    rw [Running.story_declaration rfl]
    exact .noted (h.tells hcc) (hc.ne (by simp))
  | .conditional h =>
    rw [Running.story_plain (by simp) rfl]
    refine .noted (.afterStill (.calmly .flow) fun before => ?_) (hc.ne (by simp))
    exact ((h before).tells hcc).andStill fun _ => .bind (.merge _ _ _) fun _ => .takeEmitted _
  | @Reasons.loop _ _ number kind span heads tests body ps start q hs ht hq =>
    have hbody := hq.tells (hcc body (by simp))
    obtain ⟨hstory, hne, -⟩ := ht.still hc .start
    rw [hstory]
    refine .noted ((hs.tells fun c hm => hcc c (by simp [hm])).bind fun _ => .afterStill (.calmly .flow) fun before => ?_) hne
    refine .afterStill (ht.still hc before).2.2 fun first => ?_
    exact (hbody.along first).andStill fun _ => .bind (.calmly (.retire _ _)) fun _ => .takeEmitted _
  | @Reasons.attempt _ _ number span body handlers p binding bound ps hv _ h hs =>
    have hbody := h.tells (hcc body (by simp))
    have hhandlers := fun before => (hs before).tells fun c hm => hcc c (by simp [hm])
    have hbinding : ∀ v ∈ binding, story w.scopes v = [] ∧ v.number ≠ call := by
      intro v hm
      obtain ⟨name, hk⟩ := attemptVariable_of_mem hv hm
      exact (hcc v (by simp [Option.mem_def.mp hm])).leaf (hk ▸ rfl)
    have hbound : Still call (binding.forM fun v => Reason.record v.number (.ofType .condition) : Reason Unit) := by
      cases binding with
      | none => exact .pure _
      | some v => exact .record _ (hbinding v rfl).2
    rw [Running.story_plain (by simp) rfl, Running.storyEach_append,
      Running.storyEach_eq_nil fun v hv => (hbinding v (Option.mem_toList.mp hv)).1, List.nil_append, Running.storyEach_cons]
    refine .noted (.afterStill (.calmly .flow) fun before => .afterStill hbound fun _ => (hbody.along _).bind fun _ => ?_)
      (hc.ne (by simp))
    exact (hhandlers before).andStill fun _ => .bind (.merge _ _ _) fun _ => .takeEmitted _
  | @Reasons.definition _ _ number kind span list body framed close p q hd hp hq =>
    obtain ⟨hparameters, hne⟩ := parameters_unmarked hc hd.isDefinition rfl
    have hbody := fun frame => (hq frame).tells (hcc body (by simp))
    have hstory : story w.scopes ⟨number, kind, span, [list, body]⟩ =
        story w.scopes body ++ own w.scopes ⟨number, kind, span, [list, body]⟩ := by
      rw [Running.story_eq (by cases hd <;> simp)]
      simp [hparameters]
    have hframed : Still call framed := by cases hd <;> exact fun _ => ⟨rfl, rfl, rfl⟩
    have hclose : ∀ r, Tells w call (close r) (own w.scopes ⟨number, kind, span, [list, body]⟩) := by
      cases hd with
      | method => exact fun r => .of_still (.pure r)
      | procedure => exact fun r => (Tells.recordProcedure number r).andStill fun _ => .pure _
    rw [hstory]
    refine .noted (.afterStill hframed fun frame => .afterStill (.bindsParameters hp hne) fun start => ?_)
      (hc.ne (by cases hd <;> simp))
    exact ((hbody frame).along start).bind fun _ => .afterStill (.calmly (.settle _)) fun _ => .afterStill (.finish _) hclose

theorem ReasonsEach.tells {around : Around} {ns : List Node} {ps : Reason (List Results)} (h : ReasonsEach w around ns ps)
    (hc : ∀ c ∈ ns, CallsAt w.scopes call c) : Tells w call ps (storyEach w.scopes ns) := by
  match h with
  | .nil => exact .of_still (.pure _)
  | @ReasonsEach.cons _ _ n ns p ps h hs =>
    have hn := h.tells (hc n (by simp))
    have hns := hs.tells fun m hm => hc m (.tail _ hm)
    rw [Running.storyEach_cons]
    exact hn.bind fun _ => hns.andStill fun _ => .pure _

theorem ReasonsVariables.tells {around : Around} {modifier : Modifier} {last : Results} {ns : List Node}
    {p : Reason Results} (h : ReasonsVariables w around modifier last ns p)
    (hc : ∀ c ∈ ns, CallsAt w.scopes call c) :
    Tells w call p (storyDeclared w.scopes modifier ns) := by
  match h with
  | .nil => exact .of_still (.pure _)
  | @ReasonsVariables.valued _ _ _ _ number name span value ns p q h hs =>
    have hv := hc ⟨number, .declared name, span, [value]⟩ (by simp)
    have hvalue := h.tells (hv.child (by simp))
    have hns := fun r => (hs r).tells fun m hm => hc m (.tail _ hm)
    have hstory : storyDeclared w.scopes modifier (⟨number, .declared name, span, [value]⟩ :: ns) =
        story w.scopes value ++ (gives w.scopes number (.ofValue value) ++ storyDeclared w.scopes modifier ns) := by
      simp [ofVariable]
    rw [hstory]
    refine hvalue.bind fun r => (Tells.assign _ (Given.procedure?_ofValue value) _ (hv.ne (by simp))).bind fun _ => hns r
  | @ReasonsVariables.bare _ _ _ _ number name span ns p hs =>
    have hv := hc ⟨number, .declared name, span, []⟩ (by simp)
    have hns := hs.tells fun m hm => hc m (.tail _ hm)
    have hstory : storyDeclared w.scopes modifier (⟨number, .declared name, span, []⟩ :: ns) =
        gives w.scopes number (.ofModifier modifier) ++ storyDeclared w.scopes modifier ns := by simp [ofVariable]
    have hnone : (Given.ofModifier modifier).procedure? = none := by cases modifier <;> rfl
    rw [hstory]
    exact .afterStill (.of_slight (slight_undeclaredTypes _ _ number)) fun types => (Tells.assign _ hnone _ (hv.ne (by simp))).bind fun _ => hns

theorem ReasonsBranches.tells {around : Around} {before : Flow} {denied : List Restriction} {ns : List Node}
    {p : Reason (List Flow)} (h : ReasonsBranches w around before denied ns p)
    (hc : ∀ c ∈ ns, CallsAt w.scopes call c) : Tells w call p (storyEach w.scopes ns) := by
  match h with
  | .nil => exact .of_still (.bind (.calmly .memory) fun _ => .pure _)
  | @ReasonsBranches.branch _ _ _ _ number span condition body ns p q rest hp hq hs =>
    let branch : Node := ⟨number, .branch, span, [condition, body]⟩
    have hbc : CallsAt w.scopes call branch := hc branch (.head _)
    have hcondition := hp.tells (hbc.child (by simp [branch]))
    have hbody := hq.tells (hbc.child (by simp [branch]))
    have hns := fun r => (hs r).tells fun m hm => hc m (.tail _ hm)
    have hstory : storyEach w.scopes (branch :: ns) =
        story w.scopes condition ++ (story w.scopes body ++ storyEach w.scopes ns) := by
      simp [branch, Running.story_eq, own]
    rw [hstory]
    refine .afterStill (.calmly .memory) fun k => (hcondition.along _).bind fun tested => .afterStill (.calmly .memory) fun k => ?_
    refine (hbody.along _).bind fun outcome => .afterStill (fun _ => ⟨rfl, rfl, rfl⟩) fun _ => ?_
    exact (hns _).andStill fun _ => .pure _
  | @ReasonsBranches.otherwise _ _ _ _ number span body p h =>
    let last : Node := ⟨number, .otherwise, span, [body]⟩
    have hbody := h.tells ((hc last (.head _)).child (by simp [last]))
    have hstory : storyEach w.scopes [last] = story w.scopes body := by simp [last, Running.story_eq, own]
    rw [hstory]
    exact .afterStill (.calmly .memory) fun k => (hbody.along _).andStill fun _ => .pure _

theorem ReasonsHandlers.tells {around : Around} {before : Flow} {binding : Option String} {ns : List Node}
    {p : Reason (List Flow)} (h : ReasonsHandlers w around before binding ns p)
    (hc : ∀ c ∈ ns, CallsAt w.scopes call c) : Tells w call p (storyEach w.scopes ns) := by
  match h with
  | .nil => exact .of_still (.pure _)
  | @ReasonsHandlers.cons _ _ _ _ handler _ ns p ps hk h hs =>
    have hhandler := h.tells (hc handler (by simp))
    have hns := hs.tells fun m hm => hc m (.tail _ hm)
    rw [Running.storyEach_cons]
    exact (hhandler.along _).bind fun _ => hns.andStill fun _ => .pure _

end

/-- What is found in a file is found along its story. -/
theorem advances_file {tree : SyntaxTree} (h : tree.FormedFile) (package : String) (hc : CallsAt w.scopes call tree.root) :
    ∃ k, Advances w call (story w.scopes tree.root) (.start package) k ∧ k.findings = w.findings package tree := by
  obtain ⟨p, hp, hfindings⟩ := findings_by_rules h w package
  have htells := hp.tells fun c hm => hc.child hm
  have hstory : story w.scopes tree.root = storyEach w.scopes tree.root.children :=
    Running.story_plain (by simp [h.file]) (by rw [own, h.file])
  refine ⟨_, ?_, hfindings.symm⟩
  rw [hstory]
  exact (htells.andStill fun _ => .bind (.calmly .flow) fun f => .calmly (.settle f.believed)) ⟨.start, .start package⟩

end World

end Magik
