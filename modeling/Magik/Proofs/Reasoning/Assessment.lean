/-
  Magik.Proofs.Reasoning.Assessment — reasoning about operands and conditions.

  Neither changes what is believed. Each name in them is noted with the types believed of
  its entry, each literal with its own.
-/

import Magik.Proofs.Reasoning.Believing
import Magik.Proofs.Reasoning.Coincidence

namespace Magik.World

open Running

variable {w : World} {frame : Frame} {around : Around} {c left right : Node} {m m' m'' : Moment} {number : Nat}
  {span : Span} {operator : BinaryOperator} {children : List Node}

/-- A condition has been reasoned about. -/
structure Assessed (w : World) (frame : Frame) (c : Node) (m m' : Moment) : Prop where
  flow : m'.flow = m.flow
  package : m'.memory.package = m.memory.package
  reads {r : Course} {σ : Store} {p : Nat × Value} : p ∈ r.reads w.scopes σ c →
    ∃ x, w.scopes.entryOf? p.1 = some x ∧ p.2 = σ x ∧
      m'.memory.findings.results.find? p.1 = some (.single (w.entryTypes m.memory.package m.flow x))
  literal {number : Nat} {value : Literal} : Test.literal number value ∈ Test.all c →
    m'.memory.findings.results.find? number = some (.single (literalTypes frame value))

/-- What comes after leaves the notes of a condition alone. -/
theorem Assessed.later (h : w.Assessed frame c m m') (hf : m''.flow = m'.flow)
    (hp : m''.memory.package = m'.memory.package)
    (hr : ∀ j ∈ c.numbers, m''.memory.findings.results.find? j = m'.memory.findings.results.find? j) :
    w.Assessed frame c m m'' := by
  refine ⟨hf.trans h.flow, hp.trans h.package, fun hm => ?_, fun hm => ?_⟩
  · obtain ⟨x, hx, hv, hnoted⟩ := h.reads hm
    exact ⟨x, hx, hv, (hr _ (Course.mem_numbers_of_reads hm)).trans hnoted⟩
  · exact (hr _ (Test.number_mem_numbers hm)).trans (h.literal hm)

/-- Whatever the moment, reasoning about the node assesses it. -/
def Assesses (w : World) (c : Node) : Prop :=
  ∀ around m, c.numbers.Nodup → w.Assessed around.frame c m (w.reason around c m).2

/-! ## Operands -/

theorem reason_name {x : Nat} {name : String} (hx : w.scopes.entryOf? number = some x) (m : Moment) :
    w.reason around ⟨number, .identifier name, span, []⟩ m = (.single (w.entryTypes m.memory.package m.flow x),
        (Reason.record number (.single (w.entryTypes m.memory.package m.flow x)) m).2) := by
  rw [reason]
  simp only [readName, hx]
  rfl

theorem reason_literal {value : Literal} (m : Moment) : w.reason around ⟨number, .literal value, span, []⟩ m =
      (.single (literalTypes around.frame value), (Reason.record number (.single (literalTypes around.frame value)) m).2) := by
  rw [reason]
  rfl

theorem find?_record (number : Nat) (r : Results) (m : Moment) (j : Nat) :
    (Reason.record number r m).2.memory.findings.results.find? j =
      if number = j then some r else m.memory.findings.results.find? j :=
  Table.find?_insert _ _ _ _

theorem assesses_operand (h : Operand w.scopes c) : w.Assesses c := by
  intro around m _
  cases h with
  | name hx =>
    rw [reason_name hx]
    refine ⟨rfl, rfl, fun hm => ?_, fun hm => by simp [Test.all] at hm⟩
    simp only [Course.reads, hx, Option.map_some, Option.toList_some, List.mem_singleton] at hm
    rw [hm]
    exact ⟨_, hx, rfl, by rw [find?_record, if_pos rfl]⟩
  | literal =>
    rw [reason_literal]
    refine ⟨rfl, rfl, fun hm => by simp [Course.reads] at hm, fun hm => ?_⟩
    simp only [Test.all, List.mem_singleton, Test.literal.injEq] at hm
    rw [find?_record, if_pos hm.1.symm, hm.2]

/-! ## Conditions -/

theorem reasonEach_cons (ns : List Node) (n : Node) (m : Moment) :
    (w.reasonEach around (n :: ns) m).2 = (w.reasonEach around ns (w.reason around n m).2).2 := by
  rw [reasonEach]
  rfl

theorem reasonEach_nil (m : Moment) : (w.reasonEach around [] m).2 = m := by
  rw [reasonEach]
  rfl

theorem reasonEach_append (a b : List Node) (m : Moment) :
    (w.reasonEach around (a ++ b) m).2 = (w.reasonEach around b (w.reasonEach around a m).2).2 := by
  induction a generalizing m with
  | nil => rw [List.nil_append, reasonEach_nil]
  | cons n a ih => rw [List.cons_append, reasonEach_cons, reasonEach_cons, ih]

theorem reason_binary (m : Moment) :
    ∃ r, (w.reason around ⟨number, .binary operator, span, children⟩ m).2 =
      (Reason.record number r (w.reasonEach (around.within number (.binary operator)) children m).2).2 := by
  rw [reason]
  exact ⟨_, rfl⟩

theorem reason_unary {operator : UnaryOperator} (m : Moment) :
    ∃ r, (w.reason around ⟨number, .unary operator, span, children⟩ m).2 =
      (Reason.record number r (w.reasonEach (around.within number (.unary operator)) children m).2).2 := by
  rw [reason]
  exact ⟨_, rfl⟩

theorem Assessed.record (h : w.Assessed frame c m m') (hn : number ∉ c.numbers) (r : Results) :
    w.Assessed frame c m (Reason.record number r m').2 := by
  refine h.later rfl rfl fun j hj => ?_
  have hne : number ≠ j := fun he => hn (he ▸ hj)
  rw [find?_record, if_neg hne]

/-- Nodes one after the other: none of them changes what is believed, and the notes of each stay. -/
theorem assessed_reasonEach {cs : List Node} (hc : ∀ c ∈ cs, w.Assesses c) (hn : (Node.numbersAll cs).Nodup)
    (around : Around) (m : Moment) :
    (w.reasonEach around cs m).2.flow = m.flow ∧ (w.reasonEach around cs m).2.memory.package = m.memory.package ∧
      ∀ c ∈ cs, w.Assessed around.frame c m (w.reasonEach around cs m).2 := by
  induction cs generalizing m with
  | nil =>
    rw [reasonEach_nil]
    exact ⟨rfl, rfl, by simp⟩
  | cons n cs ih =>
    rw [Node.numbersAll_cons] at hn
    obtain ⟨hnn, hncs, hdisjoint⟩ := List.nodup_append.mp hn
    have hfirst := hc n (by simp) around m hnn
    obtain ⟨hflow, hpackage, hrest⟩ := ih (fun c hm => hc c (.tail _ hm)) hncs (w.reason around n m).2
    rw [reasonEach_cons]
    refine ⟨hflow.trans hfirst.flow, hpackage.trans hfirst.package, fun c hm => ?_⟩
    rcases List.mem_cons.mp hm with rfl | hm
    · refine hfirst.later hflow hpackage fun j hj => ?_
      exact touches_reasonEach w cs around _ j fun hj' => hdisjoint j hj j hj' rfl
    · have hlater := hrest c hm
      refine ⟨hlater.flow.trans hfirst.flow, hlater.package.trans hfirst.package, ?_, hlater.literal⟩
      rw [← hfirst.flow, ← hfirst.package]
      exact hlater.reads

theorem assesses_binary (hl : w.Assesses left) (hr : w.Assesses right) :
    w.Assesses ⟨number, .binary operator, span, [left, right]⟩ := by
  intro around m hn
  rw [Node.numbers, List.nodup_cons] at hn
  have hboth : ∀ c ∈ [left, right], w.Assesses c := by simp [hl, hr]
  obtain ⟨-, -, heach⟩ := assessed_reasonEach hboth hn.2 (around.within number (.binary operator)) m
  obtain ⟨r, hreason⟩ : ∃ r, (w.reason around ⟨number, .binary operator, span, [left, right]⟩ m).2 = _ := reason_binary m
  have hnotes : ∀ c ∈ [left, right], w.Assessed around.frame c m
      (w.reason around ⟨number, .binary operator, span, [left, right]⟩ m).2 := by
    intro c hm
    rw [hreason]
    exact (heach c hm).record (fun hj => hn.1 (Node.numbers_subset hm _ hj)) r
  have hleft := hnotes left (by simp)
  have hright := hnotes right (by simp)
  refine ⟨hleft.flow, hleft.package, fun hm => ?_, fun hm => ?_⟩
  · rw [Course.reads] at hm
    rcases List.mem_append.mp hm with hm | hm
    · exact hleft.reads hm
    · split at hm
      · cases hm
      · exact hright.reads hm
  · rw [Evidence.all_binary] at hm
    exact (List.mem_append.mp hm).elim hleft.literal hright.literal

theorem assesses_unary {operator : UnaryOperator} (hc : w.Assesses c) :
    w.Assesses ⟨number, .unary operator, span, [c]⟩ := by
  intro around m hn
  rw [Node.numbers, List.nodup_cons] at hn
  have hone : ∀ n ∈ [c], w.Assesses n := by simp [hc]
  obtain ⟨-, -, heach⟩ := assessed_reasonEach hone hn.2 (around.within number (.unary operator)) m
  obtain ⟨r, hreason⟩ : ∃ r, (w.reason around ⟨number, .unary operator, span, [c]⟩ m).2 = _ := reason_unary m
  have hnotes := (heach c (by simp)).record (fun hj => hn.1 (Node.numbers_subset (by simp) _ hj)) r
  rw [← hreason] at hnotes
  refine ⟨hnotes.flow, hnotes.package, fun hm => ?_, fun hm => ?_⟩
  · rw [Course.reads] at hm
    exact hnotes.reads hm
  · rw [Evidence.all_unary] at hm
    exact hnotes.literal hm

theorem assesses_condition (h : BuiltFrom (Comparison w.scopes) c) : w.Assesses c := by
  induction h with
  | atom h =>
    cases h with
    | identical hl hr | notIdentical hl hr | compared _ hl hr =>
      exact assesses_binary (assesses_operand hl) (assesses_operand hr)
  | negated _ _ ih => exact assesses_unary ih
  | joined _ _ _ ihl ihr => exact assesses_binary ihl ihr

end Magik.World
