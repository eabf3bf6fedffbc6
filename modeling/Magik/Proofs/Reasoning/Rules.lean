/-
  Magik.Proofs.Reasoning.Rules — reasoning by rules, one for each way through a node.

  `Reasons` says what reasoning about a node comes to, from what reasoning about its parts
  comes to. Most nodes go through their parts in order and then do something of their own
  (`Closes`). Each rule asks for the layouts it is written for, and there is no rule for
  other layouts: that reasoning about a formed tree goes by these rules (`ruled_of_formed`)
  says that it never meets one.
-/

import Magik.Reasoning.Reason
import Magik.Proofs.Syntax.Arenas

namespace Magik

namespace Node.Kind

variable {k : Kind}

/-- Nodes that are reasoned about on their own. The others are taken up by their parent. -/
def isReasoned : Kind → Bool
  | .body | .handler _ => true
  | k => k.isItem

/-- Statements that deliver their values to what is around them. -/
def delivers : Kind → Bool
  | .returned | .emitted | .leave _ | .loopBody => true
  | _ => false

/-- Statements after which their path is left. -/
def departs : Kind → Bool
  | .continued _ | .thrown => true
  | _ => false

/-- Constructs that reason about their parts in order and give back what was emitted. -/
def isEnclosure : Kind → Bool
  | .block | .protect | .lock | .catching => true
  | _ => false

/-- Nodes that reason about all their parts in order and give values to no names. -/
def isInOrder : Kind → Bool
  | .package _ | .literal _ | .identifier _ | .syntaxError | .vector | .binary _ | .unary _ | .invocation _ | .call
  | .body | .handler _ => true
  | k => k.delivers || k.departs || k.isEnclosure

/-- Nodes whose parts are gone through in order, along one flow. -/
def isStraight : Kind → Bool
  | .conditional | .attempt | .method _ | .procedure .. | .forLoop _ | .whileLoop _ | .plainLoop _ => false
  | .declaration _ shared => shared
  | _ => true

/-- What the doc lines of a definition say. -/
def typeDoc : Kind → TypeDoc
  | .method header => TypeDoc.ofLines header.doc systemPackage
  | .procedure _ _ doc => TypeDoc.ofLines doc systemPackage
  | _ => .empty

theorem isReasoned_of_isItem (h : k.isItem) : k.isReasoned := by
  cases k <;> simp_all [isItem, isStatement, isExpression, isReasoned]

theorem isReasoned_of_isStatement (h : k.isStatement) : k.isReasoned :=
  isReasoned_of_isItem (isItem_of_isStatement h)

theorem isReasoned_of_isExpression (h : k.isExpression) : k.isReasoned :=
  isReasoned_of_isStatement (isStatement_of_isExpression h)

end Node.Kind

namespace World

open Node (Formed Layout Way)

/-! ## Rules -/

/-- Reasoning whose outcome is noted at a node. -/
def noted (number : Nat) (p : Reason Results) : Reason Results := do
  let r ← p
  Reason.record number r
  return r

/-- The parameters of a definition, in order. -/
inductive BindsParameters (w : World) (doc : TypeDoc) : Flow → List Node → Reason Flow → Prop
  | nil {f} : BindsParameters w doc f [] (pure f)
  | cons {f number name mode span rest p}
      (h : BindsParameters w doc
        ((w.scopes.entryOf? number).elim f fun entry => f.believe entry (parameterTypes doc name mode)) rest p) :
      BindsParameters w doc f (⟨number, .parameter name mode, span, []⟩ :: rest) (do
        Reason.record number (.single (parameterTypes doc name mode))
        p)

/-- What a node makes of what its parts give back, where that is all it does. -/
def made? (w : World) (around : Around) : Node.Kind → Option (List Results → Results)
  | .literal value => some fun _ => .single (literalTypes around.frame value)
  | .syntaxError => some fun _ => .unknown
  | .vector => some fun _ => .ofType .vector
  | .binary operator => some fun rs => .single (w.binaryTypes operator (firstOf rs 0) (firstOf rs 1))
  | .unary operator => some fun rs => w.unaryResults operator (firstOf rs 0)
  | .body | .handler _ => some fun _ => .nothing
  | _ => none

/-- What a node does with what its parts give back, when they have been gone through in
    order. Names that it only gives values to, in front, are not gone through. -/
inductive Closes (w : World) (around : Around) (number : Nat) :
    Node.Kind → List Node → List Node → (List Results → Reason Results) → Prop
  | made {kind parts make} (h : w.made? around kind = some make) :
      Closes w around number kind [] parts fun rs => pure (make rs)
  | package {name} : Closes w around number (.package name) [] [] fun _ => do
      Reason.changeMemory fun k => { k with package := name }
      pure .nothing
  | name {name} : Closes w around number (.identifier name) [] [] fun _ => w.readName number
  | invocation {name parts} :
      Closes w around number (.invocation name) [] parts (w.invocation around number name parts)
  | call {parts} : Closes w around number .call [] parts fun _ => w.call number parts
  | deliver {kind parts} (hk : kind.delivers) : Closes w around number kind [] parts fun rs => do
      deliver around kind (valuesOf rs)
      pure .nothing
  | depart {kind parts} (hk : kind.departs) : Closes w around number kind [] parts fun _ => do
      Reason.exit
      pure .nothing
  | enclosure {kind parts} (hk : kind.isEnclosure) :
      Closes w around number kind [] parts fun _ => Reason.takeEmitted number
  | assignment {target value name} (ht : target.kind = .identifier name) :
      Closes w around number .assignment [target] [value] fun rs => do
        w.assign target.number (procedureNumber? value) (firstOf rs 0)
        pure (rs.headD .unknown)
  | augmented {operator target value name} (ht : target.kind = .identifier name) :
      Closes w around number (.augmentedAssignment operator) [] [target, value] fun rs => do
        let types := w.operatorTypes operator (firstOf rs 0) (firstOf rs 1)
        w.assign target.number none types
        pure (.single types)
  | several {targets value} (ht : ∀ c ∈ targets, ∃ name, c.kind = .identifier name) :
      Closes w around number .multipleAssignment targets [value] fun rs => do
        w.assignEach (rs.headD .unknown) 0 targets
        pure (rs.headD .unknown)
  | shared {modifier vars value} (ht : ∀ c ∈ vars, (∃ name, c.kind = .declared name) ∧ c.children = []) :
      Closes w around number (.declaration modifier true) vars [value] fun rs => do
        w.assignEach (rs.headD .unknown) 0 vars
        pure (rs.headD .unknown)

/-- The flow that the body of a loop starts with: its variables are given values, or its
    condition holds. -/
inductive Starts (w : World) : Node.Kind → List Node → List Node → (Flow → Reason Flow) → Prop
  | forLoop {label vars iterable} (hv : ∀ v ∈ vars, ∃ name, v.kind = .loopVariable name) :
      Starts w (.forLoop label) vars [iterable] fun before => do
        let rounds := (← Reason.memory).findings.loopResults.find? iterable.number
        w.loopVariables rounds 0 before vars
  | whileLoop {label condition} : Starts w (.whileLoop label) [] [condition] fun before => do
      let k ← Reason.memory
      let r := w.restriction k condition
      Reason.recordRestriction condition.number r
      return w.narrowed k.package before [r]
  | plainLoop {label} : Starts w (.plainLoop label) [] [] fun before => pure before

/-- The frame of a definition, and what becomes of what is returned from it. -/
inductive Defines (w : World) (around : Around) (number : Nat) : Node.Kind → Reason Frame → (Results → Reason Results) → Prop
  | method {header} : Defines w around number (.method header) (do
      let receiver := TypeSet.single (w.exemplar (← Reason.memory).package header.exemplar)
      return ⟨some receiver, .empty⟩) pure
  | procedure {name params doc} : Defines w around number (.procedure name params doc) (do
      return ⟨around.frame.receiver, around.frame.imports.insertAll (← Reason.flow).believed⟩) fun r => do
      Reason.recordProcedure number r
      pure (.ofType .procedure)

mutual

/-- A node. -/
inductive Reasons (w : World) : Around → Node → Reason Results → Prop
  | straight {around number kind span heads parts ps q} (hs : ReasonsEach w (around.within number kind) parts ps)
      (hq : Closes w around number kind heads parts q) :
      Reasons w around ⟨number, kind, span, heads ++ parts⟩ (noted number (ps >>= q))
  | separate {around number modifier span vars p}
      (h : ReasonsVariables w (around.within number (.declaration modifier false)) modifier .nothing vars p) :
      Reasons w around ⟨number, .declaration modifier false, span, vars⟩ (noted number p)
  | conditional {around number span branches} {p : Flow → Reason (List Flow)}
      (h : ∀ before, ReasonsBranches w (around.within number .conditional) before [] branches (p before)) :
      Reasons w around ⟨number, .conditional, span, branches⟩ (noted number do
        let before ← Reason.flow
        let outcomes ← p before
        w.merge (number :: (Node.drain branches).map Node.number) before outcomes
        Reason.takeEmitted number)
  | loop {around number kind span heads tests body ps start q}
      (hs : ReasonsEach w (around.within number kind) tests ps) (ht : Starts w kind heads tests start)
      (hq : Reasons w (around.within number kind) body q) :
      Reasons w around ⟨number, kind, span, heads ++ (tests ++ [body])⟩ (noted number do
        let _ ← ps
        let before ← Reason.flow
        let first ← start before
        let after ← Reason.along first q
        Reason.retire before after
        Reason.takeEmitted number)
  | attempt {around number span body handlers p} {binding : Option Node} {bound : Option String} {ps : Flow → Reason (List Flow)}
      (hv : binding.map Node.kind = bound.map Node.Kind.attemptVariable) (hb : body.kind = .body)
      (h : Reasons w (around.within number .attempt) body p)
      (hs : ∀ before, ReasonsHandlers w (around.within number .attempt) before bound handlers (ps before)) :
      Reasons w around ⟨number, .attempt, span, binding.toList ++ body :: handlers⟩ (noted number do
        let before ← Reason.flow
        binding.forM fun v => Reason.record v.number (.ofType .condition)
        let outcome ← Reason.along before p
        let outcomes ← ps before
        w.merge (number :: (Node.drain (binding.toList ++ body :: handlers)).map Node.number) before (outcome :: outcomes)
        Reason.takeEmitted number)
  | definition {around number kind span list body framed close p} {q : Frame → Reason Results}
      (hd : Defines w around number kind framed close) (hp : BindsParameters w kind.typeDoc .start list.children p)
      (hq : ∀ frame, Reasons w { around.within number kind with frame } body (q frame)) :
      Reasons w around ⟨number, kind, span, [list, body]⟩ (noted number do
        let frame ← framed
        let start ← p
        let after ← Reason.along start (q frame)
        Reason.settle after.believed
        let r ← finish number
        close r)

/-- Nodes, in order. -/
inductive ReasonsEach (w : World) : Around → List Node → Reason (List Results) → Prop
  | nil {around} : ReasonsEach w around [] (pure [])
  | cons {around n ns p ps} (h : Reasons w around n p) (hs : ReasonsEach w around ns ps) :
      ReasonsEach w around (n :: ns) (do
        let r ← p
        let rs ← ps
        return r :: rs)

/-- Declared variables with values of their own, in order. -/
inductive ReasonsVariables (w : World) : Around → Modifier → Results → List Node → Reason Results → Prop
  | nil {around modifier last} : ReasonsVariables w around modifier last [] (pure last)
  | valued {around modifier last number name span value ns p} {q : Results → Reason Results}
      (h : Reasons w (around.within number (.declared name)) value p)
      (hs : ∀ r, ReasonsVariables w around modifier r ns (q r)) :
      ReasonsVariables w around modifier last (⟨number, .declared name, span, [value]⟩ :: ns) (do
        let r ← p
        w.assign number (procedureNumber? value) r.first
        q r)
  | bare {around modifier last number name span ns p} (hs : ReasonsVariables w around modifier last ns p) :
      ReasonsVariables w around modifier last (⟨number, .declared name, span, []⟩ :: ns) (do
        let types ← w.undeclaredTypes around modifier number
        w.assign number none types
        p)

/-- The branches of a conditional, after those whose conditions are false. -/
inductive ReasonsBranches (w : World) : Around → Flow → List Restriction → List Node → Reason (List Flow) → Prop
  | nil {around before denied} :
      ReasonsBranches w around before denied [] (do
        return [w.narrowed (← Reason.memory).package before denied])
  | branch {around before denied number span condition body ns p q} {rest : Restriction → Reason (List Flow)}
      (hp : Reasons w (around.within number .branch) condition p) (hq : Reasons w (around.within number .branch) body q)
      (hs : ∀ r, ReasonsBranches w around before (denied ++ [r.negate]) ns (rest r)) :
      ReasonsBranches w around before denied (⟨number, .branch, span, [condition, body]⟩ :: ns) (do
        let package := (← Reason.memory).package
        let tested ← Reason.along (w.narrowed package before denied) p
        let r := w.restriction (← Reason.memory) condition
        let outcome ← Reason.along (w.narrowed package tested (denied ++ [r])) q
        Reason.recordRestriction condition.number r
        let outcomes ← rest r
        return outcome :: outcomes)
  | otherwise {around before denied number span body p} (h : Reasons w (around.within number .otherwise) body p) :
      ReasonsBranches w around before denied [⟨number, .otherwise, span, [body]⟩] (do
        let package := (← Reason.memory).package
        let outcome ← Reason.along (w.narrowed package before denied) p
        return [outcome])

/-- The handlers of a try, in order. -/
inductive ReasonsHandlers (w : World) : Around → Flow → Option String → List Node → Reason (List Flow) → Prop
  | nil {around before binding} : ReasonsHandlers w around before binding [] (pure [])
  | cons {around before binding handler names ns p ps} (hk : handler.kind = .handler names)
      (h : Reasons w around handler p) (hs : ReasonsHandlers w around before binding ns ps) :
      ReasonsHandlers w around before binding (handler :: ns) (do
        let outcome ← Reason.along (w.handlerFlow before binding handler) p
        let outcomes ← ps
        return outcome :: outcomes)

end

/-! ## Kinds -/

section

variable {w : World} {around : Around} {number : Nat} {kind : Node.Kind} {heads parts : List Node}
  {q : List Results → Reason Results}

theorem isInOrder_of_made? {make : List Results → Results} (h : w.made? around kind = some make) : kind.isInOrder := by
  cases kind <;> first | rfl | cases h

theorem Closes.isStraight (h : Closes w around number kind heads parts q) : kind.isStraight := by
  cases h with
  | made h | deliver h | depart h | enclosure h => cases kind <;> first | rfl | cases h
  | _ => rfl

theorem Closes.kind_ne (h : Closes w around number kind heads parts q) {k : Node.Kind} (hk : k.isStraight = false) :
    kind ≠ k := by
  rintro rfl
  cases hk.symm.trans h.isStraight

theorem Closes.of_assignment (h : Closes w around number .assignment heads parts q) :
    ∃ target value, heads = [target] ∧ parts = [value] ∧ q = (fun rs => do
      w.assign target.number (procedureNumber? value) (firstOf rs 0)
      pure (rs.headD .unknown)) := by
  cases h with
  | assignment => exact ⟨_, _, rfl, rfl, rfl⟩
  | made h | deliver h | depart h | enclosure h => cases h

theorem Closes.leaf (h : Closes w around number kind heads parts q) {c : Node} (hc : c ∈ heads) (hf : c.Formed) :
    c.children = [] := by
  cases h with
  | assignment ht =>
    obtain rfl := List.mem_singleton.mp hc
    exact hf.layout.eq_nil_of_isLeaf (ht ▸ rfl)
  | several ht =>
    obtain ⟨name, hk⟩ := ht c hc
    exact hf.layout.eq_nil_of_isLeaf (hk ▸ rfl)
  | shared ht => exact (ht c hc).2
  | _ => cases hc

theorem attemptVariable_of_mem {binding : Option Node} {bound : Option String} {v : Node}
    (h : binding.map Node.kind = bound.map Node.Kind.attemptVariable) (hv : v ∈ binding) :
    ∃ name, v.kind = .attemptVariable name := by
  rw [Option.mem_def.mp hv] at h
  obtain ⟨name, -, hk⟩ := Option.map_eq_some_iff.mp h.symm
  exact ⟨name, hk.symm⟩

theorem Starts.variable {tests : List Node} {start : Flow → Reason Flow} (h : Starts w kind heads tests start) :
    ∀ c ∈ heads, ∃ name, c.kind = .loopVariable name := by
  cases h with
  | forLoop hv => exact hv
  | _ => simp

theorem Defines.isDefinition {framed : Reason Frame} {close : Results → Reason Results}
    (h : Defines w around number kind framed close) : kind.isDefinition := by
  cases h <;> rfl

end

/-! ## Reasoning goes by the rules -/

variable {w : World} {around : Around} {n : Node} {ns : List Node} {number : Nat} {kind : Node.Kind} {span : Span}
  {children heads tests : List Node} {start : Flow → Reason Flow} {binding : Option Node} {bound : Option String}
  {body list : Node}

theorem Reasons.of_eq {p q : Reason Results} (h : Reasons w around n p) (he : q = p) : Reasons w around n q := he ▸ h

/-- Reasoning about the node goes by the rules, if it is done at all. -/
def Ruled (w : World) (n : Node) : Prop := n.kind.isReasoned → ∀ around, Reasons w around n (w.reason around n)

theorem bindsParameters {doc : TypeDoc} {f : Flow}
    (h : ∀ p ∈ ns, (∃ name mode, p.kind = .parameter name mode) ∧ p.children = []) :
    BindsParameters w doc f ns (w.parameters doc f ns) := by
  induction ns generalizing f with
  | nil =>
    rw [parameters]
    exact .nil
  | cons p ns ih =>
    obtain ⟨⟨name, mode, hk⟩, hc⟩ := h p (by simp)
    obtain ⟨number, kind, span, children⟩ := p
    dsimp only at hk hc
    subst hk hc
    rw [parameters]
    exact .cons (ih fun q hq => h q (.tail _ hq))

theorem reasonsEach (h : ∀ n ∈ ns, w.Ruled n) (hk : ∀ n ∈ ns, n.kind.isReasoned) (around : Around) :
    ReasonsEach w around ns (w.reasonEach around ns) := by
  induction ns with
  | nil =>
    rw [reasonEach]
    exact .nil
  | cons n ns ih =>
    rw [reasonEach]
    refine .cons (h n (by simp) (hk n (by simp)) around) (ih ?_ ?_)
    · exact fun m hm => h m (.tail _ hm)
    · exact fun m hm => hk m (.tail _ hm)

theorem reasonLast_concat (w : World) (around : Around) (ns : List Node) (n : Node) :
    w.reasonLast around (ns ++ [n]) = w.reason around n := by
  induction ns with
  | nil => rw [List.nil_append, reasonLast]
  | cons m ns ih =>
    rw [List.cons_append, reasonLast]
    · exact ih
    · simp

theorem reasonsVariables {modifier : Modifier} {last : Results}
    (h : ∀ v ∈ ns, (∃ name, v.kind = .declared name) ∧
      (v.children = [] ∨ ∃ value, v.children = [value] ∧ value.kind.isReasoned ∧ w.Ruled value)) :
    ReasonsVariables w around modifier last ns (w.reasonVariables around modifier last ns) := by
  induction ns generalizing last with
  | nil =>
    rw [reasonVariables]
    exact .nil
  | cons v ns ih =>
    obtain ⟨⟨name, hk⟩, hc⟩ := h v (by simp)
    obtain ⟨number, kind, span, children⟩ := v
    dsimp only at hk hc
    subst hk
    replace ih {last : Results} := @ih last fun u hu => h u (.tail _ hu)
    rcases hc with rfl | ⟨value, rfl, hk, hr⟩
    · rw [reasonVariables]
      · exact .bare ih
      · simp
    · rw [reasonVariables]
      exact .valued (hr hk _) fun r => ih

section

variable {branches : List Node} {last : Option Node}
  (hb : ∀ b ∈ branches, b.kind = .branch ∧ ∃ condition body, b.children = [condition, body] ∧
    condition.kind.isReasoned ∧ body.kind.isReasoned ∧ w.Ruled condition ∧ w.Ruled body)
  (hl : ∀ e ∈ last, e.kind = .otherwise ∧ ∃ body, e.children = [body] ∧ body.kind.isReasoned ∧ w.Ruled body)
include hb hl

theorem reasonsBranches {before : Flow} {denied : List Restriction} :
    ReasonsBranches w around before denied (branches ++ last.toList)
      (w.reasonBranches around before denied (branches ++ last.toList)) := by
  induction branches generalizing denied with
  | nil =>
    cases last with
    | none =>
      rw [Option.toList_none, List.nil_append, reasonBranches]
      exact .nil
    | some e =>
      obtain ⟨hk, body, hc, hkb, hr⟩ := hl e rfl
      obtain ⟨number, kind, span, children⟩ := e
      dsimp only at hk hc
      subst hk hc
      rw [Option.toList_some, List.nil_append, reasonBranches, reasonEach, reasonEach]
      · exact .otherwise (hr hkb _)
      · simp
  | cons b branches ih =>
    obtain ⟨hk, condition, body, hc, hkc, hkb, hrc, hrb⟩ := hb b (by simp)
    obtain ⟨number, kind, span, children⟩ := b
    dsimp only at hk hc
    subst hk hc
    -- what comes after depends on the restriction that is found on the way
    have hs := fun r : Restriction => @ih (fun m hm => hb m (.tail _ hm)) (denied ++ [r.negate])
    have h := @ReasonsBranches.branch w around before denied number span condition body _ _ _ _ (hrc hkc _) (hrb hkb _) hs
    rw [List.cons_append, reasonBranches]
    exact h

theorem ruled_conditional : w.Ruled ⟨number, .conditional, span, branches ++ last.toList⟩ := by
  intro _ around
  have h := @Reasons.conditional w around number span _ _ fun before => reasonsBranches hb hl
  refine h.of_eq ?_
  rw [reason]
  rfl

end

theorem reasonsHandlers {before : Flow} {binding : Option String}
    (h : ∀ m ∈ ns, (∃ names, m.kind = .handler names) ∧ w.Ruled m) :
    ReasonsHandlers w around before binding ns (w.reasonAttempt around before binding ns) := by
  induction ns with
  | nil =>
    rw [reasonAttempt]
    exact .nil
  | cons m ns ih =>
    obtain ⟨⟨names, hk⟩, hr⟩ := h m (by simp)
    rw [reasonAttempt, hk]
    exact .cons hk (hr (hk ▸ rfl) around) (ih fun u hu => h u (.tail _ hu))

theorem reasonFor_append (w : World) (around : Around) (vars vs : List Node) (iterable body : Node) :
    w.reasonFor around vars (vs ++ [iterable, body]) = w.reasonFor around (vars ++ vs) [iterable, body] := by
  induction vs generalizing vars with
  | nil => simp
  | cons v vs ih =>
    have hcons : w.reasonFor around vars (v :: (vs ++ [iterable, body])) =
        w.reasonFor around (vars ++ [v]) (vs ++ [iterable, body]) := by
      rw [reasonFor] <;> cases vs <;> simp
    rw [List.cons_append, hcons, ih, List.append_assoc, List.singleton_append]

/-! ### Nodes of each kind -/

theorem Closes.reason_eq {parts : List Node} {q : List Results → Reason Results}
    (h : Closes w around number kind heads parts q) (hl : kind.isLeaf = false) (span : Span) :
    w.reason around ⟨number, kind, span, heads ++ parts⟩ =
      noted number (w.reasonEach (around.within number kind) parts >>= q) := by
  cases h with
  | made h =>
    rw [List.nil_append, reason.eq_def]
    cases kind with
    | literal | syntaxError => cases hl
    | _ => cases h <;> rfl
  | package | name => cases hl
  | invocation | call | augmented =>
    rw [List.nil_append, reason]
    rfl
  | deliver hk | depart hk | enclosure hk =>
    rw [List.nil_append, reason.eq_def]
    cases kind <;> first | rfl | cases hk
  | assignment =>
    rw [List.singleton_append, reason]
    simp only [reasonLast, reasonEach]
    rfl
  | several | shared =>
    rw [reason]
    simp only [reasonLast_concat, List.dropLast_concat, reasonEach]
    rfl

theorem Starts.reason_eq (h : Starts w kind heads tests start) (span : Span) (body : Node) :
    w.reason around ⟨number, kind, span, heads ++ (tests ++ [body])⟩ = noted number (do
      let _ ← w.reasonEach (around.within number kind) tests
      let before ← Reason.flow
      let first ← start before
      let after ← Reason.along first (w.reason (around.within number kind) body)
      Reason.retire before after
      Reason.takeEmitted number) := by
  cases h with
  | forLoop =>
    rw [List.singleton_append, reason]
    simp only [reasonFor_append, List.nil_append, reasonFor, reasonEach]
    rfl
  | whileLoop =>
    rw [List.nil_append, List.singleton_append, reason]
    simp only [reasonWhile, reasonEach]
    rfl
  | plainLoop =>
    rw [List.nil_append, List.nil_append, reason]
    simp only [reasonEach]
    rfl

theorem Defines.reason_eq {framed : Reason Frame} {close : Results → Reason Results}
    (h : Defines w around number kind framed close) (span : Span) (list body : Node) :
    w.reason around ⟨number, kind, span, [list, body]⟩ = noted number (do
      let frame ← framed
      let start ← w.parameters kind.typeDoc .start list.children
      let after ← Reason.along start (w.reason { around.within number kind with frame } body)
      Reason.settle after.believed
      let r ← finish number
      close r) := by
  cases h <;>
  · rw [reason]
    simp only [reasonDefinition]
    rfl

/-- The variable of a try is noted, and known from then on. -/
theorem reasonAttempt_bound (h : binding.map Node.kind = bound.map Node.Kind.attemptVariable) (before : Flow) :
    w.reasonAttempt around before none (binding.toList ++ ns) = (do
      binding.forM fun v => Reason.record v.number (.ofType .condition)
      w.reasonAttempt around before bound ns) := by
  cases binding with
  | none =>
    obtain rfl : bound = none := by simpa using h.symm
    rfl
  | some v =>
    obtain ⟨name, rfl, hk⟩ := Option.map_eq_some_iff.mp h.symm
    rw [Option.toList_some, List.singleton_append, reasonAttempt, ← hk]
    rfl

theorem reasonAttempt_body (hb : body.kind = .body) (before : Flow) (bound : Option String) :
    w.reasonAttempt around before bound (body :: ns) = (do
      let outcome ← Reason.along before (w.reason around body)
      let outcomes ← w.reasonAttempt around before bound ns
      return outcome :: outcomes) := by
  rw [reasonAttempt, hb]

theorem reason_attempt (h : binding.map Node.kind = bound.map Node.Kind.attemptVariable) (hb : body.kind = .body) :
    w.reason around ⟨number, .attempt, span, binding.toList ++ body :: ns⟩ = noted number (do
      let before ← Reason.flow
      binding.forM fun v => Reason.record v.number (.ofType .condition)
      let outcome ← Reason.along before (w.reason (around.within number .attempt) body)
      let outcomes ← w.reasonAttempt (around.within number .attempt) before bound ns
      w.merge (number :: (Node.drain (binding.toList ++ body :: ns)).map Node.number) before (outcome :: outcomes)
      Reason.takeEmitted number) := by
  rw [reason]
  simp only [reasonAttempt_bound h, reasonAttempt_body hb]
  rfl

/-! ### Rules for each kind -/

theorem parameters_of_formed {p : Node} (hf : list.Formed) (hk : list.kind = .parameterList) (hp : p ∈ list.children) :
    (∃ name mode, p.kind = .parameter name mode) ∧ p.children = [] := by
  have hl := hf.layout
  rw [hk] at hl
  obtain ⟨name, mode, hpk⟩ := hl.parameters p hp
  exact ⟨⟨name, mode, hpk⟩, (hf.child hp).layout.eq_nil_of_isLeaf (hpk ▸ rfl)⟩

theorem ruled_definition (hk : kind.isDefinition)
    (hp : ∀ p ∈ list.children, (∃ name mode, p.kind = .parameter name mode) ∧ p.children = []) (hb : body.kind.isReasoned)
    (hr : w.Ruled body) : w.Ruled ⟨number, kind, span, [list, body]⟩ := by
  intro _ around
  have hq := fun frame => hr hb { around.within number kind with frame }
  cases kind with
  | method => exact (Reasons.definition .method (bindsParameters hp) hq).of_eq (Defines.method.reason_eq _ _ _)
  | procedure => exact (Reasons.definition .procedure (bindsParameters hp) hq).of_eq (Defines.procedure.reason_eq _ _ _)
  | _ => cases hk

theorem exists_bound (h : ∀ v ∈ binding, ∃ name, v.kind = .attemptVariable name) :
    ∃ bound : Option String, binding.map Node.kind = bound.map Node.Kind.attemptVariable := by
  cases binding with
  | none => exact ⟨none, rfl⟩
  | some v =>
    obtain ⟨name, hk⟩ := h v rfl
    exact ⟨some name, congrArg some hk⟩

theorem ruled_attempt {handlers : List Node} (h : ∀ v ∈ binding, ∃ name, v.kind = .attemptVariable name)
    (hb : body.kind = .body) (hr : w.Ruled body) (hh : ∀ m ∈ handlers, (∃ names, m.kind = .handler names) ∧ w.Ruled m) :
    w.Ruled ⟨number, .attempt, span, binding.toList ++ body :: handlers⟩ := by
  intro _ around
  obtain ⟨bound, hbound⟩ := exists_bound h
  exact (Reasons.attempt hbound hb (hr (hb ▸ rfl) _) fun _ => reasonsHandlers hh).of_eq (reason_attempt hbound hb)

/-- Nodes that go through their parts in order. -/
theorem ruled_straight (heads parts : List Node) (hl : kind.isLeaf = false) (hr : ∀ c ∈ parts, w.Ruled c)
    (hk : ∀ c ∈ parts, c.kind.isReasoned) (h : ∀ around, ∃ q, Closes w around number kind heads parts q) :
    w.Ruled ⟨number, kind, span, heads ++ parts⟩ := by
  intro _ around
  obtain ⟨q, hq⟩ := h around
  exact (Reasons.straight (reasonsEach hr hk _) hq).of_eq (hq.reason_eq hl span)

theorem ruled_inOrder (hk : kind.isInOrder) (hl : kind.isLeaf = false) (hr : ∀ c ∈ children, w.Ruled c)
    (hc : ∀ c ∈ children, c.kind.isReasoned) : w.Ruled ⟨number, kind, span, children⟩ := by
  refine ruled_straight [] children hl hr hc fun around => ?_
  cases kind with
  | vector | binary | unary | body | handler => exact ⟨_, .made rfl⟩
  | invocation => exact ⟨_, .invocation⟩
  | call => exact ⟨_, .call⟩
  | returned | emitted | leave | loopBody => exact ⟨_, .deliver rfl⟩
  | continued | thrown => exact ⟨_, .depart rfl⟩
  | block | protect | lock | catching => exact ⟨_, .enclosure rfl⟩
  | package | literal | identifier | syntaxError => cases hl
  | _ => cases hk

theorem ruled_leaf (hk : kind.isLeaf) : w.Ruled ⟨number, kind, span, []⟩ := by
  intro hreasoned around
  have h : ∃ q, Closes w around number kind [] [] q ∧ w.reason around ⟨number, kind, span, []⟩ = noted number (pure [] >>= q) := by
    rw [reason.eq_def]
    cases kind with
    | package => exact ⟨_, .package, rfl⟩
    | literal | syntaxError => exact ⟨_, .made rfl, rfl⟩
    | identifier => exact ⟨_, .name, rfl⟩
    | parameter | loopVariable | attemptVariable => cases hreasoned
    | _ => cases hk
  obtain ⟨q, hq, he⟩ := h
  exact (Reasons.straight .nil hq).of_eq he

theorem ruled_assignment {target value : Node} {name : String} (hk : kind.isSingleAssignment)
    (ht : target.kind = .identifier name) (hv : value.kind.isReasoned) (hrt : w.Ruled target) (hrv : w.Ruled value) :
    w.Ruled ⟨number, kind, span, [target, value]⟩ := by
  cases kind with
  | assignment =>
    exact ruled_straight [target] [value] rfl (by simpa using hrv) (by simpa using hv) fun _ => ⟨_, .assignment ht⟩
  | augmentedAssignment operator =>
    have htk : target.kind.isReasoned := by rw [ht]; rfl
    exact ruled_straight [] [target, value] rfl (by simp [hrt, hrv]) (by simp [htk, hv]) fun _ => ⟨_, .augmented ht⟩
  | _ => cases hk

theorem ruled_loop (ht : Starts w kind heads tests start) (hr : ∀ c ∈ tests, w.Ruled c)
    (hk : ∀ c ∈ tests, c.kind.isReasoned) (hb : body.kind = .body) (hrb : w.Ruled body) :
    w.Ruled ⟨number, kind, span, heads ++ (tests ++ [body])⟩ :=
  fun _ _ => (Reasons.loop (reasonsEach hr hk _) ht (hrb (hb ▸ rfl) _)).of_eq (ht.reason_eq span body)

theorem ruled_node (hl : Layout kind children) (hf : ∀ c ∈ children, c.Formed)
    (hd : ∀ c ∈ children, ∀ m bs, Way c m bs → w.Ruled m) : w.Ruled ⟨number, kind, span, children⟩ := by
  have hr : ∀ c ∈ children, w.Ruled c := fun c hc => hd c hc c [] .root
  have hexpression : ∀ {c : Node}, c.kind.isExpression → c.kind.isReasoned := Node.Kind.isReasoned_of_isExpression
  have hbody : ∀ {c : Node}, c.kind = .body → c.kind.isReasoned := fun h => by rw [h]; rfl
  cases hl with
  | file | parameterList | bare | valued => exact fun hk => by cases hk
  | leaf hk => exact ruled_leaf hk
  | @definition _ list body hk hl hb =>
    exact ruled_definition hk (fun _ => parameters_of_formed (hf list (by simp)) hl) (hbody hb) (hr body (by simp))
  | body h => exact ruled_inOrder rfl rfl hr fun c hc => Node.Kind.isReasoned_of_isStatement (h c hc)
  | @separate modifier vars _ h =>
    intro _ around
    rw [reason]
    refine .separate (reasonsVariables fun v hv => ⟨h v hv, ?_⟩)
    obtain ⟨name, hvk⟩ := h v hv
    have hlv := (hf v hv).layout
    rw [hvk] at hlv
    rcases hlv.declared with hnil | ⟨value, he, hx⟩
    · exact .inl hnil
    · exact .inr ⟨value, he, hexpression hx, hd v hv value _ (.child .root (by simp [he]))⟩
  | @shared modifier vars value _ h hv =>
    exact ruled_straight vars [value] rfl (by simpa using hr value (by simp)) (by simpa using hexpression hv) fun _ =>
      ⟨_, .shared h⟩
  | values hk h =>
    refine ruled_inOrder ?_ ?_ hr fun c hc => hexpression (h c hc) <;> cases kind <;> first | rfl | cases hk
  | thrown ht h =>
    refine ruled_inOrder rfl rfl hr fun c hc => ?_
    rcases List.mem_cons.mp hc with rfl | hc
    · exact hexpression ht
    · exact hexpression (h c hc)
  | @conditional branches last _ h hl =>
    refine ruled_conditional (fun b hb => ⟨h b hb, ?_⟩) fun e he => ⟨hl e he, ?_⟩
    · have hmem : b ∈ branches ++ last.toList := by simp [hb]
      obtain ⟨condition, body, hc, hkc, hkb⟩ := (hf b hmem).layout.of_takesValueAndBody (by rw [h b hb]; rfl)
      exact ⟨condition, body, hc, hexpression hkc, hbody hkb, hd b hmem condition _ (.child .root (by simp [hc])),
        hd b hmem body _ (.child .root (by simp [hc]))⟩
    · have hmem : e ∈ branches ++ last.toList := by simp [Option.mem_toList.mpr he]
      obtain ⟨body, hc, hkb⟩ := (hf e hmem).layout.of_takesBody (by rw [hl e he]; rfl)
      exact ⟨body, hc, hbody hkb, hd e hmem body _ (.child .root (by simp [hc]))⟩
  | @valueAndBody _ value body hk hv hb =>
    cases kind with
    | whileLoop label =>
      exact ruled_loop .whileLoop (by simpa using hr value (by simp)) (by simpa using hexpression hv) hb (hr body (by simp))
    | lock | catching => exact ruled_inOrder rfl rfl hr (by simp [hexpression hv, hbody hb])
    | branch => exact fun hr => by cases hr
    | _ => cases hk
  | @onlyBody _ body hk hb =>
    cases kind with
    | plainLoop label =>
      exact ruled_loop .plainLoop (by simp) (by simp) hb (hr body (by simp))
    | block | handler => exact ruled_inOrder rfl rfl hr (by simp [hbody hb])
    | otherwise => exact fun hr => by cases hr
    | _ => cases hk
  | protect hb hl => exact ruled_inOrder rfl rfl hr (by simp [hbody hb, hbody hl])
  | @forLoop label vars iterable body _ h hi hb =>
    exact ruled_loop (.forLoop h) (by simpa using hr iterable (by simp)) (by simpa using hexpression hi) hb (hr body (by simp))
  | @attempt binding body handlers h hb hh =>
    exact ruled_attempt h hb (hr body (by simp)) fun m hm => ⟨hh m hm, hr m (by simp [hm])⟩
  | @assignment _ target value hk ht hv =>
    obtain ⟨name, htk⟩ := ht
    exact ruled_assignment hk htk (hexpression hv) (hr target (by simp)) (hr value (by simp))
  | @multipleAssignment targets value _ h hv =>
    exact ruled_straight targets [value] rfl (by simpa using hr value (by simp)) (by simpa using hexpression hv) fun _ =>
      ⟨_, .several h⟩
  | binary hl hr' => exact ruled_inOrder rfl rfl hr (by simp [hexpression hl, hexpression hr'])
  | unary ho => exact ruled_inOrder rfl rfl hr (by simp [hexpression ho])
  | @applied _ first args hk hfirst h =>
    have hparts : ∀ c ∈ first :: args, c.kind.isReasoned :=
      List.forall_mem_cons.mpr ⟨hexpression hfirst, fun a ha => hexpression (h a ha)⟩
    refine ruled_inOrder ?_ ?_ hr hparts <;> cases kind <;> first | rfl | cases hk

theorem ruled_of_formed (hf : n.Formed) : w.Ruled n := by
  refine hf.induction_below fun {m} hf hd => ?_
  obtain ⟨number, kind, span, children⟩ := m
  exact ruled_node hf.layout (fun _ hc => hf.child hc) hd

/-- What is found in a formed file is found by the rules. -/
theorem findings_by_rules {tree : SyntaxTree} (h : tree.FormedFile) (w : World) (package : String) :
    ∃ p, ReasonsEach w (Around.file.within tree.root.number .file) tree.root.children p ∧
      w.findings package tree =
        ((do let _ ← p; Reason.settle (← Reason.flow).believed : Reason Unit) ⟨.start, .start package⟩).2.memory.findings := by
  refine ⟨_, reasonsEach (fun n hn => ruled_of_formed (h.formed.child hn)) (fun n hn => ?_) _, ?_⟩
  · have hl := h.formed.layout
    rw [h.file] at hl
    exact Node.Kind.isReasoned_of_isItem (hl.items n hn)
  · rw [findings, h.file]
    rfl

end World

end Magik
