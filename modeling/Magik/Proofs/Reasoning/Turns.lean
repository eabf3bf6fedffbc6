/-
  Magik.Proofs.Reasoning.Turns — where branches and handlers start.

  A conditional goes through its branches one by one (`chain`). Each condition, and what is
  reached when no condition holds, starts with what was believed before the conditional,
  narrowed by what the earlier conditions say, being false. Only the body of a branch starts
  with what was believed when its own condition was done. So an assignment in a condition
  is believed in its own branch (`Leads`), and not in later ones. Of a try, every handler
  starts with what was believed before the try (`legs`).
-/

import Magik.Proofs.Grammar.WellFormed
import Magik.Proofs.Reasoning.Lasting

namespace Magik

open Node (Enclosed)

/-! ## Narrowed types -/

namespace Restriction

variable {rs : List Restriction} {current : Nat → TypeSet} {x : Nat}

/-- Once nothing is known of an entry, nothing is known of it. -/
theorem find?_foldl_of_unknown {steps : List (Nat × Narrowing)} {t : Table Nat Narrowing}
    (h : t.find? x = some .unknown ∨ (x, Narrowing.unknown) ∈ steps) : (steps.foldl fold t).find? x = some .unknown := by
  induction steps generalizing t with
  | nil => simpa using h
  | cons step steps ih =>
    refine ih ?_
    rw [find?_fold]
    rcases h with h | h
    · left
      split
      · simp [h, Narrowing.andThen]
      · exact h
    · rcases List.mem_cons.mp h with rfl | h
      · left
        rw [if_pos rfl]
        cases t.find? x with
        | none => rfl
        | some n => cases n <;> rfl
      · exact .inr h

/-- Nothing is known of an entry that a condition is about which cannot be determined. -/
theorem typesLeft_of_undeterminable {entries : List Nat} (h : .undeterminable entries ∈ rs) (hx : x ∈ entries) :
    typesLeft rs current x = .undefined := by
  have hunknown : (combine rs current).find? x = some .unknown := by
    refine find?_foldl_of_unknown (.inr (List.mem_flatMap.mpr ⟨_, h, ?_⟩))
    exact List.mem_map.mpr ⟨x, hx, rfl⟩
  rw [typesLeft, hunknown]
  rfl

theorem typesLeft_of_not_mem (h : ∀ r ∈ rs, x ∉ r.entries) : typesLeft rs current x = current x := by
  have hnone : (combine rs current).find? x = none := by
    rw [Table.find?_eq_none_iff]
    intro hx
    obtain ⟨r, hr, hm⟩ := mem_keys_combine hx
    exact h r hr hm
  rw [typesLeft, hnone]
  rfl

end Restriction

namespace World

/-- What is believed of an entry at a moment. -/
def typesAt (w : World) (m : Moment) (x : Nat) : TypeSet := w.entryTypes m.memory.package m.flow x

/-! ## Branches -/

/-- A branch as it is gone through. -/
structure Turn where
  condition : Node
  /-- Where its condition starts. -/
  start : Moment
  /-- Where its condition is done. -/
  tested : Moment
  /-- What its condition says. -/
  restriction : Restriction
  /-- Where its body starts. -/
  entered : Moment
  /-- Where its body is done. -/
  left : Moment

/-- What is remembered when the next branch starts. -/
def Turn.after (t : Turn) : Memory := (Reason.recordRestriction t.condition.number t.restriction t.left).2.memory

/-- What the conditions of branches say, being false. -/
def negations (turns : List Turn) : List Restriction := turns.map (·.restriction.negate)

/-- The branches of a conditional as they are gone through, and what is reached when no
    condition holds. -/
structure Chain where
  turns : List Turn
  start : Moment
  done : Moment

def turn (w : World) (around : Around) (before : Flow) (denied : List Restriction) (k : Memory) (condition body : Node) :
    Turn :=
  let start : Moment := ⟨w.narrowed k.package before denied, k⟩
  let tested := (w.reason around condition start).2
  let restriction := w.restriction tested.memory condition
  let entered : Moment := ⟨w.narrowed k.package tested.flow (denied ++ [restriction]), tested.memory⟩
  { condition, start, tested, restriction, entered, left := (w.reason around body entered).2 }

def chain (w : World) (around : Around) (before : Flow) : List Restriction → Memory → List Node → Chain
  | denied, k, [] => ⟨[], ⟨w.narrowed k.package before denied, k⟩, ⟨w.narrowed k.package before denied, k⟩⟩
  | denied, k, b :: ns =>
    let inner := around.within b.number b.kind
    match b.children with
    | [condition, body] =>
      let t := w.turn inner before denied k condition body
      let rest := w.chain around before (denied ++ [t.restriction.negate]) t.after ns
      ⟨t :: rest.turns, rest.start, rest.done⟩
    | children =>
      let start : Moment := ⟨w.narrowed k.package before denied, k⟩
      ⟨[], start, (w.reasonEach inner children start).2⟩

section Chains

variable {w : World} {around : Around} {before : Flow} {denied : List Restriction} {k : Memory} {b condition body : Node}
  {ns : List Node} {t : Turn} {earlier later : List Turn}

theorem chain_pair (hb : b.children = [condition, body]) :
    let t := w.turn (around.within b.number b.kind) before denied k condition body
    let rest := w.chain around before (denied ++ [t.restriction.negate]) t.after ns
    w.chain around before denied k (b :: ns) = ⟨t :: rest.turns, rest.start, rest.done⟩ := by
  rw [chain, hb]

theorem chain_other (hb : ∀ c d, b.children ≠ [c, d]) :
    let start : Moment := ⟨w.narrowed k.package before denied, k⟩
    w.chain around before denied k (b :: ns) =
      ⟨[], start, (w.reasonEach (around.within b.number b.kind) b.children start).2⟩ := by
  rw [chain]
  split
  · rename_i hc
    exact absurd hc (hb _ _)
  · rfl

theorem pair_or_other (b : Node) :
    (∃ condition body, b.children = [condition, body]) ∨ ∀ c d, b.children ≠ [c, d] :=
  (Classical.em _).imp id fun h c d hc => h ⟨c, d, hc⟩

/-- A conditional goes through its branches by turns. -/
theorem reasonBranches_eq (m : Moment) :
    let c := w.chain around before denied m.memory ns
    w.reasonBranches around before denied ns m =
      (c.turns.map (·.left.flow) ++ [c.done.flow], ⟨m.flow, c.done.memory⟩) := by
  induction ns generalizing denied m with
  | nil =>
    rw [reasonBranches, chain]
    rfl
  | cons b ns ih =>
    rcases pair_or_other b with ⟨condition, body, hb⟩ | hb
    · obtain ⟨number, kind, span, children⟩ := b
      dsimp only at hb
      subst hb
      let t := w.turn (around.within number kind) before denied m.memory condition body
      let rest := w.reasonBranches around before (denied ++ [t.restriction.negate]) ns ⟨m.flow, t.after⟩
      have hrest : rest = _ := @ih (denied ++ [t.restriction.negate]) ⟨m.flow, t.after⟩
      rw [reasonBranches, chain_pair rfl]
      show (t.left.flow :: rest.1, rest.2) = _
      rw [hrest]
      rfl
    · rw [chain_other hb]
      obtain ⟨number, kind, span, children⟩ := b
      rw [reasonBranches]
      · rfl
      · exact hb

/-- How a branch is gone through, after what earlier conditions say. -/
structure Turn.Follows (w : World) (package : String) (before : Flow) (past : List Restriction) (t : Turn) : Prop where
  inForce : t.start.memory.package = package
  start : t.start.flow = w.narrowed package before past
  tested : ∃ around, t.tested = (w.reason around t.condition t.start).2
  kept : t.tested.memory.package = package
  restriction : t.restriction = w.restriction t.tested.memory t.condition
  entered : t.entered = ⟨w.narrowed package t.tested.flow (past ++ [t.restriction]), t.tested.memory⟩

theorem turn_follows (hk : Keeps (w.reason around condition)) :
    (w.turn around before denied k condition body).Follows w k.package before denied :=
  ⟨rfl, rfl, ⟨_, rfl⟩, hk _, rfl, rfl⟩

/-- The parts of the branches leave the package in force. -/
def KeptIn (w : World) (ns : List Node) : Prop := ∀ b ∈ ns, ∀ c ∈ b.children, ∀ around, Keeps (w.reason around c)

theorem KeptIn.package_after (hk : w.KeptIn (b :: ns)) (hb : b.children = [condition, body]) :
    (w.turn around before denied k condition body).after.package = k.package := by
  have hkept := hk b (by simp)
  exact (hkept body (by simp [hb]) around _).trans (hkept condition (by simp [hb]) around _)

theorem KeptIn.tail (hk : w.KeptIn (b :: ns)) : w.KeptIn ns := fun e he => hk e (.tail _ he)

/-- One turn after the other. -/
theorem chain_turns (hk : w.KeptIn ns) (ht : (w.chain around before denied k ns).turns = earlier ++ t :: later) :
    t.Follows w k.package before (denied ++ negations earlier) ∧ ∃ b ∈ ns, ∃ body, b.children = [t.condition, body] ∧
      t.left = (w.reason (around.within b.number b.kind) body t.entered).2 := by
  induction ns generalizing denied k earlier with
  | nil => simp [chain] at ht
  | cons b ns ih =>
    rcases pair_or_other b with ⟨condition, body, hb⟩ | hb
    · rw [chain_pair hb] at ht
      cases earlier with
      | nil =>
        obtain ⟨rfl, -⟩ := List.cons.inj ht
        rw [negations, List.map_nil, List.append_nil]
        exact ⟨turn_follows (hk b (by simp) condition (by simp [hb]) _), b, .head _, body, hb, rfl⟩
      | cons first earlier =>
        obtain ⟨rfl, hrest⟩ := List.cons.inj ht
        obtain ⟨hfollows, e, he, hpart⟩ := ih hk.tail hrest
        rw [hk.package_after hb, List.append_assoc] at hfollows
        exact ⟨hfollows, e, .tail _ he, hpart⟩
    · rw [chain_other hb] at ht
      simp at ht

/-- When no condition holds. -/
theorem chain_start (hk : w.KeptIn ns) :
    (w.chain around before denied k ns).start.memory.package = k.package ∧
    (w.chain around before denied k ns).start.flow =
      w.narrowed k.package before (denied ++ negations (w.chain around before denied k ns).turns) := by
  induction ns generalizing denied k with
  | nil => simp [chain, negations]
  | cons b ns ih =>
    rcases pair_or_other b with ⟨condition, body, hb⟩ | hb
    · rw [chain_pair hb]
      let t := w.turn (around.within b.number b.kind) before denied k condition body
      obtain ⟨hpackage, hflow⟩ := @ih (denied ++ [t.restriction.negate]) t.after hk.tail
      rw [hk.package_after hb] at hpackage hflow
      rw [List.append_assoc] at hflow
      exact ⟨hpackage, hflow⟩
    · rw [chain_other hb]
      simp [negations]

/-- What is reached when no condition holds is where the last part starts, or that part. -/
theorem chain_done :
    let c := w.chain around before denied k ns
    c.done = c.start ∨ ∃ b ∈ ns, (∀ d e, b.children ≠ [d, e]) ∧
      c.done = (w.reasonEach (around.within b.number b.kind) b.children c.start).2 := by
  induction ns generalizing denied k with
  | nil => exact .inl rfl
  | cons b ns ih =>
    rcases pair_or_other b with ⟨condition, body, hb⟩ | hb
    · rw [chain_pair hb]
      rcases @ih _ _ with hdone | ⟨e, he, hdone⟩
      · exact .inl hdone
      · exact .inr ⟨e, .tail _ he, hdone⟩
    · rw [chain_other hb]
      exact .inr ⟨b, .head _, hb, rfl⟩

end Chains

/-! ## Handlers -/

/-- The body or a handler of a try as it is gone through. -/
structure Leg where
  part : Node
  start : Moment
  done : Moment

/-- The parts of a try as they are gone through, and what is remembered then. -/
def legs (w : World) (around : Around) (before : Flow) : Option String → Memory → List Node → List Leg × Memory
  | _, k, [] => ([], k)
  | binding, k, n :: ns =>
    match n.kind with
    | .attemptVariable name =>
      w.legs around before (some name) (Reason.record n.number (.ofType .condition) ⟨before, k⟩).2.memory ns
    | kind =>
      let start : Moment := ⟨if Around.isHandler kind then w.handlerFlow before binding n else before, k⟩
      let done := (w.reason around n start).2
      let rest := w.legs around before binding done.memory ns
      (⟨n, start, done⟩ :: rest.1, rest.2)

section Legs

variable {w : World} {around : Around} {before : Flow} {binding : Option String} {k : Memory} {n : Node} {ns : List Node}

theorem legs_variable {name : String} (hk : n.kind = .attemptVariable name) :
    w.legs around before binding k (n :: ns) =
      w.legs around before (some name) (Reason.record n.number (.ofType .condition) ⟨before, k⟩).2.memory ns := by
  rw [legs, hk]

theorem legs_part (hk : ∀ name, n.kind ≠ .attemptVariable name) :
    let start : Moment := ⟨if Around.isHandler n.kind then w.handlerFlow before binding n else before, k⟩
    let done := (w.reason around n start).2
    let rest := w.legs around before binding done.memory ns
    w.legs around before binding k (n :: ns) = (⟨n, start, done⟩ :: rest.1, rest.2) := by
  intro start done rest
  rw [legs]
  split
  · rename_i name hname
    exact absurd hname (hk name)
  · rfl

theorem reasonAttempt_part (hk : ∀ name, n.kind ≠ .attemptVariable name) :
    w.reasonAttempt around before binding (n :: ns) = (do
      let outcome ← Reason.along (if Around.isHandler n.kind then w.handlerFlow before binding n else before)
        (w.reason around n)
      let outcomes ← w.reasonAttempt around before binding ns
      return outcome :: outcomes) := by
  rw [reasonAttempt]
  split
  · rename_i name hname
    exact absurd hname (hk name)
  · rename_i names hnames
    rw [hnames]
    rfl
  · rename_i hvariable hhandler
    have hother : Around.isHandler n.kind = false := by
      cases hn : n.kind <;> first | rfl | exact absurd hn (hhandler _)
    rw [hother]
    rfl

/-- A try goes through its parts one by one. -/
theorem reasonAttempt_eq (m : Moment) :
    w.reasonAttempt around before binding ns m =
      ((w.legs around before binding m.memory ns).1.map (·.done.flow),
        ⟨m.flow, (w.legs around before binding m.memory ns).2⟩) := by
  induction ns generalizing binding m with
  | nil =>
    rw [reasonAttempt, legs]
    rfl
  | cons n ns ih =>
    by_cases hk : ∃ name, n.kind = .attemptVariable name
    · obtain ⟨name, hk⟩ := hk
      rw [legs_variable hk, reasonAttempt, hk]
      exact @ih (some name) (Reason.record n.number (.ofType .condition) m).2
    · rw [not_exists] at hk
      rw [legs_part hk, reasonAttempt_part hk]
      let start : Moment := ⟨if Around.isHandler n.kind then w.handlerFlow before binding n else before, m.memory⟩
      let done := (w.reason around n start).2
      let rest := w.reasonAttempt around before binding ns ⟨m.flow, done.memory⟩
      have hrest : rest = _ := @ih binding ⟨m.flow, done.memory⟩
      show (done.flow :: rest.1, rest.2) = _
      rw [hrest]
      rfl

/-- Behind the variable, all parts start with what was believed before the try. -/
theorem mem_legs (hk : ∀ c ∈ ns, (∀ name, c.kind ≠ .attemptVariable name) ∧ Keeps (w.reason around c)) {leg : Leg}
    (h : leg ∈ (w.legs around before binding k ns).1) : leg.start.memory.package = k.package ∧
      leg.start.flow = if Around.isHandler leg.part.kind then w.handlerFlow before binding leg.part else before := by
  induction ns generalizing k with
  | nil => simp [legs] at h
  | cons n ns ih =>
    obtain ⟨hn, hkept⟩ := hk n (by simp)
    rw [legs_part hn] at h
    rcases List.mem_cons.mp h with rfl | h
    · exact ⟨rfl, rfl⟩
    · obtain ⟨hpackage, hflow⟩ := ih (fun c hc => hk c (.tail _ hc)) h
      exact ⟨hpackage.trans (hkept _), hflow⟩

theorem map_part_legs (hk : ∀ c ∈ ns, ∀ name, c.kind ≠ .attemptVariable name) :
    (w.legs around before binding k ns).1.map (·.part) = ns := by
  induction ns generalizing k with
  | nil => rw [legs, List.map_nil]
  | cons n ns ih =>
    rw [legs_part (hk n (by simp)), List.map_cons, ih fun c hc => hk c (List.mem_cons_of_mem _ hc)]

end Legs

/-! ## Starts -/

/-- What is believed where something starts, after a moment: what was believed then, narrowed
    by restrictions. Of an entry that none of them names, it is the same; of one that cannot
    be determined, nothing is known. -/
structure StartsAfter (w : World) (m start : Moment) (rs : List Restriction) : Prop where
  narrowed (x : Nat) : w.typesAt start x = Restriction.typesLeft rs (w.typesAt m) x
  unnamed {x : Nat} : (∀ r ∈ rs, x ∉ r.entries) → w.typesAt start x = w.typesAt m x
  undetermined {x : Nat} {entries : List Nat} : .undeterminable entries ∈ rs → x ∈ entries →
    w.typesAt start x = .undefined

/-- Where the branches of a conditional start. -/
structure BranchesStart (w : World) (around : Around) (m : Moment) (n : Node) (c : Chain) : Prop where
  run : w.reason around n m = noted n.number (do
    w.merge (n.number :: (Node.drain n.children).map Node.number) m.flow (c.turns.map (·.left.flow) ++ [c.done.flow])
    Reason.takeEmitted n.number) ⟨m.flow, c.done.memory⟩
  conditions : c.turns.map (·.condition) = n.children.filterMap Node.tested?
  condition {earlier later : List Turn} {t : Turn} : c.turns = earlier ++ t :: later →
    w.StartsAfter m t.start (negations earlier)
  body {earlier later : List Turn} {t : Turn} : c.turns = earlier ++ t :: later →
    w.StartsAfter t.tested t.entered (negations earlier ++ [t.restriction])
  otherwise : w.StartsAfter m c.start (negations c.turns)
  /-- An assignment that lasts to the end of a condition is believed in its own branch. -/
  assigned {earlier later : List Turn} {t : Turn} {x : Nat} {value : Node} : c.turns = earlier ++ t :: later →
    m.flow.exited = false → Leads w m.memory.package x none t.condition (some value) →
    (∀ r ∈ negations earlier ++ [t.restriction], x ∉ r.entries) →
    ∃ r, t.entered.memory.findings.results.find? value.number = some r ∧
      ∀ type ∈ r.first.members, (w.typesAt t.entered x).Covers type

/-- Where the handlers of a try start. -/
structure HandlersStart (w : World) (around : Around) (m : Moment) (n : Node) (ls : List Leg) (k : Memory) : Prop where
  run : w.reason around n m = noted n.number (do
    w.merge (n.number :: (Node.drain n.children).map Node.number) m.flow (ls.map (·.done.flow))
    Reason.takeEmitted n.number) ⟨m.flow, k⟩
  parts : ∃ binding : Option Node, (∀ v ∈ binding, ∃ name, v.kind = .attemptVariable name) ∧
    n.children = binding.toList ++ ls.map (·.part)
  handler {leg : Leg} {names : List String} : leg ∈ ls → leg.part.kind = .handler names → ∀ x,
    w.typesAt leg.start x = if w.caught? n.errorName? leg.part = some x then .single .condition else w.typesAt m x

section Starts

variable {w : World} {around : Around} {m start : Moment} {n : Node} {rs : List Restriction} {package : String}
  {b c : Node} {k : Memory}

theorem startsAfter_of_narrowed (hm : m.memory.package = package) (hs : start.memory.package = package)
    (hf : start.flow = w.narrowed package m.flow rs) : w.StartsAfter m start rs := by
  have hnarrowed : ∀ x, w.typesAt start x = Restriction.typesLeft rs (w.typesAt m) x := by
    intro x
    rw [typesAt, hs, hf, entryTypes_narrowed]
    unfold typesAt
    rw [hm]
  refine ⟨hnarrowed, fun h => ?_, fun h hx => ?_⟩
  · rw [hnarrowed, Restriction.typesLeft_of_not_mem h]
  · rw [hnarrowed, Restriction.typesLeft_of_undeterminable h hx]

/-- The layout of a conditional. -/
theorem branches_of_conditional (hf : n.Formed) (hk : n.kind = .conditional) :
    ∃ (branches : List Node) (last : Option Node), n.children = branches ++ last.toList ∧ branches ≠ [] ∧
      (∀ b ∈ branches, b.kind = .branch ∧ ∃ condition body, b.children = [condition, body]) ∧
      ∀ e ∈ last, e.kind = .otherwise ∧ ∃ body, e.children = [body] := by
  have hlayout := hf.layout
  rw [hk] at hlayout
  generalize hc : n.children = children at hlayout
  cases hlayout with
  | @conditional branches last hne hb hl =>
    refine ⟨branches, last, rfl, hne, fun b hm => ?_, fun e hm => ?_⟩
    · have hbf : b.Formed := hf.child (by simp [hc, hm])
      obtain ⟨condition, body, hbc, -⟩ := hbf.layout.of_takesValueAndBody (by rw [hb b hm]; rfl)
      exact ⟨hb b hm, condition, body, hbc⟩
    · have hef : e.Formed := hf.child (by simp [hc, Option.mem_def.mp hm])
      obtain ⟨body, hbc, -⟩ := hef.layout.of_takesBody (by rw [hl e hm]; rfl)
      exact ⟨hl e hm, body, hbc⟩
  | _ => contradiction

theorem exists_condition (hf : n.Formed) (hk : n.kind = .conditional) :
    ∃ b ∈ n.children, ∃ condition, b.tested? = some condition := by
  obtain ⟨branches, last, hc, hne, hb, -⟩ := branches_of_conditional hf hk
  obtain ⟨b, hm⟩ := List.exists_mem_of_ne_nil _ hne
  obtain ⟨hkind, condition, body, hbc⟩ := hb b hm
  exact ⟨b, by simp [hc, hm], condition, by simp [Node.tested?, hkind, hbc]⟩

theorem isReasoned_part (hf : b.Formed) (hk : b.kind = .branch ∨ b.kind = .otherwise) (hc : c ∈ b.children) :
    c.kind.isReasoned := by
  rcases hk with hk | hk
  · obtain ⟨value, body, hbc, hv, hb⟩ := hf.layout.of_takesValueAndBody (hk ▸ rfl)
    rw [hbc] at hc
    rcases List.mem_pair.mp hc with rfl | rfl
    · exact Node.Kind.isReasoned_of_isExpression hv
    · rw [hb]
      rfl
  · obtain ⟨body, hbc, hb⟩ := hf.layout.of_takesBody (hk ▸ rfl)
    rw [hbc] at hc
    rw [List.mem_singleton.mp hc, hb]
    rfl

/-- The parts of branches are reasoned about by the rules. -/
theorem reasons_part (hf : b.Formed) (hk : b.kind = .branch ∨ b.kind = .otherwise) (hc : c ∈ b.children) (around : Around) :
    Reasons w around c (w.reason around c) :=
  ruled_of_formed (hf.child hc) (isReasoned_part hf hk hc) around

theorem branch_or_otherwise (hf : n.Formed) (hk : n.kind = .conditional) (hb : b ∈ n.children) :
    b.kind = .branch ∨ b.kind = .otherwise := by
  obtain ⟨branches, last, hc, -, hbranches, hlast⟩ := branches_of_conditional hf hk
  rw [hc, List.mem_append] at hb
  rcases hb with hb | hb
  · exact .inl (hbranches b hb).1
  · exact .inr (hlast b (by simpa using hb)).1

theorem keptIn_conditional (hf : n.Formed) (hk : n.kind = .conditional) : w.KeptIn n.children := by
  intro b hb c hc around
  have hinner : n.Inner := ⟨hf, by simp [hk], by simp [hk]⟩
  exact (reasons_part (hf.child hb) (branch_or_otherwise hf hk hb) hc around).keeps ((hinner.child hb).child hc)

theorem map_condition_chain {before : Flow} {denied : List Restriction} {branches : List Node} {last : Option Node}
    (hb : ∀ b ∈ branches, b.kind = .branch ∧ ∃ condition body, b.children = [condition, body])
    (hl : ∀ e ∈ last, e.kind = .otherwise ∧ ∃ body, e.children = [body]) :
    (w.chain around before denied k (branches ++ last.toList)).turns.map (·.condition) =
      (branches ++ last.toList).filterMap Node.tested? := by
  induction branches generalizing denied k with
  | nil =>
    cases last with
    | none => simp [chain]
    | some e =>
      obtain ⟨hk, body, hc⟩ := hl e rfl
      rw [List.nil_append, Option.toList_some, chain_other (by simp [hc])]
      simp [Node.tested?, hk]
  | cons b branches ih =>
    obtain ⟨hk, condition, body, hc⟩ := hb b (by simp)
    rw [List.cons_append, chain_pair hc, List.map_cons, ih fun e he => hb e (List.mem_cons_of_mem _ he)]
    simp [Node.tested?, hk, hc, turn]

/-- Where the branches of a conditional start. -/
theorem branchesStart (hf : n.Formed) (hn : n.numbers.Nodup) (hk : n.kind = .conditional) :
    w.BranchesStart around m n (w.chain (around.within n.number n.kind) m.flow [] m.memory n.children) := by
  obtain ⟨branches, last, hc, -, hb, hl⟩ := branches_of_conditional hf hk
  have hinner : n.Inner := ⟨hf, by simp [hk], by simp [hk]⟩
  have hkept := keptIn_conditional (w := w) hf hk
  have hturn : ∀ {earlier later : List Turn} {t : Turn},
      (w.chain (around.within n.number n.kind) m.flow [] m.memory n.children).turns = earlier ++ t :: later →
      t.Follows w m.memory.package m.flow (negations earlier) ∧ ∃ b ∈ n.children, t.condition ∈ b.children := by
    intro earlier later t h
    obtain ⟨hfollows, b, hb, body, hbc, -⟩ := chain_turns hkept h
    exact ⟨by simpa using hfollows, b, hb, by simp [hbc]⟩
  refine ⟨?_, ?_, fun h => ?_, fun h => ?_, ?_, fun {earlier later t x value} h hm hlasts hr => ?_⟩
  · obtain ⟨number, kind, span, children⟩ := n
    dsimp only at hk
    subst hk
    let out := w.reasonBranches (around.within number .conditional) m.flow [] children m
    rw [reason]
    show noted number (do
      w.merge (number :: (Node.drain children).map Node.number) m.flow out.1
      Reason.takeEmitted number) out.2 = _
    rw [show out = _ from reasonBranches_eq m]
  · rw [hc]
    exact map_condition_chain hb hl
  · obtain ⟨hfollows, -⟩ := hturn h
    exact startsAfter_of_narrowed rfl hfollows.inForce hfollows.start
  · obtain ⟨hfollows, -⟩ := hturn h
    exact startsAfter_of_narrowed hfollows.kept (by rw [hfollows.entered]; exact hfollows.kept) (by rw [hfollows.entered])
  · obtain ⟨hpackage, hflow⟩ := @chain_start w (around.within n.number n.kind) m.flow [] m.memory n.children hkept
    exact startsAfter_of_narrowed rfl hpackage hflow
  · obtain ⟨hfollows, b, hb, hcb⟩ := hturn h
    obtain ⟨inner, he⟩ := hfollows.tested
    have hproper : Enclosed [n] := ⟨.single hf hn, by simpa using hinner⟩
    have hstart : Knows m.memory.package x none t.start := by
      refine ⟨hfollows.inForce, ?_, fun hv => by cases hv⟩
      rw [hfollows.start, exited_narrowed]
      exact hm
    have hdone : Knows m.memory.package x (some value) t.tested := by
      rw [he]
      exact led w m.memory.package x t.condition hlasts (reasons_part (hf.child hb) (branch_or_otherwise hf hk hb) hcb inner)
        ((hproper.children.of_mem hb).children.of_mem hcb) (fun v hv => by cases hv) t.start hstart
    obtain ⟨r, hresult, types, hbelieved, hcovers⟩ := hdone.believes rfl
    rw [hfollows.entered]
    refine ⟨r, hresult, fun type ht => ?_⟩
    rw [typesAt, entryTypes, find?_narrowed_of_not_mem hr, hbelieved]
    exact hcovers type ht

theorem typesAt_handlerFlow {binding : Option String} {handler : Node} (hk : k.package = m.memory.package) (x : Nat) :
    w.typesAt ⟨w.handlerFlow m.flow binding handler, k⟩ x =
      if w.caught? binding handler = some x then .single .condition else w.typesAt m x := by
  rw [typesAt, typesAt, handlerFlow_eq]
  cases w.caught? binding handler with
  | none => simp [hk]
  | some entry =>
    by_cases hx : entry = x
    · simp [entryTypes, Flow.believe, hx]
    · simp [entryTypes, Flow.believe, Table.find?_insert, hx, hk]

/-- A try goes through its body and its handlers, which know its variable. -/
theorem exists_legs (w : World) (hf : n.Formed) (hk : n.kind = .attempt) (around : Around) (m : Moment) :
    ∃ (binding : Option Node) (parts : List Node) (k : Memory), (∀ v ∈ binding, ∃ name, v.kind = .attemptVariable name) ∧
      n.children = binding.toList ++ parts ∧ k.package = m.memory.package ∧
      (∀ c ∈ parts, (∀ name, c.kind ≠ .attemptVariable name) ∧ Keeps (w.reason around c)) ∧
      w.legs around m.flow none m.memory n.children = w.legs around m.flow n.errorName? k parts := by
  have hlayout := hf.layout
  rw [hk] at hlayout
  obtain ⟨binding, body, handlers, hc, hb, hv, hh⟩ := hlayout.of_attempt
  have hinner : n.Inner := ⟨hf, by simp [hk], by simp [hk]⟩
  have hpart : ∀ c ∈ body :: handlers, (∀ name, c.kind ≠ .attemptVariable name) ∧
      Keeps (w.reason around c) := by
    intro c hm
    have hcn : c ∈ n.children := by
      rw [hc]
      exact List.mem_append_right _ hm
    have hkind : c.kind.isReasoned ∧ ∀ name, c.kind ≠ .attemptVariable name := by
      rcases List.mem_cons.mp hm with rfl | hm
      · simp [hb, Node.Kind.isReasoned]
      · obtain ⟨names, hnames⟩ := hh c hm
        simp [hnames, Node.Kind.isReasoned]
    exact ⟨hkind.2, (ruled_of_formed (hf.child hcn) hkind.1 _).keeps (hinner.child hcn)⟩
  cases binding with
  | none =>
    have herror : n.errorName? = none := by simp [Node.errorName?, hc, hb]
    exact ⟨none, body :: handlers, m.memory, hv, hc, rfl, hpart, by rw [herror, hc]; rfl⟩
  | some v =>
    obtain ⟨name, hvk⟩ := hv v rfl
    have herror : n.errorName? = some name := by simp [Node.errorName?, hc, hvk]
    refine ⟨some v, body :: handlers, (Reason.record v.number (.ofType .condition) m).2.memory, hv, hc, rfl, hpart, ?_⟩
    rw [herror, hc]
    exact legs_variable hvk

/-- Where the handlers of a try start. -/
theorem handlersStart (hf : n.Formed) (hk : n.kind = .attempt) :
    let ls := w.legs (around.within n.number n.kind) m.flow none m.memory n.children
    w.HandlersStart around m n ls.1 ls.2 := by
  intro ls
  obtain ⟨binding, parts, k, hv, hc, hpackage, hpart, hls⟩ := exists_legs w hf hk (around.within n.number n.kind) m
  refine ⟨?_, ⟨binding, hv, ?_⟩, fun {leg names} hm hnames x => ?_⟩
  · obtain ⟨number, kind, span, children⟩ := n
    dsimp only at hk
    subst hk
    let out := w.reasonAttempt (around.within number .attempt) m.flow none children m
    rw [reason]
    show noted number (do
      w.merge (number :: (Node.drain children).map Node.number) m.flow out.1
      Reason.takeEmitted number) out.2 = _
    rw [show out = _ from reasonAttempt_eq m]
  · rw [show ls = _ from hls, map_part_legs fun c hm => (hpart c hm).1, hc]
  · rw [show ls = _ from hls] at hm
    obtain ⟨hstart, hflow⟩ := mem_legs hpart hm
    rw [hnames] at hflow
    have hflow : leg.start.flow = w.handlerFlow m.flow n.errorName? leg.part := hflow
    rw [show leg.start = ⟨w.handlerFlow m.flow n.errorName? leg.part, leg.start.memory⟩ by rw [← hflow]]
    exact typesAt_handlerFlow (hstart.trans hpackage) x

end Starts

/-! ## Branches and handlers of a file -/

theorem branches_and_handlers_start (tokens : List Token) (definitions : Definitions) (around : Around) (m : Moment)
    {n : Node} :
    let tree := (Grammar.parse tokens).1
    let w : World := ⟨ScopeTree.build tree, definitions⟩
    n ∈ tree.nodes →
      (n.kind = .conditional →
        w.BranchesStart around m n (w.chain (around.within n.number n.kind) m.flow [] m.memory n.children)) ∧
      (n.kind = .attempt →
        let ls := w.legs (around.within n.number n.kind) m.flow none m.memory n.children
        w.HandlersStart around m n ls.1 ls.2) := by
  intro tree w hn
  have h : tree.FormedFile := Grammar.parse_formedFile tokens
  obtain ⟨as, hway⟩ := SyntaxTree.mem_nodes_iff.mp hn
  have hf : n.Formed := hway.formed h.formed
  exact ⟨branchesStart hf (hway.nodup h.nodup), handlersStart hf⟩

/-! Three variables hold a symbol and are assigned an integer: one in the condition of a
    branch, one in a loop there, one in the body of a try. -/

def forgottenTokens : List Token :=
  [.word .kwLocal 1 1, .name "x" 1 8, ⟨.chevron, "<<", 1, 10⟩, ⟨.symbol "a", ":a", 1, 13⟩,
    .word .kwIf 2 1, .name "y" 2 5, .word .kwIs 2 7, ⟨.leftParen, "(", 2, 11⟩,
    .name "x" 2 12, ⟨.chevron, "<<", 2, 14⟩, ⟨.integer 5, "5", 2, 17⟩, ⟨.rightParen, ")", 2, 18⟩,
    .word .kwThen 3 1, .word .kwElse 4 1, .name "x" 4 7,
    .word .kwEndIf 5 1,
    .word .kwLocal 6 1, .name "z" 6 8, ⟨.chevron, "<<", 6, 10⟩, ⟨.symbol "a", ":a", 6, 13⟩,
    .word .kwIf 7 1, .name "y" 7 5, .word .kwIs 7 7,
    .word .kwLoop 7 11, .name "z" 7 17, ⟨.chevron, "<<", 7, 19⟩, ⟨.integer 5, "5", 7, 22⟩,
    .word .kwLeave 7 24, .word .kwWith 7 31, ⟨.integer 1, "1", 7, 37⟩,
    .word .kwEndLoop 7 39, .word .kwThen 8 1, .name "z" 8 7,
    .word .kwEndIf 9 1,
    .word .kwLocal 10 1, .name "v" 10 8, ⟨.chevron, "<<", 10, 10⟩,
    ⟨.symbol "a", ":a", 10, 13⟩, .word .kwTry 11 1, .name "v" 11 6, ⟨.chevron, "<<", 11, 8⟩,
    ⟨.integer 5, "5", 11, 11⟩, .word .kwWhen 12 1, .name "error" 12 7,
    .name "v" 13 1, .word .kwEndTry 14 1, ⟨.endOfFile, "", 15, 1⟩]

def assigningCondition : Node :=
  ⟨7, .binary .identical, ⟨2, 5, 2, 17⟩, [⟨3, .identifier "y", ⟨2, 5, 2, 5⟩, []⟩,
    ⟨6, .assignment, ⟨2, 12, 2, 17⟩,
      [⟨4, .identifier "x", ⟨2, 12, 2, 12⟩, []⟩, ⟨5, .literal (.integer 5), ⟨2, 17, 2, 17⟩, []⟩]⟩]⟩

def assigningConditional : Node :=
  ⟨13, .conditional, ⟨2, 1, 5, 6⟩,
    [⟨9, .branch, ⟨2, 1, 3, 5⟩, [assigningCondition, ⟨8, .body, ⟨4, 1, 4, 1⟩, []⟩]⟩,
      ⟨12, .otherwise, ⟨4, 1, 4, 7⟩, [⟨11, .body, ⟨4, 7, 4, 7⟩, [⟨10, .identifier "x", ⟨4, 7, 4, 7⟩, []⟩]⟩]⟩]⟩

def loopingConditional : Node :=
  ⟨29, .conditional, ⟨7, 1, 9, 6⟩, [⟨28, .branch, ⟨7, 1, 8, 7⟩,
    [⟨25, .binary .identical, ⟨7, 5, 7, 46⟩, [⟨17, .identifier "y", ⟨7, 5, 7, 5⟩, []⟩,
      ⟨24, .plainLoop none, ⟨7, 11, 7, 46⟩, [⟨23, .body, ⟨7, 17, 7, 37⟩,
        [⟨20, .assignment, ⟨7, 17, 7, 22⟩,
          [⟨18, .identifier "z", ⟨7, 17, 7, 17⟩, []⟩, ⟨19, .literal (.integer 5), ⟨7, 22, 7, 22⟩, []⟩]⟩,
          ⟨22, .leave none, ⟨7, 24, 7, 37⟩, [⟨21, .literal (.integer 1), ⟨7, 37, 7, 37⟩, []⟩]⟩]⟩]⟩]⟩,
      ⟨27, .body, ⟨8, 7, 8, 7⟩, [⟨26, .identifier "z", ⟨8, 7, 8, 7⟩, []⟩]⟩]⟩]⟩

def assigningAttempt : Node :=
  ⟨40, .attempt, ⟨11, 1, 14, 7⟩,
    [⟨36, .body, ⟨11, 6, 11, 11⟩, [⟨35, .assignment, ⟨11, 6, 11, 11⟩,
      [⟨33, .identifier "v", ⟨11, 6, 11, 6⟩, []⟩, ⟨34, .literal (.integer 5), ⟨11, 11, 11, 11⟩, []⟩]⟩]⟩,
      ⟨39, .handler ["error"], ⟨12, 1, 13, 1⟩, [⟨38, .body, ⟨13, 1, 13, 1⟩,
        [⟨37, .identifier "v", ⟨13, 1, 13, 1⟩, []⟩]⟩]⟩]⟩

/-- The integer is believed where the branch starts whose condition assigns it, and not where
    the other one starts. -/
theorem assigned_in_own_branch :
    let tree := (Grammar.parse forgottenTokens).1
    let w : World := ⟨ScopeTree.build tree, .empty⟩
    let m := (w.reasonEach .file (tree.root.children.take 1) ⟨.start, .start "user"⟩).2
    let c := w.chain (Around.file.within 13 .conditional) m.flow [] m.memory assigningConditional.children
    ∃ t, c.turns = [t] ∧ (w.typesAt t.entered 0).Covers .integer ∧ w.typesAt c.start 0 = .single .symbol := by
  intro tree w m c
  have hn : assigningConditional ∈ tree.nodes := by decide +kernel
  have h : w.BranchesStart .file m assigningConditional c :=
    (branches_and_handlers_start forgottenTokens .empty .file m hn).1 rfl
  obtain ⟨t, hturns, ht⟩ := List.map_eq_singleton_iff.mp (show c.turns.map (·.condition) = [assigningCondition] from
    h.conditions.trans (by decide +kernel))
  have hleaf : ∀ n : Node, n.kind.isStraight → Running.departs w n = false → n.children = [] → n.written = [] →
      Leads w m.memory.package 0 none n none := by
    intro n hk hd hc hw
    exact .straight hk hd (hc ▸ .nil) (Or.inr ⟨rfl, by simp [hw]⟩)
  have hleads : Leads w m.memory.package 0 none t.condition (some ⟨5, .literal (.integer 5), ⟨2, 17, 2, 17⟩, []⟩) := by
    rw [ht]
    refine .straight rfl rfl (.cons (hleaf _ rfl rfl rfl rfl) (.cons ?_ .nil))
      (Or.inr ⟨rfl, by simp [Node.written, assigningCondition]⟩)
    exact .assigned rfl rfl (hleaf _ rfl rfl rfl rfl) (by decide +kernel)
  have hentries : c.turns.map (·.restriction.entries) = [[1]] := by decide +kernel
  have hresults : c.turns.map (·.entered.memory.findings.results.find? 5) = [some (.single (.single .integer))] := by
    decide +kernel
  rw [hturns] at hentries hresults
  have hentered : t.restriction.entries = [1] := List.singleton_inj.mp hentries
  have hresult : t.entered.memory.findings.results.find? 5 = some (.single (.single .integer)) :=
    List.singleton_inj.mp hresults
  refine ⟨t, hturns, ?_, ?_⟩
  · obtain ⟨r, hr, hcovers⟩ := h.assigned (show c.turns = [] ++ t :: [] from hturns) (by decide +kernel) hleads
      (by simp [negations, hentered])
    cases hr.symm.trans hresult
    exact hcovers _ (by decide +kernel)
  · rw [h.otherwise.unnamed (by simp [hturns, negations, Restriction.entries_negate, hentered])]
    decide +kernel

/-- The symbol alone is believed in the other branch, behind the loop and in the handler. -/
theorem assignments_forgotten :
    let tree := (Grammar.parse forgottenTokens).1
    let results := (findings ⟨ScopeTree.build tree, .empty⟩ "user" tree).results
    [assigningConditional, loopingConditional, assigningAttempt] ⊆ tree.nodes ∧
      [5, 19, 34].map results.find? = List.replicate 3 (some (.single (.single .integer))) ∧
      [10, 26, 37].map results.find? = List.replicate 3 (some (.single (.single .symbol))) := by
  decide +kernel

end World

end Magik
