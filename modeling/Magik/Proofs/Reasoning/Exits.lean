/-
  Magik.Proofs.Reasoning.Exits — what is left on the way counts for nothing behind it.

  A path that was left stays left, and it is left at the end of a node exactly if it was before
  or the node departs (`Departs`, `Reasons.exits`): there is a jump or an error on the path
  itself, or no way leads through a conditional or a try on it. The ends of the ways that are
  not left are joined: of every entry stored outside, what is believed behind is the union of
  what is believed at these ends (`isUnion_mergeLive`). If all are left, so is the path around
  (`flow_merge`).
-/

import Magik.Proofs.Reasoning.Obtained
import Magik.Proofs.Reasoning.Turns
import Magik.Proofs.Types.Joins

namespace Magik

/-! ## Unions -/

namespace TypeSet

/-- The set has the members of all parts; nothing is known of it if nothing is known of one. -/
structure IsUnion (s : TypeSet) (parts : List TypeSet) : Prop where
  unknown : (∃ a ∈ parts, a.isUndefined = true) → s = undefined
  known : (∀ a ∈ parts, a.isUndefined = false) → ∀ t, t ∈ s.members ↔ ∃ a ∈ parts, t ∈ a.members

variable {a b s : TypeSet} {rest parts : List TypeSet} {t : TypeName}

theorem IsUnion.congr (h : a.IsUnion parts) (hb : b.WellFormed) (hm : ∀ t, t ∈ b.members ↔ t ∈ a.members) :
    b.IsUnion parts where
  unknown hp := hb.eq_undefined (isUndefined_iff.mpr ((hm _).mpr (by simp [h.unknown hp, undefined])))
  known hp t := (hm t).trans (h.known hp t)

theorem isUndefined_unions (ha : a.WellFormed) :
    (rest.foldl union a).isUndefined = true ↔ ∃ b ∈ a :: rest, b.isUndefined = true := by
  induction rest generalizing a with
  | nil => simp
  | cons b rest ih =>
    rw [List.foldl_cons, ih (wellFormed_union a b)]
    simp [isUndefined_union ha.nonempty, or_assoc]

theorem mem_unions (h : (rest.foldl union a).isUndefined = false) :
    t ∈ (rest.foldl union a).members ↔ ∃ b ∈ a :: rest, t ∈ b.members := by
  induction rest generalizing a with
  | nil => simp
  | cons b rest ih =>
    rw [List.foldl_cons] at h ⊢
    have hknown : (a.union b).isUndefined = false := by
      cases hu : (a.union b).isUndefined with
      | false => rfl
      | true => cases h.symm.trans ((isUndefined_unions (wellFormed_union a b)).mpr ⟨_, .head _, hu⟩)
    rw [ih h]
    simp [mem_union hknown, or_assoc]

/-- The union of sets is what it is called. -/
theorem isUnion_unions (h : ∀ s ∈ a :: rest, s.WellFormed) : (rest.foldl union a).IsUnion (a :: rest) := by
  have ha := h a (by simp)
  constructor
  · intro hu
    have hw := closed_wellFormed.unions ha fun s hs => h s (.tail _ hs)
    exact hw.eq_undefined ((isUndefined_unions ha).mpr hu)
  · intro hu t
    refine mem_unions ?_
    rw [← Bool.not_eq_true, isUndefined_unions ha]
    rintro ⟨b, hb, hundefined⟩
    cases hundefined.symm.trans (hu b hb)

theorem wellFormed_inOrderOf (before : Option TypeSet) (h : s.WellFormed) : (World.inOrderOf before s).WellFormed := by
  unfold World.inOrderOf
  split
  · split
    · exact h
    · exact wellFormed_ofList _
  · exact h

/-- Putting members into an order keeps them. -/
theorem mem_inOrderOf (before : Option TypeSet) (h : s.WellFormed) :
    t ∈ (World.inOrderOf before s).members ↔ t ∈ s.members := by
  unfold World.inOrderOf
  split
  · rename_i old
    split
    · rfl
    · rename_i hu
      obtain ⟨u, hm⟩ := List.exists_mem_of_ne_nil _ h.nonempty
      have hlist : ∀ t, t ∈ old.members.filter s.contains ++ s.members.filter (fun t => !old.contains t) ↔ t ∈ s.members := by
        intro t
        simp only [List.mem_append, List.mem_filter, contains, decide_eq_true_eq, Bool.not_eq_true', decide_eq_false_iff_not]
        by_cases ho : t ∈ old.members <;> simp [ho]
      have hknown : (ofList (old.members.filter s.contains ++ s.members.filter fun t => !old.contains t)).isUndefined = false := by
        rw [← Bool.not_eq_true, isUndefined_ofList, not_or, hlist, ← isUndefined_iff]
        exact ⟨List.ne_nil_of_mem ((hlist u).mpr hm), hu⟩
      rw [mem_ofList hknown, hlist]
  · rfl

end TypeSet

/-! ## Departing -/

namespace Node

/-- Statements that leave their path. -/
def Kind.jumps : Kind → Bool
  | .returned | .leave _ | .continued _ | .thrown => true
  | _ => false

/-- Nodes in which a path is left only in their parts. -/
def Kind.isTransparent : Kind → Bool
  | .conditional | .attempt | .invocation _ => false
  | k => !k.jumps

/-- The ways through a conditional or a try. -/
def Kind.isPath : Kind → Bool
  | .branch | .otherwise | .body | .handler _ => true
  | _ => false

/-- The branches of a conditional; the body and the handlers of a try. -/
def paths (n : Node) : List Node := n.children.filter (·.kind.isPath)

/-- The paths, and the way around all branches where there is no `_else`. -/
def ways (n : Node) : List (Option Node) :=
  n.paths.map some ++ if n.kind = .conditional ∧ ∀ c ∈ n.children, c.kind ≠ .otherwise then [none] else []

/-- The parts that are gone through on the path that a node is on: of a loop what it runs
    over or tests, of an assignment the value, and of what is no path of its own, all. -/
def onPath (n : Node) : List Node :=
  match n.kind with
  | .conditional | .attempt | .method _ | .procedure .. => []
  | .forLoop _ | .whileLoop _ | .plainLoop _ => n.children.dropLast.getLast?.toList
  | .assignment | .multipleAssignment | .declaration _ true => n.children.getLast?.toList
  | _ => n.children

end Node

namespace World

/-- An error is raised outside of the body of a try. -/
inductive Raises (w : World) (around : Around) (n : Node) : Prop
  | intro {receiver error args name condition} (kind : n.kind = .invocation "raise")
      (hc : n.children = receiver :: error :: args) (hr : receiver.kind = .identifier name)
      (hn : name = "condition" ∨ name = "sw:condition") (he : error.kind = .literal (.symbol condition))
      (hi : w.definitions.isError condition) (ho : around.isAttempted n.kind = false)

/-- The path that a node is on is left in it: there is a jump or an error is raised, on the
    path itself, or no way leads through a conditional or a try. -/
inductive Departs (w : World) : Around → Node → Prop
  | jump {around n} (h : n.kind.jumps) : Departs w around n
  | raise {around n} (h : w.Raises around n) : Departs w around n
  | within {around n c} (hc : c ∈ n.onPath) (h : Departs w (around.within n.number n.kind) c) : Departs w around n
  | through {around n} (hk : n.kind = .conditional ∨ n.kind = .attempt) (hw : none ∉ n.ways)
      (h : ∀ c ∈ n.paths, Departs w (around.within n.number n.kind) c) : Departs w around n

variable {w : World} {around : Around} {n : Node} {ns : List Node} {α β : Type} {name : String} {before : Flow}
  {binding : Option String} {P Q : Prop} {p : Reason α} {q : α → Reason β}

theorem Raises.kind (h : w.Raises around n) : n.kind = .invocation "raise" := by
  obtain ⟨hk⟩ := h
  exact hk

theorem raisesError_iff {number : Nat} {span : Span} {children : List Node} :
    w.raisesError around name children = true ↔ w.Raises around ⟨number, .invocation name, span, children⟩ := by
  constructor
  · unfold raisesError
    split
    · intro h
      simp only [Bool.and_eq_true, Bool.or_eq_true, decide_eq_true_eq, Bool.not_eq_true'] at h
      obtain ⟨⟨⟨rfl, hn⟩, hi⟩, ho⟩ := h
      exact ⟨rfl, rfl, rfl, hn, rfl, hi, ho⟩
    · exact fun h => by cases h
  · rintro ⟨hk, hc, hr, hn, he, hi, ho⟩
    rename_i receiver error args _ _
    obtain ⟨_, kind, _, _⟩ := receiver
    obtain ⟨_, kind', _, _⟩ := error
    dsimp only at hk hc hr he ho
    cases hk
    subst hc hr he
    simp [raisesError, hn, hi, ho]

/-- On a path that is all of the node, a jump, an error or a part of it leaves it. -/
theorem departs_iff_onPath (hk : n.kind ≠ .conditional ∧ n.kind ≠ .attempt) : w.Departs around n ↔
    (∃ c ∈ n.onPath, w.Departs (around.within n.number n.kind) c) ∨ n.kind.jumps ∨ w.Raises around n := by
  constructor
  · intro h
    cases h with
    | jump h => exact .inr (.inl h)
    | raise h => exact .inr (.inr h)
    | within hc h => exact .inl ⟨_, hc, h⟩
    | through h => exact absurd h (not_or.mpr hk)
  · rintro (⟨c, hc, h⟩ | h | h)
    · exact .within hc h
    · exact .jump h
    · exact .raise h

theorem departs_iff_ways (hk : n.kind = .conditional ∨ n.kind = .attempt) :
    w.Departs around n ↔ ∀ way ∈ n.ways, ∃ c ∈ way, w.Departs (around.within n.number n.kind) c := by
  have hpath : ∀ {c}, c ∈ n.paths → some c ∈ n.ways := fun hc => List.mem_append_left _ (List.mem_map_of_mem hc)
  constructor
  · intro h way hway
    cases h with
    | jump h => rcases hk with hk | hk <;> rw [hk] at h <;> cases h
    | raise h => rcases hk with hk | hk <;> cases hk.symm.trans h.kind
    | within hc => rcases hk with hk | hk <;> simp [Node.onPath, hk] at hc
    | through _ hw h =>
      cases way with
      | none => exact absurd hway hw
      | some c =>
        refine ⟨c, rfl, h c ?_⟩
        simpa [Node.ways] using hway
  · intro h
    refine .through hk (fun hnone => ?_) fun c hc => ?_
    · obtain ⟨c, hc, -⟩ := h none hnone
      cases hc
    · obtain ⟨d, hd, hdeparts⟩ := h (some c) (hpath hc)
      cases hd
      exact hdeparts

/-- At the end the flow is left if it was before or `P` holds, and not otherwise. -/
def Exits (p : Reason α) (P : Prop) : Prop := ∀ m, (p m).2.flow.exited = true ↔ m.flow.exited = true ∨ P

namespace Exits

theorem of_eq (h : ∀ m, (p m).2.flow.exited = m.flow.exited) : Exits p False := fun m => by simp [h m]

theorem exit (hP : P) : Exits Reason.exit P := fun _ => by simp [Reason.exit, Reason.changeFlow, Flow.exit, hP]

theorem congr (h : Exits p P) (he : P ↔ Q) : Exits p Q := fun m => (h m).trans (or_congr_right he)

theorem never (h : Exits p False) (hP : ¬ P) : Exits p P := h.congr (iff_of_false not_false hP)

theorem bind (hp : Exits p P) (hq : ∀ a, Exits (q a) Q) : Exits (p >>= q) (P ∨ Q) := fun m =>
  (hq _ _).trans ((or_congr_left (hp m)).trans or_assoc)

theorem after (hp : Exits p False) (hq : ∀ a, Exits (q a) Q) : Exits (p >>= q) Q :=
  (hp.bind hq).congr (by simp)

theorem followed (hp : Exits p P) (hq : ∀ a, Exits (q a) False) : Exits (p >>= q) P :=
  (hp.bind hq).congr (by simp)

theorem noted {p : Reason Results} (hp : Exits p P) (number : Nat) : Exits (noted number p) P := hp

theorem along (hp : Exits p P) (start : Flow) (m : Moment) :
    (Reason.along start p m).1.exited = true ↔ start.exited = true ∨ P :=
  hp ⟨start, m.memory⟩

theorem assign (number : Nat) (procedure : Option Nat) (types : TypeSet) :
    Exits (w.assign number procedure types) False := by
  unfold World.assign
  cases w.scopes.entryOf? number <;> exact of_eq fun _ => rfl

theorem assignEach (r : Results) (index : Nat) : Exits (w.assignEach r index ns) False := by
  induction ns generalizing index with
  | nil => exact of_eq fun _ => rfl
  | cons n ns ih => exact (assign _ _ _).after fun _ => ih _

theorem undeclaredTypes (modifier : Modifier) (number : Nat) :
    Exits (w.undeclaredTypes around modifier number) False := by
  unfold World.undeclaredTypes
  cases modifier <;> exact of_eq fun _ => rfl

theorem readName (number : Nat) : Exits (w.readName number) False := by
  unfold World.readName
  cases w.scopes.entryOf? number <;> exact of_eq fun _ => rfl

theorem invocation {number : Nat} {span : Span} {parts : List Node} (rs : List Results) :
    Exits (w.invocation around number name parts rs) (w.Raises around ⟨number, .invocation name, span, parts⟩) := by
  unfold World.invocation
  by_cases h : w.raisesError around name parts = true
  · simp only [if_pos h]
    refine (exit (raisesError_iff.mp h)).followed fun _ => ?_
    split
    · exact of_eq fun _ => by split <;> rfl
    · exact of_eq fun _ => rfl
  · simp only [if_neg h]
    refine never ?_ fun hr => h (raisesError_iff.mpr hr)
    split
    · exact of_eq fun _ => by split <;> rfl
    · exact of_eq fun _ => rfl

theorem call (number : Nat) (children : List Node) : Exits (w.call number children) False := by
  unfold World.call
  refine (of_eq fun _ => rfl : Exits Reason.memory False).after fun k => ?_
  split
  · exact of_eq fun _ => rfl
  · dsimp only
    split <;> exact of_eq fun _ => rfl

theorem deliver {kind : Node.Kind} (hd : kind.delivers) (r : Results) :
    Exits (World.deliver around kind r) kind.jumps := by
  have hwaits : ∀ {γ : Type} (o : Option γ) (f : γ → Reason Unit), (∀ c, Exits (f c) False) → Exits (o.forM f) False := by
    intro γ o f hf
    cases o with
    | none => exact of_eq fun _ => rfl
    | some c => exact hf c
  cases kind with
  | returned | leave => exact (hwaits _ _ fun _ => of_eq fun _ => rfl).after fun _ => exit rfl
  | emitted =>
    refine (hwaits _ _ fun (owner, target) => ?_).never (by simp [Node.Kind.jumps])
    dsimp only
    split <;> exact of_eq fun _ => rfl
  | loopBody => exact (hwaits _ _ fun _ => of_eq fun _ => rfl).never (by simp [Node.Kind.jumps])
  | _ => cases hd

end Exits

section

variable {number : Nat} {kind : Node.Kind} {heads parts : List Node} {q : List Results → Reason Results}

theorem Closes.onPath (h : Closes w around number kind heads parts q) (span : Span) :
    (⟨number, kind, span, heads ++ parts⟩ : Node).onPath = parts := by
  cases h with
  | made h | deliver h | depart h | enclosure h => cases kind <;> first | rfl | cases h
  | several | shared => simp [Node.onPath]
  | _ => rfl

/-- Behind its parts, a node leaves the path if it is a jump or raises an error. -/
theorem Closes.exits (h : Closes w around number kind heads parts q) (span : Span) (rs : List Results) :
    Exits (q rs) (kind.jumps ∨ w.Raises around ⟨number, kind, span, heads ++ parts⟩) := by
  have hno : (∀ name, kind ≠ .invocation name) → ¬ w.Raises around ⟨number, kind, span, heads ++ parts⟩ :=
    fun hk hr => hk _ hr.kind
  have hstays : kind.jumps = false → (∀ name, kind ≠ .invocation name) → Exits (q rs) False →
      Exits (q rs) (kind.jumps ∨ w.Raises around ⟨number, kind, span, heads ++ parts⟩) :=
    fun hj hk h => h.never (by simp [hj, hno hk])
  cases h with
  | invocation => exact (@Exits.invocation w around _ number span parts rs).congr (by simp [Node.Kind.jumps])
  | deliver hd =>
    have hk : ∀ name, kind ≠ .invocation name := by
      rintro name rfl
      cases hd
    exact ((Exits.deliver hd _).followed fun _ => .of_eq fun _ => rfl).congr (or_iff_left (hno hk)).symm
  | depart hd =>
    have hj : kind.jumps := by cases kind <;> first | rfl | cases hd
    exact (Exits.exit (.inl hj)).followed fun _ => .of_eq fun _ => rfl
  | made hm | enclosure hm => cases kind <;> first | (cases hm; done) | exact hstays rfl (by simp) (.of_eq fun _ => rfl)
  | package => exact hstays rfl (by simp) (.of_eq fun _ => rfl)
  | name => exact hstays rfl (by simp) (.readName _)
  | call => exact hstays rfl (by simp) (.call _ _)
  | assignment | augmented =>
    exact hstays rfl (by simp) ((Exits.assign _ _ _).followed fun _ => .of_eq fun _ => rfl)
  | several | shared => exact hstays rfl (by simp) ((Exits.assignEach _ _).followed fun _ => .of_eq fun _ => rfl)

end

/-- Each way has an end of its own, which is left if it was before the construct or the way
    departs, and not otherwise. -/
def Ends (w : World) (around : Around) (before : Flow) (ways : List (Option Node)) (ends : List Flow) : Prop :=
  List.Forall₂ (fun way f => f.exited = true ↔ before.exited = true ∨ ∃ c ∈ way, w.Departs around c) ways ends

theorem Ends.forall_exited {ways : List (Option Node)} {ends : List Flow} (h : w.Ends around before ways ends) :
    (∀ f ∈ ends, f.exited = true) ↔ before.exited = true ∨ ∀ way ∈ ways, ∃ c ∈ way, w.Departs around c := by
  unfold Ends at h
  induction h with
  | nil => simp
  | cons h _ ih =>
    rw [List.forall_mem_cons, List.forall_mem_cons, ih, h]
    exact or_and_left.symm

/-- Where no way leads through, the flow is left behind the construct. -/
theorem Ends.exits (hk : n.kind = .conditional ∨ n.kind = .attempt) (numbers : List Nat) {p : Flow → Reason (List Flow)}
    (h : ∀ m, w.Ends (around.within n.number n.kind) m.flow n.ways (p m.flow m).1) :
    Exits (do
      let before ← Reason.flow
      let outcomes ← p before
      w.merge numbers before outcomes
      Reason.takeEmitted n.number) (w.Departs around n) := by
  intro m
  show (w.merge numbers m.flow (p m.flow m).1 (p m.flow m).2).2.flow.exited = true ↔ _
  have hall : (p m.flow m).1.filter (!·.exited) = [] ↔ m.flow.exited = true ∨ w.Departs around n := by
    rw [departs_iff_ways hk, List.filter_eq_nil_iff]
    rw [← (h m).forall_exited]
    simp
  rw [flow_merge, ← hall]
  split
  · rename_i hl
    simp [hl, Flow.exit]
  · rename_i hl
    simp [hl, mergeLive]

theorem departs_iff_of_isTransparent (hk : n.kind.isTransparent) :
    w.Departs around n ↔ ∃ c ∈ n.onPath, w.Departs (around.within n.number n.kind) c := by
  refine (departs_iff_onPath ⟨fun h => ?_, fun h => ?_⟩).trans (or_iff_left fun h => ?_)
  · simp [h, Node.Kind.isTransparent] at hk
  · simp [h, Node.Kind.isTransparent] at hk
  · rcases h with h | h
    · cases hn : n.kind <;> simp_all [Node.Kind.isTransparent, Node.Kind.jumps]
    · simp [h.kind, Node.Kind.isTransparent] at hk

theorem Starts.onPath {kind : Node.Kind} {heads tests : List Node} {start : Flow → Reason Flow} (h : Starts w kind heads tests start)
    (number : Nat) (span : Span) (body : Node) : (⟨number, kind, span, heads ++ (tests ++ [body])⟩ : Node).onPath = tests := by
  cases h with
  | forLoop => simp [Node.onPath]
  | _ => rfl

theorem exited_handlerFlow (handler : Node) : (w.handlerFlow before binding handler).exited = before.exited := by
  rw [handlerFlow_eq]
  cases w.caught? binding handler <;> rfl

/-- The flows that the parts of a try end in. -/
def attemptEnds (named : Option Node) (p : Reason Results) (ps : Flow → Reason (List Flow)) (before : Flow) :
    Reason (List Flow) := do
  named.forM fun v => Reason.record v.number (.ofType .condition)
  let outcome ← Reason.along before p
  let outcomes ← ps before
  return outcome :: outcomes

theorem ways_attempt {number : Nat} {span : Span} {body : Node} {handlers : List Node} {named : Option Node}
    (hv : named.map Node.kind = binding.map Node.Kind.attemptVariable) (hb : body.kind = .body) :
    (⟨number, .attempt, span, named.toList ++ body :: handlers⟩ : Node).ways =
      some body :: (handlers.filter (·.kind.isPath)).map some := by
  have hvariable : named.toList.filter (·.kind.isPath) = [] := by
    rw [List.filter_eq_nil_iff]
    intro v hm
    obtain ⟨name, hk⟩ := attemptVariable_of_mem hv (Option.mem_toList.mp hm)
    simp [hk, Node.Kind.isPath]
  rw [Node.ways, Node.paths, List.filter_append, hvariable, List.filter_cons_of_pos (hb ▸ rfl)]
  simp

mutual

/-- By induction on the rules. -/
theorem Reasons.exits {around : Around} {n : Node} {p : Reason Results} (h : Reasons w around n p) :
    Exits p (w.Departs around n) := by
  match h with
  | @Reasons.straight _ _ number kind span heads parts ps q hs hq =>
    refine .noted ((hs.exits.bind fun rs => hq.exits span rs).congr ?_) number
    rw [departs_iff_onPath ⟨hq.kind_ne rfl, hq.kind_ne rfl⟩, hq.onPath]
  | @Reasons.separate _ _ number modifier span vars p h =>
    have hvars := @departs_iff_of_isTransparent w around ⟨number, .declaration modifier false, span, vars⟩ rfl
    exact .noted (h.exits.congr hvars.symm) number
  | .conditional h =>
    exact .noted (Ends.exits (.inl rfl) _ fun m => by simpa [Node.ways, Node.paths] using (h m.flow).ends m) _
  | @Reasons.loop _ _ number kind span heads tests body ps start q hs ht hq =>
    have hloop := @departs_iff_of_isTransparent w around ⟨number, kind, span, heads ++ (tests ++ [body])⟩ (by cases ht <;> rfl)
    rw [ht.onPath] at hloop
    refine .noted ((hs.exits.followed fun _ => ?_).congr hloop.symm) number
    exact .of_eq fun m => congrArg Flow.exited (ht.flow_eq m.flow m)
  | @Reasons.attempt _ _ number span body handlers p binding bound ps hv hb h hs =>
    refine .noted (@Ends.exits w around ⟨number, .attempt, span, _⟩ (.inr rfl) _ (attemptEnds binding p ps) fun m => ?_) number
    rw [ways_attempt hv hb]
    exact .cons ((h.exits.along _ _).trans (by simp)) ((hs m.flow).ends _)
  | @Reasons.definition _ _ number kind span list body framed close p q hd hp hq =>
    have hflow := (@Reasons.definition w around number kind span list body _ _ _ _ hd hp hq).flow_of_isDefinition hd.isDefinition
    refine .never (.of_eq fun m => congrArg Flow.exited (hflow m)) ?_
    rw [departs_iff_of_isTransparent (by cases hd <;> rfl)]
    cases hd <;> simp [Node.onPath]

theorem ReasonsEach.exits {around : Around} {ns : List Node} {ps : Reason (List Results)} (h : ReasonsEach w around ns ps) :
    Exits ps (∃ c ∈ ns, w.Departs around c) := by
  match h with
  | .nil => exact (Exits.of_eq fun _ => rfl).never (by simp)
  | .cons h hs => exact (h.exits.bind fun _ => hs.exits.followed fun _ => .of_eq fun _ => rfl).congr (by simp)

theorem ReasonsVariables.exits {around : Around} {modifier : Modifier} {last : Results} {ns : List Node} {p : Reason Results}
    (h : ReasonsVariables w around modifier last ns p) : Exits p (∃ c ∈ ns, w.Departs around c) := by
  match h with
  | .nil => exact (Exits.of_eq fun _ => rfl).never (by simp)
  | .valued h hs =>
    refine (h.exits.bind fun r => (Exits.assign _ _ _).after fun _ => (hs r).exits).congr ?_
    simp [departs_iff_of_isTransparent, Node.Kind.isTransparent, Node.onPath, Node.Kind.jumps]
  | .bare hs =>
    refine ((Exits.undeclaredTypes _ _).after fun _ => (Exits.assign _ _ _).after fun _ => hs.exits).congr ?_
    simp [departs_iff_of_isTransparent, Node.Kind.isTransparent, Node.onPath, Node.Kind.jumps]

theorem ReasonsBranches.ends {around : Around} {before : Flow} {denied : List Restriction} {ns : List Node}
    {p : Reason (List Flow)} (h : ReasonsBranches w around before denied ns p) (m : Moment) :
    w.Ends around before ((ns.filter (·.kind.isPath)).map some ++ if ∀ c ∈ ns, c.kind ≠ .otherwise then [none] else [])
      (p m).1 := by
  match h with
  | .nil => exact .cons (by simp [exited_narrowed]) .nil
  | @ReasonsBranches.branch _ _ _ _ number span condition body ns p q rest hp hq hs =>
    have hends := (hs (w.restriction (Reason.along (w.narrowed m.memory.package before denied) p m).2.memory condition)).ends
    rw [List.filter_cons_of_pos rfl]
    simp only [List.map_cons, List.cons_append, List.forall_mem_cons, ne_eq, reduceCtorEq, not_false_eq_true, true_and]
    refine .cons ?_ (hends _)
    -- the body starts where its condition was left
    refine (hq.exits.along _ _).trans ?_
    rw [exited_narrowed, hp.exits _, exited_narrowed]
    simp [departs_iff_of_isTransparent, Node.Kind.isTransparent, Node.onPath, Node.Kind.jumps, or_assoc]
  | .otherwise h =>
    refine .cons ((h.exits.along _ _).trans ?_) .nil
    simp [exited_narrowed, departs_iff_of_isTransparent, Node.Kind.isTransparent, Node.onPath, Node.Kind.jumps]

theorem ReasonsHandlers.ends {around : Around} {before : Flow} {binding : Option String} {ns : List Node}
    {p : Reason (List Flow)} (h : ReasonsHandlers w around before binding ns p) (m : Moment) :
    w.Ends around before ((ns.filter (·.kind.isPath)).map some) (p m).1 := by
  match h with
  | .nil => exact .nil
  | .cons hk h hs =>
    rw [List.filter_cons_of_pos (by rw [hk]; rfl)]
    exact .cons ((h.exits.along _ _).trans (by simp [exited_handlerFlow])) (hs.ends _)

end

/-- The flows that the paths through a conditional or a try end in. In a conditional without
    `_else`, the last one is of the way around all branches. -/
def ends (w : World) (around : Around) (n : Node) (before : Flow) : Reason (List Flow) :=
  let inner := around.within n.number n.kind
  if n.kind = .attempt then w.reasonAttempt inner before none n.children
  else w.reasonBranches inner before [] n.children

/-- A try and its rules. -/
theorem ends_of_attempt (hf : n.Formed) (hk : n.kind = .attempt) (around : Around) :
    ∃ (named : Option Node) (bound : Option String) (body : Node) (handlers : List Node),
      let inner := around.within n.number n.kind
      n.children = named.toList ++ body :: handlers ∧ named.map Node.kind = bound.map Node.Kind.attemptVariable ∧
      body.kind = .body ∧ Reasons w inner body (w.reason inner body) ∧
      (∀ before, ReasonsHandlers w inner before bound handlers (w.reasonAttempt inner before bound handlers)) ∧
      w.ends around n = attemptEnds named (w.reason inner body) fun before => w.reasonAttempt inner before bound handlers := by
  have hlayout := hf.layout
  rw [hk] at hlayout
  obtain ⟨named, body, handlers, hc, hb, hv, hh⟩ := hlayout.of_attempt
  obtain ⟨bound, hbound⟩ := exists_bound hv
  refine ⟨named, bound, body, handlers, hc, hbound, hb, ?_, fun before => ?_, funext fun before => ?_⟩
  · exact ruled_of_formed (hf.child (by simp [hc])) (hb ▸ rfl) _
  · exact reasonsHandlers fun c hm => ⟨hh c hm, ruled_of_formed (hf.child (by simp [hc, hm]))⟩
  · rw [ends, if_pos hk, hc, reasonAttempt_bound hbound, reasonAttempt_body hb]
    rfl

theorem reasonsBranches_of_formed (hf : n.Formed) (hk : n.kind = .conditional) (around : Around) (before : Flow) :
    ReasonsBranches w around before [] n.children (w.reasonBranches around before [] n.children) := by
  obtain ⟨branches, last, hc, -, hb, hl⟩ := branches_of_conditional hf hk
  have hpart : ∀ b ∈ n.children, b.kind = .branch ∨ b.kind = .otherwise → ∀ c ∈ b.children, c.kind.isReasoned ∧ w.Ruled c :=
    fun b hm hk c hcb => ⟨isReasoned_part (hf.child hm) hk hcb, ruled_of_formed ((hf.child hm).child hcb)⟩
  rw [hc] at hpart ⊢
  refine reasonsBranches (fun b hm => ?_) fun e hm => ?_
  · obtain ⟨hkb, condition, body, hbc⟩ := hb b hm
    have hpart := hpart b (by simp [hm]) (.inl hkb)
    obtain ⟨hcondition, hruled⟩ := hpart condition (by simp [hbc])
    obtain ⟨hbody, hruled'⟩ := hpart body (by simp [hbc])
    exact ⟨hkb, condition, body, hbc, hcondition, hbody, hruled, hruled'⟩
  · obtain ⟨hke, body, hec⟩ := hl e hm
    exact ⟨hke, body, hec, hpart e (by simp [Option.mem_toList.mpr hm]) (.inr hke) body (by simp [hec])⟩

section Joining

variable {m : Moment} {x : Nat} {package : String} {before : Flow} {live : List Flow}

theorem ends_ends (hf : n.Formed) (hk : n.kind = .conditional ∨ n.kind = .attempt) :
    w.Ends (around.within n.number n.kind) before n.ways (w.ends around n before m).1 := by
  rcases hk with hk | hk
  · simpa [ends, Node.ways, Node.paths, hk] using (reasonsBranches_of_formed hf hk (around.within n.number n.kind) before).ends m
  · obtain ⟨named, bound, body, handlers, hc, hv, hb, h, hs, he⟩ := @ends_of_attempt w n hf hk around
    obtain ⟨number, kind, span, children⟩ := n
    dsimp only at hk hc h hs he
    subst hk hc
    rw [ways_attempt hv hb, he]
    exact .cons ((h.exits.along _ _).trans (by simp)) ((hs before).ends _)

theorem records_ends {I : Invariant w} {κ : I.Known} (hf : n.Formed) (hk : n.kind = .conditional ∨ n.kind = .attempt)
    (hn : n.Framed I.types around.frame) (hi : I.node n) (hb : I.Along κ before) :
    Records I κ (∀ f ∈ ·, I.Along κ f) (w.ends around n before) := by
  have hframed : ∀ c ∈ n.children, c.Framed I.types around.frame := fun c hc => hn.child (by rcases hk with hk | hk <;> simp [hk]) hc
  have hnodes : ∀ c ∈ n.children, I.node c := fun c hc => I.child hi hc
  rcases hk with hk | hk
  · rw [ends, if_neg (by simp [hk])]
    exact (reasonsBranches_of_formed hf hk _ _).records hb (by simp) hframed hnodes
  · obtain ⟨named, bound, body, handlers, hc, -, -, h, hs, he⟩ := @ends_of_attempt w n hf hk around
    rw [hc] at hframed hnodes
    rw [he]
    refine (Records.optionForM fun _ _ => .record (Results.all_single (I.closed.named _ _))).andThen fun _ => ?_
    refine (Records.along hb (h.records (hframed body (by simp)) (hnodes body (by simp)) κ)).bind fun outcome ho => ?_
    refine ((hs before).records hb (fun c hc => hframed c (by simp [hc])) fun c hc => hnodes c (by simp [hc])).bind
      fun outcomes hos => .pure (List.forall_mem_cons.mpr ⟨ho, hos⟩)

/-- What is believed behind the paths is what joining their ends comes to. -/
theorem flow_of_ends (hk : n.kind = .conditional ∨ n.kind = .attempt) (m : Moment) :
    let ends := w.ends around n m.flow m
    (w.reason around n m).2.flow = (w.merge n.numbers m.flow ends.1 ends.2).2.flow := by
  obtain ⟨number, kind, span, children⟩ := n
  dsimp only at hk
  rw [Node.numbers_eq, ← Node.map_number_drain]
  rcases hk with rfl | rfl <;> rw [reason] <;> rfl

theorem isUnion_of_forall_eq {s : TypeSet} {parts : List TypeSet} (hs : s.WellFormed) (hne : parts ≠ [])
    (h : ∀ a ∈ parts, a = s) : s.IsUnion parts := by
  obtain ⟨a, ha⟩ := List.exists_mem_of_ne_nil _ hne
  constructor
  · rintro ⟨b, hb, hu⟩
    exact hs.eq_undefined (h b hb ▸ hu)
  · exact fun _ t => ⟨fun ht => ⟨a, ha, h a ha ▸ ht⟩, fun ⟨b, hb, ht⟩ => h b hb ▸ ht⟩

/-- Of an entry of which an end believes something, the union of what is believed at the ends
    is believed, in the order from before; stored inside, all ends have to believe something. -/
theorem find?_mergeLive_of_mem (inside : List Nat) (before : Flow) {f : Flow} (hf : f ∈ live)
    (hb : f.believed.find? x ≠ none) (hl : ∀ f ∈ live, (w.entryTypes package f x).WellFormed)
    (hx : ∀ f ∈ live, f.believed.find? x = none → w.isStoredWithin inside x = false) :
    ∃ s : TypeSet, s.WellFormed ∧ s.IsUnion (live.map (w.entryTypes package · x)) ∧
      (w.mergeLive package inside before live).believed.find? x = some (inOrderOf (before.believed.find? x) s) := by
  have htypes : ∀ s ∈ live.map (w.entryTypes package · x), s.WellFormed := List.forall_mem_map.mpr hl
  have hk : x ∈ (live.flatMap fun f => f.believed.keys).eraseDups := by
    rw [Ne, Table.find?_eq_none_iff, not_not] at hb
    simpa using ⟨f, hf, hb⟩
  rw [find?_believed_mergeLive, if_pos hk]
  cases live with
  | nil => cases hf
  | cons first rest =>
    have hunions := TypeSet.closed_wellFormed.unions (hl first (by simp))
      fun s (hs : s ∈ rest.map (w.entryTypes package · x)) => htypes s (.tail _ hs)
    exact ⟨_, hunions, TypeSet.isUnion_unions htypes, by rw [mergedTypes?_outside hx, Option.map_some]⟩

/-- Of an entry stored outside, what is believed behind the paths is the union of what is
    believed at the ends that are joined. -/
theorem isUnion_mergeLive {inside : List Nat} (hne : live ≠ []) (hl : ∀ f ∈ live, (w.entryTypes package f x).WellFormed)
    (hx : w.isStoredWithin inside x = false) :
    (w.entryTypes package (w.mergeLive package inside before live) x).IsUnion (live.map (w.entryTypes package · x)) := by
  by_cases hb : ∃ f ∈ live, f.believed.find? x ≠ none
  · obtain ⟨f, hf, hb⟩ := hb
    obtain ⟨s, hs, hunion, hfind⟩ := find?_mergeLive_of_mem inside before hf hb hl fun _ _ _ => hx
    rw [entryTypes, hfind]
    exact hunion.congr (TypeSet.wellFormed_inOrderOf _ hs) fun t => TypeSet.mem_inOrderOf _ hs
  · -- no path says anything of the entry
    have hnone : ∀ f ∈ live, f.believed.find? x = none := fun f hf => not_not.mp fun h => hb ⟨f, hf, h⟩
    have hfind := find?_believed_mergeLive (w := w) package inside before live x
    rw [if_neg (by simpa [← Table.find?_eq_none_iff] using hnone)] at hfind
    have hsame : ∀ f ∈ live, w.entryTypes package f x = w.entryTypes package (w.mergeLive package inside before live) x :=
      fun f hf => by rw [entryTypes_of_none hfind, entryTypes_of_none (hnone f hf)]
    obtain ⟨f, hf⟩ := List.exists_mem_of_ne_nil _ hne
    exact isUnion_of_forall_eq (hsame f hf ▸ hl f hf) (by simpa using hne) (List.forall_mem_map.mpr hsame)

end Joining

/-! ## Paths through a file -/

/-- A path that departs does not count behind a conditional or a try. A path is left at the end
    of a node if it was left before or departs in it, and not otherwise. -/
theorem departed_paths_are_excluded (tokens : List Token) {definitions : Definitions} (hd : definitions.Obtainable)
    {around : Around} (hi : around.frame.imports.All TypeSet.WellFormed) (hr : around.frame.receiverTypes.WellFormed)
    {m : Moment} (hm : m.All TypeSet.WellFormed) {n : Node} :
    let tree := (Grammar.parse tokens).1
    let w : World := ⟨ScopeTree.build tree, definitions⟩
    let after := (w.reason around n m).2
    n ∈ tree.nodes →
      (n.kind.isReasoned → (after.flow.exited = true ↔ m.flow.exited = true ∨ w.Departs around n)) ∧
      (n.kind = .conditional ∨ n.kind = .attempt →
        let ends := (w.ends around n m.flow m).1
        let live := ends.filter (!·.exited)
        w.Ends (around.within n.number n.kind) m.flow n.ways ends ∧
        (live = [] → after.flow = m.flow.exit) ∧
        (live ≠ [] → after.flow.exited = false ∧ ∀ x, w.isStoredWithin n.numbers x = false →
          (w.typesAt after x).IsUnion (live.map (w.entryTypes m.memory.package · x)))) := by
  intro tree w after hn
  have h : tree.FormedFile := Grammar.parse_formedFile tokens
  obtain ⟨as, hway⟩ := SyntaxTree.mem_nodes_iff.mp hn
  have hf : n.Formed := hway.formed h.formed
  refine ⟨fun hk => (ruled_of_formed hf hk around).exits m, fun hk => ?_⟩
  intro ends live
  have hinner : n.Inner := ⟨hf, by rcases hk with hk | hk <;> simp [hk], by rcases hk with hk | hk <;> simp [hk]⟩
  have hreasoned : n.kind.isReasoned := by rcases hk with hk | hk <;> rw [hk] <;> rfl
  have hflow : after.flow = if live = [] then m.flow.exit else w.mergeLive _ n.numbers m.flow live :=
    (flow_of_ends hk m).trans (flow_merge ..)
  refine ⟨ends_ends hf hk, fun hl => by rw [hflow, if_pos hl], fun hl => ?_⟩
  rw [if_neg hl] at hflow
  refine ⟨by rw [hflow]; rfl, fun x hx => ?_⟩
  have hw := supplies_wellFormed (w := w) hd
  have hends : ∀ f ∈ live, f.believed.All TypeSet.WellFormed := by
    intro f hm'
    have hrecords := records_ends (I := ofKind w TypeSet.closed_wellFormed hw) (κ := ()) hf hk ⟨n.suits_wellFormed, hi, Or.inl hr⟩
      trivial ⟨hm.flow, trivial⟩
    exact ((hrecords m ⟨⟨hm.flow, trivial⟩, hm.memory, trivial⟩).1 f (List.mem_of_mem_filter hm')).all
  have hkept : (w.ends around n m.flow m).2.memory.package = m.memory.package :=
    keeps_of_records (fun name => records_ends (I := inForce w name) (κ := ()) hf hk (n.framed_true _) hinner
      ⟨fun _ _ => trivial, trivial⟩) m
  have hafter : after.memory.package = m.memory.package := (ruled_of_formed hf hreasoned around).keeps hinner m
  rw [typesAt, hafter, hflow, hkept]
  exact isUnion_mergeLive hl (fun f hf => all_entryTypes TypeSet.closed_wellFormed hw (hends f hf) x) hx

/-! In a branch an integer is assigned, and a conditional in it returns on both of its paths; in the other
    branch a symbol is assigned. -/

def leavingTokens : List Token :=
  [.word .kwIf 1 1, .name "a" 1 5, .word .kwThen 1 7,
    .name "x" 2 5, ⟨.chevron, "<<", 2, 7⟩, ⟨.integer 5, "5", 2, 10⟩,
    .word .kwIf 3 5, .name "a" 3 9, .word .kwThen 3 11,
    .word .kwReturn 3 17, .word .kwElse 4 5, .word .kwReturn 4 11,
    .word .kwEndIf 4 19,
    .word .kwElse 5 1, .name "x" 6 5, ⟨.chevron, "<<", 6, 7⟩, ⟨.symbol "a", ":a", 6, 10⟩,
    .word .kwEndIf 7 1, ⟨.endOfFile, "", 8, 1⟩]

/-- The first item of a file. -/
def firstItem (tokens : List Token) : Node :=
  let root := (Grammar.parse tokens).1.root
  root.children.headD root

/-- The variable is a symbol behind the conditional, for the branch in which it is an integer is left. -/
theorem left_branch_is_excluded :
    let n := firstItem leavingTokens
    let w : World := ⟨.build (Grammar.parse leavingTokens).1, .empty⟩
    let m : Moment := ⟨.start, .start "user"⟩
    n ∈ (Grammar.parse leavingTokens).1.nodes ∧ n.kind = .conditional ∧
      (w.ends .file n m.flow m).1.map (·.exited) = [true, false] ∧ (w.reason .file n m).2.flow.exited = false ∧
      (w.typesAt (w.reason .file n m).2 1).IsUnion [.single .symbol] := by
  intro n w m
  have hn : n ∈ (Grammar.parse leavingTokens).1.nodes := by decide +kernel
  have hk : n.kind = .conditional := by decide +kernel
  have hends : (w.ends .file n m.flow m).1.map (·.exited) = [true, false] := by decide +kernel
  have hlive : ((w.ends .file n m.flow m).1.filter (!·.exited)).map (w.entryTypes m.memory.package · 1) = [.single .symbol] := by
    decide +kernel
  have houtside : w.isStoredWithin n.numbers 1 = false := by decide +kernel
  obtain ⟨-, hpaths⟩ := departed_paths_are_excluded leavingTokens Definitions.obtainable_empty
    (show Around.file.frame.imports.All TypeSet.WellFormed from Table.all_empty) (TypeSet.wellFormed_ofList [.receiver])
    (m := m) ⟨Table.all_empty, Memory.all_start _⟩ hn
  obtain ⟨-, -, hjoined⟩ := hpaths (.inl hk)
  obtain ⟨hexited, hunion⟩ := hjoined fun hnil => by
    rw [hnil] at hlive
    cases hlive
  exact ⟨hn, hk, hends, hexited, hlive ▸ hunion 1 houtside⟩

/-- No statement of the first branch is a jump, an error or a block, and the variable is an integer at
    its end; yet only the symbol is left. -/
theorem branch_left_by_nested_paths :
    let n := firstItem leavingTokens
    let w : World := ⟨.build (Grammar.parse leavingTokens).1, .empty⟩
    let m : Moment := ⟨.start, .start "user"⟩
    n.paths.map (fun b => (b.children.getLastD b).children.map Node.kind) = [[.assignment, .conditional], [.assignment]] ∧
      (w.ends .file n m.flow m).1.map (w.entryTypes m.memory.package · 1) = [.single .integer, .single .symbol] ∧
      w.typesAt (w.reason .file n m).2 1 = .single .symbol := by
  decide +kernel

end World

end Magik
