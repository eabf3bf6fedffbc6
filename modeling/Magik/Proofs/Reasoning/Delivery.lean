/-
  Magik.Proofs.Reasoning.Delivery — every value reaches its owner, once.

  The values of `_return`, `>>`, `_leave` and `_loopbody` wait in tables until the node they
  were sent to takes them. `completed` lists the nodes of a tree in the order in which they
  are done with, each with what is around it; so what is sent to a node is known from the
  tree alone (`Findings.sent`).

  `Settles` says what going through some nodes does to the tables: what the nodes send to
  nodes outside is added there in that order, what was sent to one of them has been taken,
  and each of them gives back what was sent to it. Neighbours settle together
  (`Settles.append`) and a node settles after its parts (`Settles.close`), and so every
  passage settles (`Passes.settles`).
-/

import Magik.Proofs.Grammar.WellFormed
import Magik.Proofs.Reasoning.Passing
import Magik.Token.Lexer

namespace Magik

open Node (Way numbersAll)

variable {kind : Node.Kind} {around : List Node}

namespace Node.Kind

variable {kind : Kind}

theorem idle_of_isOrdinary (h : kind.isOrdinary) : Around.givesBack kind = false ∧ kind.delivers = false := by
  cases kind <;> first | exact ⟨rfl, rfl⟩ | cases h

theorem idle_of_isSilent (h : kind.isSilent) : Around.givesBack kind = false ∧ kind.delivers = false := by
  cases kind <;> first | exact ⟨rfl, rfl⟩ | cases h

theorem givesBack_of_delivers (h : kind.delivers) : Around.givesBack kind = false := by
  cases kind <;> first | rfl | cases h

theorem isDefinition_of_isConstruct (h : kind.isConstruct) : kind.isDefinition = false := by
  simp only [isConstruct, Bool.and_eq_true, Bool.not_eq_true'] at h
  exact h.2

theorem delivers_of_isConstruct (h : kind.isConstruct) : kind.delivers = false := by
  cases kind <;> first | rfl | cases h

end Node.Kind

/-! ## Combinations -/

namespace Results

/-- What values combine to, in order; none if there are none. -/
def combineAll : List Results → Option Results
  | [] => none
  | r :: rs => some (rs.foldl combine r)

/-- One more value where some may wait. -/
def gather (waiting : Option Results) (r : Results) : Option Results := some ((waiting.map (·.combine r)).getD r)

theorem foldl_gather_none (rs : List Results) : rs.foldl gather none = combineAll rs := by
  cases rs with
  | nil => rfl
  | cons r rs =>
    show rs.foldl gather (some r) = some (rs.foldl combine r)
    induction rs generalizing r with
    | nil => rfl
    | cons s rs ih => exact ih (r.combine s)

end Results

/-! ## The order of completion -/

namespace Node

mutual

/-- A node and all below it, each with what is around it. A node comes after all below it. -/
def completed (around : List Node) : Node → List (Node × List Node)
  | ⟨number, kind, span, children⟩ =>
    completedAll (⟨number, kind, span, children⟩ :: around) children ++ [(⟨number, kind, span, children⟩, around)]

def completedAll (around : List Node) : List Node → List (Node × List Node)
  | [] => []
  | n :: ns => completed around n ++ completedAll around ns

end

theorem completed_eq (around : List Node) (n : Node) :
    completed around n = completedAll (n :: around) n.children ++ [(n, around)] := by
  obtain ⟨number, kind, span, children⟩ := n
  rw [completed]

theorem completedAll_eq_flatMap (around ns : List Node) : completedAll around ns = ns.flatMap (completed around) := by
  induction ns with
  | nil => rw [completedAll]; rfl
  | cons n ns ih => rw [completedAll, ih, List.flatMap_cons]

theorem completedAll_append (around a b : List Node) :
    completedAll around (a ++ b) = completedAll around a ++ completedAll around b := by
  simp [completedAll_eq_flatMap]

theorem completedAll_singleton (around : List Node) (n : Node) : completedAll around [n] = completed around n := by
  simp [completedAll_eq_flatMap]

/-- What is listed is what has a way up. -/
theorem mem_completed_iff {as : List Node} {n m : Node} :
    (m, as) ∈ completed around n ↔ ∃ bs, Way n m bs ∧ as = bs ++ around := by
  induction n using Node.induction_children generalizing around with
  | node n ih =>
    rw [completed_eq, List.mem_append, completedAll_eq_flatMap, List.mem_flatMap, List.mem_singleton]
    constructor
    · rintro (⟨c, hc, hm⟩ | he)
      · obtain ⟨bs, hw, rfl⟩ := (ih c hc).mp hm
        exact ⟨_, hw.under hc, by simp⟩
      · cases he
        exact ⟨[], .root, rfl⟩
    · rintro ⟨bs, hw, rfl⟩
      rcases hw.cases_root with ⟨rfl, rfl⟩ | ⟨c, hc, cs, hw', rfl⟩
      · exact .inr rfl
      · exact .inl ⟨c, hc, (ih c hc).mpr ⟨cs, hw', by simp⟩⟩

theorem map_fst_completedAll_perm (around ns : List Node)
    (h : ∀ n ∈ ns, ∀ around, ((completed around n).map Prod.fst).Perm n.withDescendants) :
    ((completedAll around ns).map Prod.fst).Perm (drain ns) := by
  induction ns with
  | nil => simp [completedAll, drain]
  | cons n ns ih =>
    rw [completedAll, List.map_append, ← List.singleton_append, drain_append, drain_singleton]
    exact (h n (by simp) around).append (ih fun m hm => h m (.tail _ hm))

/-- Each node is listed once. -/
theorem map_fst_completed_perm (around : List Node) (n : Node) :
    ((completed around n).map Prod.fst).Perm n.withDescendants := by
  induction n using Node.induction_children generalizing around with
  | node n ih =>
    rw [completed_eq, List.map_append, withDescendants]
    refine (List.perm_append_comm).trans ?_
    exact (map_fst_completedAll_perm _ _ fun c hc around => ih c hc around).cons n

end Node

def SyntaxTree.completed (t : SyntaxTree) : List (Node × List Node) := t.root.completed []

/-! ## What is sent -/

namespace Channel

/-- Nodes that take what is sent to them this way. -/
def fits : Channel → Node.Kind → Bool
  | .emitted, kind => kind.isConstruct
  | .returned, kind | .looped, kind => kind.isDefinition

end Channel

theorem fits_idle (c : Channel) (h : Around.givesBack kind = false) : c.fits kind = false := by
  cases c <;> cases kind <;> first | rfl | cases h

theorem fits_construct (c : Channel) (h : kind.isConstruct) : c.fits kind ↔ .emitted = c := by
  cases c <;> simp [Channel.fits, h, Node.Kind.isDefinition_of_isConstruct h]

theorem fits_definition (c : Channel) (h : kind.isDefinition) : c.fits kind ↔ c ≠ .emitted := by
  cases c <;> simp [Channel.fits, h, Node.Kind.isConstruct]

/-- What was sent to a node, in the order of completion. -/
def Findings.sent (f : Findings) (done : List (Node × List Node)) (c : Channel) (owner : Nat) : List Results :=
  (done.filter fun p => Node.destination? p.2 p.1.kind = some (c, owner)).map fun p => p.1.valuesIn f

theorem isConstruct_of_loopLabel? (h : (Around.loopLabel? kind).isSome) : kind.isConstruct := by
  cases kind <;> first | rfl | cases h

/-- Only statements send values. -/
theorem Node.destination?_eq_none {kind : Kind} (h : kind.delivers = false) : destination? around kind = none := by
  cases kind <;> first | rfl | cases h

/-- Values are sent to a node around that takes them. -/
theorem Node.exists_of_destination? {kind : Kind} {c : Channel} {owner : Nat}
    (h : destination? around kind = some (c, owner)) : ∃ p ∈ around, p.number = owner ∧ c.fits p.kind := by
  cases kind with
  | returned | loopBody =>
    obtain ⟨p, hp, he⟩ := Option.map_eq_some_iff.mp h
    have hdefinition := List.find?_some hp
    cases he
    exact ⟨p, List.mem_of_find?_eq_some hp, rfl, hdefinition⟩
  | emitted =>
    obtain ⟨p, hp, he⟩ := Option.map_eq_some_iff.mp h
    have hgives := List.find?_some hp
    cases he
    refine ⟨p, List.mem_of_find?_eq_some hp, rfl, ?_⟩
    split
    next hd => exact hd
    next hd => simp [Channel.fits, Kind.isConstruct, hgives, hd]
  | leave label =>
    obtain ⟨p, hp, he⟩ := Option.map_eq_some_iff.mp h
    cases he
    refine ⟨p, (List.takeWhile_subset _) (List.mem_of_find?_eq_some hp), rfl, ?_⟩
    have hloop := List.find?_some hp
    refine isConstruct_of_loopLabel? ?_
    cases hl : Around.loopLabel? p.kind with
    | none => simp [hl] at hloop
    | some own => rfl
  | _ => cases h

namespace Findings

variable (f : Findings) (c : Channel) {around : List Node} {owner : Nat} {ns : List Node}

theorem sent_append (a b : List (Node × List Node)) (owner : Nat) :
    f.sent (a ++ b) c owner = f.sent a c owner ++ f.sent b c owner := by
  simp [sent]

/-- Nothing is sent to a number that no node around has, or none that would take it. -/
theorem sent_eq_nil {done : List (Node × List Node)} (h : ∀ q ∈ done, ∀ p ∈ q.2, c.fits p.kind → p.number ≠ owner) :
    f.sent done c owner = [] := by
  rw [sent, List.map_eq_nil_iff, List.filter_eq_nil_iff]
  intro q hq hd
  obtain ⟨p, hp, he, hfits⟩ := Node.exists_of_destination? (of_decide_eq_true hd)
  exact h q hq p hp hfits he

theorem sent_silent {n : Node} (h : n.kind.delivers = false) : f.sent [(n, around)] c owner = [] := by
  simp [sent, Node.destination?_eq_none h]

theorem sent_singleton (around : List Node) (n : Node) (owner : Nat) : f.sent [(n, around)] c owner =
    if Node.destination? around n.kind = some (c, owner) then [n.valuesIn f] else [] := by
  by_cases h : Node.destination? around n.kind = some (c, owner) <;> simp [sent, h]

/-- The nodes around what is listed. -/
theorem number_around {q : Node × List Node} (hq : q ∈ Node.completedAll around ns) {p : Node} (hp : p ∈ q.2) :
    p ∈ around ∨ p.number ∈ numbersAll ns := by
  obtain ⟨m, as⟩ := q
  rw [Node.completedAll_eq_flatMap, List.mem_flatMap] at hq
  obtain ⟨n, hn, hm⟩ := hq
  obtain ⟨bs, hw, rfl⟩ := Node.mem_completed_iff.mp hm
  rcases List.mem_append.mp hp with hp | hp
  · obtain ⟨cs, hw'⟩ := hw.of_mem hp
    exact .inr (Node.numbers_subset hn _ hw'.number_mem)
  · exact .inl hp

/-- Nodes send nothing to strangers. -/
theorem sent_stranger (ha : ∀ p ∈ around, p.number ≠ owner) (hn : owner ∉ numbersAll ns) :
    f.sent (Node.completedAll around ns) c owner = [] := by
  refine f.sent_eq_nil c fun q hq p hp _ he => ?_
  rcases number_around hq hp with hp | hp
  · exact ha p hp he
  · exact hn (he ▸ hp)

end Findings

namespace Memory

variable (k : Memory)

theorem find?_waiting_deliver (r : Results) (d : Option (Channel × Nat)) (c : Channel) (j : Nat) :
    ((d.elim k (k.send r)).waiting c).find? j =
      (if d = some (c, j) then [r] else []).foldl Results.gather ((k.waiting c).find? j) := by
  cases d with
  | none => rfl
  | some d =>
    obtain ⟨c', owner⟩ := d
    show ((k.send r (c', owner)).waiting c).find? j = _
    simp only [find?_waiting_send, Option.some.injEq, Prod.mk.injEq]
    split
    next h => obtain ⟨rfl, rfl⟩ := h; rfl
    next => rfl

theorem find?_waiting_finish (number : Nat) (c : Channel) (j : Nat) :
    ((k.finish number).waiting c).find? j = if c ≠ .emitted ∧ number = j then none else (k.waiting c).find? j := by
  have hnoted : ∀ (k : Memory) (o : Option Results), (o.elim k (k.noteLoop number)).waiting = k.waiting := by
    intro k o
    cases o <;> rfl
  unfold finish
  rw [find?_waiting_take, hnoted, find?_waiting_take]
  cases c <;> simp

theorem loopResults_finish (number : Nat) (h : k.findings.loopResults.find? number = none) :
    (k.finish number).findings.loopResults.find? number = (k.waiting .looped).find? number := by
  unfold finish
  show _ = k.looped.find? number
  cases k.looped.find? number with
  | none => simpa using h
  | some r => simp [noteLoop]

end Memory

/-! ## Settling -/

/-- A node gives back what was sent to it: as what it gives back itself, as what its procedure gives
    back, or as what each round of its loop gets. -/
structure Answered (f : Findings) (n : Node) (sent : Channel → Nat → List Results) : Prop where
  method {header : MethodHeader} : n.kind = .method header →
    f.results.find? n.number = some ((Results.combineAll (sent .returned n.number)).getD .nothing)
  procedure {name : Option String} {iterates : Bool} {doc : List String} : n.kind = .procedure name iterates doc →
    f.procedureResults.find? n.number = some ((Results.combineAll (sent .returned n.number)).getD .nothing)
  construct : n.kind.isConstruct →
    f.results.find? n.number = some ((Results.combineAll (sent .emitted n.number)).getD .nothing)
  rounds : n.kind.isDefinition → f.loopResults.find? n.number = Results.combineAll (sent .looped n.number)

/-- What going through nodes does to what waits, when `f` is what is found in the end. -/
structure Settles (around ns : List Node) (f : Findings) (k k' : Memory) : Prop where
  outside {c : Channel} {j : Nat} : j ∉ numbersAll ns →
    (k'.waiting c).find? j = (f.sent (Node.completedAll around ns) c j).foldl Results.gather ((k.waiting c).find? j)
  inside {c : Channel} {j : Nat} : j ∈ numbersAll ns → (k'.waiting c).find? j = none
  answered {m : Node} {as : List Node} : (m, as) ∈ Node.completedAll around ns →
    Answered f m (f.sent (Node.completedAll around ns))

section

variable {f : Findings} {n : Node} {sent : Channel → Nat → List Results}

theorem Answered.congr {sent' : Channel → Nat → List Results} (h : Answered f n sent)
    (he : ∀ c, sent' c n.number = sent c n.number) : Answered f n sent' := by
  obtain ⟨hmethod, hprocedure, hconstruct, hrounds⟩ := h
  constructor <;> simpa only [he]

/-- Nodes that nothing is sent to have nothing to give back. -/
theorem Answered.idle (h : Around.givesBack n.kind = false) : Answered f n sent := by
  refine ⟨fun hk => ?_, fun hk => ?_, fun hk => ?_, fun hk => ?_⟩
  · rw [hk] at h
    cases h
  · rw [hk] at h
    cases h
  · cases (fits_idle .emitted h).symm.trans hk
  · cases (fits_idle .looped h).symm.trans hk

theorem Answered.ofConstruct (hk : n.kind.isConstruct)
    (h : f.results.find? n.number = some ((Results.combineAll (sent .emitted n.number)).getD .nothing)) :
    Answered f n sent := by
  have hd := Node.Kind.isDefinition_of_isConstruct hk
  refine ⟨fun hk' => ?_, fun hk' => ?_, fun _ => h, fun hk' => ?_⟩
  · rw [hk'] at hd
    cases hd
  · rw [hk'] at hd
    cases hd
  · cases hd.symm.trans hk'

theorem Answered.ofMethod {header : MethodHeader} (hk : n.kind = .method header)
    (h : f.results.find? n.number = some ((Results.combineAll (sent .returned n.number)).getD .nothing))
    (hr : f.loopResults.find? n.number = Results.combineAll (sent .looped n.number)) : Answered f n sent :=
  ⟨fun _ => h, by rw [hk]; nofun, by rw [hk]; nofun, fun _ => hr⟩

theorem Answered.ofProcedure {name : Option String} {iterates : Bool} {doc : List String}
    (hk : n.kind = .procedure name iterates doc)
    (h : f.procedureResults.find? n.number = some ((Results.combineAll (sent .returned n.number)).getD .nothing))
    (hr : f.loopResults.find? n.number = Results.combineAll (sent .looped n.number)) : Answered f n sent :=
  ⟨by rw [hk]; nofun, fun _ => h, by rw [hk]; nofun, fun _ => hr⟩

end

theorem number_mem_of_completedAll {ns as : List Node} {m : Node} (h : (m, as) ∈ Node.completedAll around ns) :
    m.number ∈ numbersAll ns := by
  rw [Node.completedAll_eq_flatMap, List.mem_flatMap] at h
  obtain ⟨n, hn, hm⟩ := h
  obtain ⟨bs, hw, -⟩ := Node.mem_completed_iff.mp hm
  exact Node.numbers_subset hn _ hw.number_mem

/-- Nodes that are to be gone through: nothing waits for them, and their numbers are their own. -/
structure Awaits (around ns : List Node) (k : Memory) : Prop where
  nodup : (numbersAll ns).Nodup
  outside : ∀ p ∈ around, p.number ∉ numbersAll ns
  idle : ∀ c, ∀ j ∈ numbersAll ns, (k.waiting c).find? j = none

namespace Awaits

variable {a b : List Node} {n : Node} {k k' : Memory}

theorem of_waiting_eq (h : Awaits around a k) (he : k'.waiting = k.waiting) : Awaits around a k' :=
  ⟨h.nodup, h.outside, fun c j hj => by rw [he, h.idle c j hj]⟩

theorem of_sublist (h : Awaits around b k) (hs : (numbersAll a).Sublist (numbersAll b)) : Awaits around a k :=
  ⟨h.nodup.sublist hs, fun p hp hin => h.outside p hp (hs.subset hin), fun c j hj => h.idle c j (hs.subset hj)⟩

theorem left (h : Awaits around (a ++ b) k) : Awaits around a k :=
  h.of_sublist (by simp [Node.numbersAll_append])

theorem right (h : Awaits around (a ++ b) k) : Awaits around b k :=
  h.of_sublist (by simp [Node.numbersAll_append])

theorem disjoint (h : Awaits around (a ++ b) k) : ∀ j ∈ numbersAll a, j ∉ numbersAll b := by
  have hn := h.nodup
  rw [Node.numbersAll_append] at hn
  exact fun j hj hj' => (List.nodup_append.mp hn).2.2 j hj j hj' rfl

theorem inside (h : Awaits around [n] k) : Awaits (n :: around) n.children k := by
  have hinner : Awaits around n.children k := h.of_sublist (by simp [Node.numbers_eq])
  have hn : (n.number :: numbersAll n.children).Nodup := by simpa [Node.numbers_eq] using h.nodup
  exact ⟨hinner.nodup, List.forall_mem_cons.mpr ⟨(List.nodup_cons.mp hn).1, hinner.outside⟩, hinner.idle⟩

theorem number_not_mem (h : Awaits around [n] k) : n.number ∉ numbersAll n.children := h.inside.outside n (by simp)

theorem idle_number (h : Awaits around [n] k) (c : Channel) : (k.waiting c).find? n.number = none :=
  h.idle c _ (by simp [n.number_mem_numbers])

end Awaits

namespace Settles

variable {around a b : List Node} {n : Node} {f : Findings} {k k₁ k₂ k' : Memory}

theorem nil : Settles around [] f k k :=
  ⟨fun _ => by simp [Node.completedAll, Findings.sent], fun h => by simp at h, fun h => by simp [Node.completedAll] at h⟩

theorem of_waiting_eq (h : Settles around a f k₁ k') (he : k₁.waiting = k.waiting) : Settles around a f k k' :=
  ⟨fun hj => by rw [h.outside hj, he], h.inside, h.answered⟩

/-- What waits for nobody here is not added to. -/
theorem still {c : Channel} {j : Nat} (h : Settles around a f k k₁) (hk : (k.waiting c).find? j = none)
    (hj : j ∉ numbersAll a) (ho : ∀ p ∈ around, p.number ≠ j) : (k₁.waiting c).find? j = none := by
  rw [h.outside hj, f.sent_stranger c ho hj, hk]
  rfl

/-- Neighbours. -/
theorem append (ha : Settles around a f k k₁) (hb : Settles around b f k₁ k₂) (h : Awaits around (a ++ b) k) :
    Settles around (a ++ b) f k k₂ := by
  have hd := h.disjoint
  have hnotb : ∀ c, ∀ j ∈ numbersAll a, f.sent (Node.completedAll around b) c j = [] := fun c j hj =>
    f.sent_stranger c (fun p hp he => h.left.outside p hp (he ▸ hj)) (hd j hj)
  have hnota : ∀ c, ∀ j ∈ numbersAll b, f.sent (Node.completedAll around a) c j = [] := fun c j hj =>
    f.sent_stranger c (fun p hp he => h.right.outside p hp (he ▸ hj)) fun hj' => hd j hj' hj
  constructor
  · intro c j hj
    rw [Node.numbersAll_append, List.mem_append, not_or] at hj
    rw [hb.outside hj.2, ha.outside hj.1, Node.completedAll_append, f.sent_append, List.foldl_append]
  · intro c j hj
    rw [Node.numbersAll_append, List.mem_append] at hj
    rcases hj with hj | hj
    · rw [hb.outside (hd j hj), ha.inside hj, hnotb c j hj]
      rfl
    · exact hb.inside hj
  · intro m as hm
    rw [Node.completedAll_append, List.mem_append] at hm
    rcases hm with hm | hm
    · refine (ha.answered hm).congr fun c => ?_
      rw [Node.completedAll_append, f.sent_append, hnotb c _ (number_mem_of_completedAll hm), List.append_nil]
    · refine (hb.answered hm).congr fun c => ?_
      rw [Node.completedAll_append, f.sent_append, hnota c _ (number_mem_of_completedAll hm), List.nil_append]

section

variable (h : Settles (n :: around) n.children f k k₁) (hk : Awaits around [n] k)
include h hk

/-- A node, after its parts: it takes what fits it, gives it back, and sends its own values. -/
theorem close
    (htaken : ∀ c j, (k₂.waiting c).find? j = if c.fits n.kind ∧ n.number = j then none else (k₁.waiting c).find? j)
    (hsent : ∀ c j, (k'.waiting c).find? j = (f.sent [(n, around)] c j).foldl Results.gather ((k₂.waiting c).find? j))
    (hanswered : Answered f n (f.sent (Node.completedAll (n :: around) n.children))) : Settles around [n] f k k' := by
  have hown := hk.number_not_mem
  -- no statement sends anything into itself
  have hlast : ∀ c, ∀ j ∈ numbersAll [n], f.sent [(n, around)] c j = [] := by
    intro c j hj
    refine f.sent_eq_nil c fun q hq p hp _ he => ?_
    rw [List.mem_singleton] at hq
    subst hq
    exact hk.outside p hp (he ▸ hj)
  have hcompleted : Node.completedAll around [n] = Node.completedAll (n :: around) n.children ++ [(n, around)] := by
    rw [Node.completedAll_singleton, Node.completed_eq]
  have hnumbers : numbersAll [n] = n.number :: numbersAll n.children := by
    rw [Node.numbersAll_cons, Node.numbersAll_nil, List.append_nil, Node.numbers_eq]
  constructor
  · intro c j hj
    rw [hnumbers, List.mem_cons, not_or] at hj
    rw [hsent, htaken, if_neg fun hfits => hj.1 hfits.2.symm, h.outside hj.2, hcompleted, f.sent_append, List.foldl_append]
  · intro c j hj
    rw [hsent, hlast c j hj, htaken]
    rw [hnumbers, List.mem_cons] at hj
    show (if c.fits n.kind ∧ n.number = j then none else (k₁.waiting c).find? j) = none
    split
    next => rfl
    next hfits =>
      rcases hj with rfl | hj
      · -- nothing that does not fit was sent to the node
        rw [h.outside hown, hk.idle_number, f.sent_eq_nil c fun q hq p hp hp' he => ?_]
        · rfl
        rcases Findings.number_around hq hp with hp | hp
        · rcases List.mem_cons.mp hp with rfl | hp
          · exact hfits ⟨hp', rfl⟩
          · exact hk.outside p hp (by simp [he, n.number_mem_numbers])
        · exact hown (he ▸ hp)
      · exact h.inside hj
  · intro m as hm
    rw [hcompleted, List.mem_append, List.mem_singleton] at hm
    have hsame : ∀ c, m.number ∈ numbersAll [n] →
        f.sent (Node.completedAll around [n]) c m.number = f.sent (Node.completedAll (n :: around) n.children) c m.number := by
      intro c hin
      rw [hcompleted, f.sent_append, hlast c _ hin, List.append_nil]
    rcases hm with hm | he
    · refine (h.answered hm).congr fun c => hsame c ?_
      rw [hnumbers]
      exact .tail _ (number_mem_of_completedAll hm)
    · cases he
      exact hanswered.congr fun c => hsame c (by simp [hnumbers])

/-- What waits for a node when its parts are done with. -/
theorem waits (c : Channel) : (k₁.waiting c).find? n.number =
      Results.combineAll (f.sent (Node.completedAll (n :: around) n.children) c n.number) := by
  rw [h.outside hk.number_not_mem, hk.idle_number, Results.foldl_gather_none]

/-- A node that nothing is sent to. -/
theorem closeIdle
    (hg : Around.givesBack n.kind = false)
    (hsent : ∀ c j, (k'.waiting c).find? j = (f.sent [(n, around)] c j).foldl Results.gather ((k₁.waiting c).find? j)) :
    Settles around [n] f k k' := by
  refine h.close hk (fun c j => ?_) hsent (.idle hg)
  rw [fits_idle c hg, if_neg (by simp)]

/-- A node that sends nothing and takes what fits it. -/
theorem closeOwner (hd : n.kind.delivers = false)
    (htaken : ∀ c j, (k'.waiting c).find? j = if c.fits n.kind ∧ n.number = j then none else (k₁.waiting c).find? j)
    (hanswered : Answered f n (f.sent (Node.completedAll (n :: around) n.children))) : Settles around [n] f k k' := by
  refine h.close hk htaken (fun c j => ?_) hanswered
  rw [f.sent_silent c hd]
  rfl

end

/-- A name, which neither sends anything nor is sent anything. -/
theorem leaf {v : Node} (hc : v.children = []) (hv : v.kind.isOrdinary) (hw : k'.waiting = k.waiting)
    (hk : Awaits around [v] k) : Settles around [v] f k k' := by
  obtain ⟨hgives, hdelivers⟩ := Node.Kind.idle_of_isOrdinary hv
  have hparts : Settles (v :: around) v.children f k k := by
    rw [hc]
    exact .nil
  refine hparts.closeIdle hk hgives fun c j => ?_
  rw [f.sent_silent c hdelivers, hw]
  rfl

end Settles

/-! ## Passages settle -/

theorem Parts.waiting_nil {late parts : List Node} {n : Node} {k k' : Memory} (h : Parts around n late parts k k')
    (hp : parts = []) : k'.waiting = k.waiting := by
  match h with
  | .done => rfl
  | .quiet hq hs => exact (hs.waiting_nil hp).trans hq.waiting

theorem Passes.waiting_leaf {v : Node} {k k' : Memory} (h : Passes around v k k') (hc : v.children = [])
    (hv : v.kind.isOrdinary) : k'.waiting = k.waiting := by
  obtain ⟨hgives, hdelivers⟩ := Node.Kind.idle_of_isOrdinary hv
  cases h with
  | silent hk h => exact h.waiting_nil hc
  | closed hl h hn hq =>
    cases hq with
    | ordinary _ hq => exact hq.waiting.trans (h.waiting_nil hc)
    | statement hk => cases hdelivers.symm.trans hk
    | construct hk => cases (fits_idle .emitted hgives).symm.trans hk
    | method hk | procedure hk =>
      rw [hk] at hv
      cases hv

/-- A part of a file on the way: no rounds are noted of it before, and what is noted of it after is what is
    found in the end. -/
def Brackets (f : Findings) (k k' : Memory) (n : Node) : Prop :=
  ∀ j ∈ n.numbers, k.findings.loopResults.find? j = none ∧ k'.findings.SameAt f j

mutual

/-- A node is done with after its parts, so that all that is sent to it waits when it takes it. -/
theorem Passes.settles {around : List Node} {n : Node} {k k' : Memory} {f : Findings} (h : Passes around n k k')
    (hn : Awaits around [n] k) (hb : Brackets f k k' n) : Settles around [n] f k k' := by
  have hown := hn.number_not_mem
  have hchildren : ∀ j ∈ numbersAll n.children, j ∈ n.numbers := fun j hj => by
    rw [Node.numbers_eq]
    exact .tail _ hj
  obtain ⟨hnone, hnumber⟩ := hb n.number n.number_mem_numbers
  have hbr : ∀ k₁ : Memory, (∀ {j}, n.number ≠ j → k₁.findings.SameAt k'.findings j) →
      ∀ c ∈ n.children, Brackets f k k₁ c := by
    intro k₁ hsame c hc j hj
    have hin := Node.numbers_subset hc j hj
    obtain ⟨hnone, hsame'⟩ := hb j (hchildren j hin)
    exact ⟨hnone, (hsame fun he => hown (he ▸ hin)).trans hsame'⟩
  match h with
  | .silent hk h =>
    obtain ⟨hgives, hdelivers⟩ := Node.Kind.idle_of_isSilent hk
    have hparts := h.settles (f := f) hn.inside (.nil n) (List.Subset.refl _) hn.inside.nodup fun c hc _ =>
      hbr _ (fun _ => .refl _ _) c hc
    refine hparts.closeIdle hn hgives fun c j => ?_
    rw [f.sent_silent c hdelivers]
    rfl
  | @Passes.closed _ _ _ _ k₁ k₂ r hl h _ hq =>
    have hsame : ∀ {j}, n.number ≠ j → k₁.findings.SameAt (k₂.note n.number r).findings j := fun hne =>
      (hq.notes.same (by simpa using hne.symm)).trans (Memory.same_note _ _ hne)
    have hparts := h.settles (f := f) hn.inside hl (List.Subset.refl _) hn.inside.nodup fun c hc _ => hbr _ hsame c hc
    have hwaits := hparts.waits hn
    have hrounds : k₁.findings.loopResults.find? n.number = none :=
      (h.notes.same (by simpa [hown] using hl.not_mem hown)).loopResults.trans hnone
    cases hq with
    | ordinary hk hq =>
      obtain ⟨hgives, hdelivers⟩ := Node.Kind.idle_of_isOrdinary hk
      refine hparts.closeIdle hn hgives fun c j => ?_
      rw [f.sent_silent c hdelivers, Memory.waiting_note, hq.waiting]
      rfl
    | statement hk =>
      have hvalues : n.valuesIn f = n.valuesIn k₁.findings := n.valuesIn_congr fun c hc =>
        (hbr _ hsame c hc _ c.number_mem_numbers).2.results
      refine hparts.closeIdle hn (Node.Kind.givesBack_of_delivers hk) fun c j => ?_
      rw [Memory.waiting_note, Memory.find?_waiting_deliver, f.sent_singleton, hvalues]
    | construct hk =>
      refine hparts.closeOwner hn (Node.Kind.delivers_of_isConstruct hk) (fun c j => ?_) (.ofConstruct hk ?_)
      · simp only [Memory.waiting_note, Memory.find?_waiting_take, fits_construct c hk]
      · rw [hnumber.results, Memory.results_note, if_pos rfl, Memory.sentTo, hwaits]
    | method hk =>
      have hdefinition : n.kind.isDefinition := by rw [hk]; rfl
      refine hparts.closeOwner hn (hk ▸ rfl) (fun c j => ?_) (.ofMethod hk ?_ ?_)
      · simp only [Memory.waiting_note, Memory.find?_waiting_finish, fits_definition c hdefinition]
      · rw [hnumber.results, Memory.results_note, if_pos rfl, Memory.sentTo, hwaits]
      · rw [hnumber.loopResults, ← hwaits]
        exact k₁.loopResults_finish _ hrounds
    | procedure hk =>
      have hdefinition : n.kind.isDefinition := by rw [hk]; rfl
      refine hparts.closeOwner hn (hk ▸ rfl) (fun c j => ?_) (.ofProcedure hk ?_ ?_)
      · simp only [Memory.waiting_note, Memory.waiting_noteProcedure, Memory.find?_waiting_finish,
          fits_definition c hdefinition]
      · rw [hnumber.procedureResults, ← hwaits]
        exact Table.find?_insert_self _ _ _
      · rw [hnumber.loopResults, ← hwaits]
        exact k₁.loopResults_finish _ hrounds

theorem Parts.settles {around late parts : List Node} {n : Node} {k k' : Memory} {f : Findings}
    (h : Parts around n late parts k k') (hn : Awaits (n :: around) parts k) (hl : Late n late) (hsub : parts ⊆ n.children)
    (hcn : (numbersAll n.children).Nodup) (hb : ∀ c ∈ parts, c ∉ late → Brackets f k k' c) :
    Settles (n :: around) parts f k k' := by
  have hlate : ∀ c ∈ parts, c ∉ late → ∀ j ∈ c.numbers, j ∉ late.map Node.number := by
    intro c hc hout j hj hin
    obtain ⟨v, hv, rfl⟩ := List.mem_map.mp hin
    exact hout (Node.eq_of_mem_numbers hcn (hsub hc) (hl v hv).1 hj v.number_mem_numbers ▸ hv)
  match h with
  | .done => exact .nil
  | .quiet hq hs =>
    have hrest := hs.settles (f := f) (hn.of_waiting_eq hq.waiting) hl hsub hcn fun c hc hout j hj => by
      obtain ⟨hnone, hsame⟩ := hb c hc hout j hj
      exact ⟨by rw [(hq.same (hlate c hc hout j hj)).loopResults, hnone], hsame⟩
    exact hrest.of_waiting_eq hq.waiting
  | @Parts.visit _ _ _ c rest _ k₁ _ h hs =>
    replace hn : Awaits (n :: around) ([c] ++ rest) k := hn
    have hdisjoint : ∀ j ∈ c.numbers, j ∉ numbersAll rest := by simpa using hn.disjoint
    have hfirst : Settles (n :: around) [c] f k k₁ := by
      by_cases hc : c ∈ late
      · exact .leaf (hl c hc).2.1 (hl c hc).2.2 (h.waiting_leaf (hl c hc).2.1 (hl c hc).2.2) hn.left
      · refine h.settles hn.left fun j hj => ?_
        obtain ⟨hnone, hsame⟩ := hb c (by simp) hc j hj
        exact ⟨hnone, (hs.notes.same (List.not_mem_append (hdisjoint j hj) (hlate c (by simp) hc j hj))).trans hsame⟩
    have hrest : Awaits (n :: around) rest k₁ := ⟨hn.right.nodup, hn.right.outside, fun ch j hj =>
      hfirst.still (hn.right.idle ch j hj) (fun hj' => hn.disjoint j hj' hj) fun p hp he => hn.right.outside p hp (he ▸ hj)⟩
    refine hfirst.append (hs.settles hrest hl (List.cons_subset.mp hsub).2 hcn fun d hd hout j hj => ?_) hn
    obtain ⟨hnone, hsame⟩ := hb d (.tail _ hd) hout j hj
    have hj' : j ∉ c.numbers := fun hj' => hdisjoint j hj' (Node.numbers_subset hd j hj)
    exact ⟨by rw [(h.notes.same hj').loopResults, hnone], hsame⟩
  | @Parts.skip _ _ _ v rest _ _ hv hs =>
    replace hn : Awaits (n :: around) ([v] ++ rest) k := hn
    exact Settles.append (.leaf (hl _ hv).2.1 (hl _ hv).2.2 rfl hn.left) (hs.settles hn.right hl
      (List.cons_subset.mp hsub).2 hcn fun d hd => hb d (.tail _ hd)) hn

end

/-! ## Files -/

theorem Table.eq_empty {α β : Type} [DecidableEq α] {t : Table α β} (h : ∀ k, t.find? k = none) : t = .empty := by
  obtain ⟨pairs⟩ := t
  cases pairs with
  | nil => rfl
  | cons p pairs =>
    have hnone := h p.1
    simp [Table.find?, Table.findIn] at hnone

theorem Memory.waiting_start (package : String) (c : Channel) : (Memory.start package).waiting c = .empty := by
  cases c <;> rfl

namespace World

variable {tree : SyntaxTree}

theorem settles_file (h : tree.FormedFile) (w : World) (package : String) :
    Settles [] [tree.root] (w.findings package tree) (.start package) (w.remembered package tree) := by
  refine (passes_file h w package).settles ⟨by simpa using h.nodup, by simp, fun c j _ => ?_⟩ fun j _ => ⟨rfl, .refl _ _⟩
  rw [Memory.waiting_start, Table.find?_empty]

/-- Nothing waits when a file has been gone through. -/
theorem waiting_remembered (h : tree.FormedFile) (w : World) (package : String) (c : Channel) :
    (w.remembered package tree).waiting c = .empty := by
  have hsettles := settles_file h w package
  refine Table.eq_empty fun j => ?_
  by_cases hj : j ∈ numbersAll [tree.root]
  · exact hsettles.inside hj
  · refine hsettles.still ?_ hj (by simp)
    rw [Memory.waiting_start, Table.find?_empty]

/-- In every file: a method gives back what its `_return` and `>>` statements give it, a procedure likewise
    when it is called, a construct what its `>>` and, of a loop, its `_leave` statements give it, and the rounds
    of an iterator get what its `_loopbody` statements give it; all of it combined in the order in which the
    statements are done with, and nothing is left over. -/
theorem findings_deliver_values (w : World) (package : String) (tokens : List Token) :
    let tree := (Grammar.parse tokens).1
    let f := w.findings package tree
    (tree.completed.map Prod.fst).Perm tree.nodes ∧ (∀ p ∈ tree.completed, p.2 = tree.ancestors p.1.number) ∧
    (∀ n ∈ tree.nodes, Answered f n (f.sent tree.completed)) ∧
    ∀ c, (w.remembered package tree).waiting c = .empty := by
  intro tree f
  have h : tree.FormedFile := Grammar.parse_formedFile tokens
  have hsettles := settles_file h w package
  have hcompleted : Node.completedAll [] [tree.root] = tree.completed := Node.completedAll_singleton _ _
  rw [SyntaxTree.nodes]
  refine ⟨Node.map_fst_completed_perm _ _, ?_, fun n hn => ?_, waiting_remembered h w package⟩
  · rintro ⟨m, as⟩ hp
    obtain ⟨bs, hw, rfl⟩ := Node.mem_completed_iff.mp hp
    rw [List.append_nil, h.ancestors_of_way hw]
  · obtain ⟨as, hw⟩ := Node.mem_withDescendants_iff.mp hn
    have hm : (n, as) ∈ tree.completed := Node.mem_completed_iff.mpr ⟨as, hw, by simp⟩
    rw [← hcompleted] at hm ⊢
    exact hsettles.answered hm

def leaveInProcedure : List Token :=
  (Token.scan "_loop\n    _proc() _leave _with 5 _endproc\n_endloop\n").toOption.getD []

/-- A `_leave` in a procedure does not leave the loop around the procedure: the loop is the nearest one
    around the only statement of the file that gives values, and gives back none. -/
theorem leave_ends_at_procedure :
    let tree := (Grammar.parse leaveInProcedure).1
    let f := World.findings ⟨.build tree, .empty⟩ systemPackage tree
    ∃ loop ∈ tree.nodes, ∃ leave ∈ tree.nodes,
      tree.nodes.filter (fun n => n.kind.delivers) = [leave] ∧ leave.kind = .leave none ∧
      (tree.ancestors leave.number).find? (fun p => (Around.loopLabel? p.kind).isSome) = some loop ∧
      leave.valuesIn f = .ofType .integer ∧ f.results.find? loop.number = some .nothing := by
  decide +kernel

end World

end Magik
