/-
  Magik.Proofs.Reasoning.Frame — what steps of reasoning leave as it is.

  A step notes what some nodes give back, and nothing about any other node (`Touches`). Most
  steps leave more as it is (`Calm`): nothing is sent or taken on the way, the package stays
  in force, and no entry is given a procedure.
-/

import Magik.Reasoning.Reason
import Magik.Proofs.Syntax.Numbers

namespace Magik

/-! ## The memory -/

/-- Where values wait for the node they are sent to. -/
inductive Channel where
  | emitted
  | returned
  | looped
  deriving DecidableEq

namespace Memory

def waiting (k : Memory) : Channel → Table Nat Results
  | .emitted => k.emitted
  | .returned => k.returned
  | .looped => k.looped

def note (k : Memory) (number : Nat) (r : Results) : Memory :=
  { k with findings := { k.findings with results := k.findings.results.insert number r } }

def noteLoop (k : Memory) (number : Nat) (r : Results) : Memory :=
  { k with findings := { k.findings with loopResults := k.findings.loopResults.insert number r } }

theorem results_note (k : Memory) (number : Nat) (r : Results) (j : Nat) :
    (k.note number r).findings.results.find? j = if number = j then some r else k.findings.results.find? j :=
  Table.find?_insert _ _ _ _

theorem isSome_note {k : Memory} {j : Nat} (r : Results) (number : Nat) (h : (k.findings.results.find? j).isSome) :
    ((k.note number r).findings.results.find? j).isSome := by
  rw [results_note]
  split
  · rfl
  · exact h

end Memory

/-- What is noted of a node is the same. -/
structure Findings.SameAt (f f' : Findings) (number : Nat) : Prop where
  results : f'.results.find? number = f.results.find? number
  loopResults : f'.loopResults.find? number = f.loopResults.find? number
  procedureResults : f'.procedureResults.find? number = f.procedureResults.find? number

namespace Findings.SameAt

variable {f f' f'' : Findings} {j : Nat}

theorem refl (f : Findings) (j : Nat) : f.SameAt f j := ⟨rfl, rfl, rfl⟩

theorem trans (h : f.SameAt f' j) (h' : f'.SameAt f'' j) : f.SameAt f'' j :=
  ⟨h'.results.trans h.results, h'.loopResults.trans h.loopResults, h'.procedureResults.trans h.procedureResults⟩

end Findings.SameAt

theorem Memory.same_note (k : Memory) {number : Nat} (r : Results) {j : Nat} (hne : number ≠ j) :
    k.findings.SameAt (k.note number r).findings j :=
  ⟨by rw [results_note, if_neg hne], rfl, rfl⟩

/-- What is noted is noted at some numbers, and restrictions at others. What was noted stays
    noted. -/
structure NotesAt (numbers conditions : List Nat) (k k' : Memory) : Prop where
  same {j : Nat} : j ∉ numbers → k.findings.SameAt k'.findings j
  restrictions {j : Nat} : j ∉ conditions → k'.findings.restrictions.find? j = k.findings.restrictions.find? j
  kept {j : Nat} : (k.findings.results.find? j).isSome → (k'.findings.results.find? j).isSome

/-- Nothing is sent or taken, either. -/
structure Quiet (numbers conditions : List Nat) (k k' : Memory) : Prop extends NotesAt numbers conditions k k' where
  waiting : k'.waiting = k.waiting

/-- Nor does what calls and names depend on change. -/
structure Unmoved (numbers conditions : List Nat) (k k' : Memory) : Prop extends Quiet numbers conditions k k' where
  package : k'.package = k.package
  procedures : k'.procedures = k.procedures
  made : k'.findings.procedureResults = k.findings.procedureResults

section

variable {numbers numbers' conditions conditions' : List Nat} {k k' k'' : Memory} {number : Nat}

theorem NotesAt.of_findings_eq (h : k'.findings = k.findings) : NotesAt numbers conditions k k' :=
  ⟨fun _ => h ▸ .refl _ _, fun _ => h ▸ rfl, fun hs => h ▸ hs⟩

theorem NotesAt.trans (h : NotesAt numbers conditions k k') (h' : NotesAt numbers conditions k' k'') :
    NotesAt numbers conditions k k'' :=
  ⟨fun hj => (h.same hj).trans (h'.same hj), fun hj => (h'.restrictions hj).trans (h.restrictions hj),
    fun hs => h'.kept (h.kept hs)⟩

theorem NotesAt.mono (h : NotesAt numbers conditions k k') (hn : numbers ⊆ numbers') (hc : conditions ⊆ conditions') :
    NotesAt numbers' conditions' k k' :=
  ⟨fun hj => h.same fun hm => hj (hn hm), fun hj => h.restrictions fun hm => hj (hc hm), h.kept⟩

theorem NotesAt.note (r : Results) (hn : number ∈ numbers) : NotesAt numbers conditions k (k.note number r) :=
  ⟨fun hj => k.same_note r fun he => hj (he ▸ hn), fun _ => rfl, Memory.isSome_note r number⟩

theorem NotesAt.noteLoop (r : Results) (hn : number ∈ numbers) : NotesAt numbers conditions k (k.noteLoop number r) := by
  refine ⟨fun {j} hj => ⟨rfl, ?_, rfl⟩, fun _ => rfl, id⟩
  have hne : number ≠ j := fun he => hj (he ▸ hn)
  simp [Memory.noteLoop, Table.find?_insert, hne]

theorem Quiet.refl (k : Memory) : Quiet numbers conditions k k := ⟨.of_findings_eq rfl, rfl⟩

theorem Quiet.trans (h : Quiet numbers conditions k k') (h' : Quiet numbers conditions k' k'') :
    Quiet numbers conditions k k'' :=
  ⟨h.toNotesAt.trans h'.toNotesAt, h'.waiting.trans h.waiting⟩

theorem Quiet.mono (h : Quiet numbers conditions k k') (hn : numbers ⊆ numbers') : Quiet numbers' conditions k k' :=
  ⟨h.toNotesAt.mono hn (List.Subset.refl _), h.waiting⟩

theorem Unmoved.refl (k : Memory) : Unmoved numbers conditions k k := ⟨.refl k, rfl, rfl, rfl⟩

theorem Unmoved.trans (h : Unmoved numbers conditions k k') (h' : Unmoved numbers conditions k' k'') :
    Unmoved numbers conditions k k'' :=
  ⟨h.toQuiet.trans h'.toQuiet, h'.package.trans h.package, h'.procedures.trans h.procedures, h'.made.trans h.made⟩

end

/-! ## Slight steps -/

/-- Reasoning that at most notes what each round of the loops at a node gets. -/
def Slight {α : Type} (number : Nat) (p : Reason α) : Prop :=
  ∀ m : Moment, (p m).2.flow.believed = m.flow.believed ∧
    ∃ rounds : Option Results, (p m).2.memory = rounds.elim m.memory (m.memory.noteLoop number)

namespace World

variable {w : World} {around : Around} {number : Nat}

theorem slight_readName (number j : Nat) : Slight j (w.readName number) := by
  unfold readName
  split <;> exact fun _ => ⟨rfl, none, rfl⟩

theorem slight_undeclaredTypes (modifier : Modifier) (number j : Nat) :
    Slight j (w.undeclaredTypes around modifier number) := by
  unfold undeclaredTypes
  cases modifier <;> exact fun _ => ⟨rfl, none, rfl⟩

theorem slight_invocation (name : String) (children : List Node) (rs : List Results) :
    Slight number (w.invocation around number name children rs) := by
  unfold invocation
  dsimp only
  repeat' split
  all_goals first | exact fun _ => ⟨rfl, none, rfl⟩ | exact fun _ => ⟨rfl, some _, rfl⟩

theorem slight_call (children : List Node) : Slight number (w.call number children) := by
  intro m
  have hmemory : ∀ f : Memory → Reason Results, (Reason.memory >>= f) m = f m.memory m := fun _ => rfl
  rw [call, hmemory]
  cases children.head?.bind (w.calledProcedure? m.memory) with
  | none => exact ⟨rfl, none, rfl⟩
  | some procedure =>
    dsimp only
    cases m.memory.findings.loopResults.find? procedure with
    | none => exact ⟨rfl, none, rfl⟩
    | some rounds => exact ⟨rfl, some rounds, rfl⟩

end World

/-! ## Calm steps -/

/-- Reasoning that leaves all as it is but what is noted at some numbers, restrictions at
    others, and beliefs. -/
def Calm {α : Type} (numbers conditions : List Nat) (p : Reason α) : Prop :=
  ∀ m : Moment, Unmoved numbers conditions m.memory (p m).2.memory

namespace Calm

variable {α β : Type} {numbers conditions : List Nat} {number : Nat} {w : World} {p : Reason α}

theorem bind {f : α → Reason β} (hp : Calm numbers conditions p) (hf : ∀ a, Calm numbers conditions (f a)) :
    Calm numbers conditions (p >>= f) :=
  fun m => (hp m).trans (hf (p m).1 (p m).2)

/-- Reasoning that leaves the memory alone. -/
theorem of_memory_eq (h : ∀ m, (p m).2.memory = m.memory) : Calm numbers conditions p :=
  fun m => (h m).symm ▸ .refl _

theorem pure (a : α) : Calm numbers conditions (pure a : Reason α) := of_memory_eq fun _ => rfl

theorem flow : Calm numbers conditions Reason.flow := of_memory_eq fun _ => rfl

theorem memory : Calm numbers conditions Reason.memory := of_memory_eq fun _ => rfl

theorem setFlow (f : Flow) : Calm numbers conditions (Reason.setFlow f) := of_memory_eq fun _ => rfl

/-- Beliefs that are noted for good. -/
theorem settle (believed : Table Nat TypeSet) : Calm numbers conditions (Reason.settle believed) :=
  fun _ => ⟨⟨⟨fun _ => ⟨rfl, rfl, rfl⟩, fun _ => rfl, id⟩, rfl⟩, rfl, rfl, rfl⟩

theorem retire (outer inner : Flow) : Calm numbers conditions (Reason.retire outer inner) := settle _

theorem record (r : Results) (hn : number ∈ numbers) : Calm numbers conditions (Reason.record number r) :=
  fun _ => ⟨⟨.note r hn, rfl⟩, rfl, rfl, rfl⟩

theorem recordRestriction (r : Restriction) (hn : number ∈ conditions) :
    Calm numbers conditions (Reason.recordRestriction number r) := by
  refine fun m => ⟨⟨⟨fun _ => ⟨rfl, rfl, rfl⟩, fun {j} hj => ?_, id⟩, rfl⟩, rfl, rfl, rfl⟩
  have hne : number ≠ j := fun he => hj (he ▸ hn)
  show (m.memory.findings.restrictions.insert number r).find? j = _
  rw [Table.find?_insert, if_neg hne]

theorem of_slight (hp : Slight number p) (hn : number ∈ numbers) : Calm numbers conditions p := by
  intro m
  obtain ⟨-, rounds, he⟩ := hp m
  rw [he]
  cases rounds with
  | none => exact .refl _
  | some r => exact ⟨⟨.noteLoop r hn, rfl⟩, rfl, rfl, rfl⟩

theorem listForM {as : List α} {f : α → Reason Unit} (h : ∀ a, Calm numbers conditions (f a)) :
    Calm numbers conditions (as.forM f) := by
  induction as with
  | nil => exact pure ()
  | cons a as ih => exact bind (h a) fun _ => ih

theorem merge (inside : List Nat) (before : Flow) (outcomes : List Flow) :
    Calm numbers conditions (w.merge inside before outcomes) := by
  refine bind (listForM fun _ => retire before _) fun _ => ?_
  split
  · exact setFlow _
  · exact bind memory fun _ => setFlow _

theorem loopVariables (rounds : Option Results) {vars : List Node} (hn : ∀ n ∈ vars, n.number ∈ numbers) (index : Nat)
    (f : Flow) : Calm numbers conditions (w.loopVariables rounds index f vars) := by
  induction vars generalizing index f with
  | nil => exact pure _
  | cons v vars ih =>
    exact bind (record _ (hn v (by simp))) fun _ => ih (fun m hm => hn m (.tail _ hm)) (index + 1) _

end Calm

/-! ## What is noted of nodes -/

/-- What is noted of nodes other than these stays. -/
def Touches {α : Type} (ns : List Nat) (p : Reason α) : Prop :=
  ∀ (m : Moment) (j : Nat), j ∉ ns → (p m).2.memory.findings.results.find? j = m.memory.findings.results.find? j

namespace Touches

variable {α β : Type} {ns ms : List Nat} {p : Reason α} {number : Nat}

theorem bind {f : α → Reason β} (hp : Touches ns p) (hf : ∀ a, Touches ns (f a)) : Touches ns (p >>= f) :=
  fun m j hj => (hf (p m).1 (p m).2 j hj).trans (hp m j hj)

theorem of_calm {conditions : List Nat} (h : Calm ns conditions p) : Touches ns p :=
  fun m _ hj => ((h m).same hj).results

/-- Reasoning that notes nothing of what nodes give back. -/
theorem of_results_eq (h : ∀ m, (p m).2.memory.findings.results = m.memory.findings.results) : Touches ns p :=
  fun m j _ => by rw [h m]

theorem of_slight (h : Slight number p) : Touches ns p := by
  refine of_results_eq fun m => ?_
  obtain ⟨-, rounds, he⟩ := h m
  rw [he]
  cases rounds <;> rfl

theorem pure (a : α) : Touches ns (pure a : Reason α) := of_results_eq fun _ => rfl

theorem flow : Touches ns Reason.flow := of_results_eq fun _ => rfl

theorem memory : Touches ns Reason.memory := of_results_eq fun _ => rfl

theorem changeFlow (change : Flow → Flow) : Touches ns (Reason.changeFlow change) := of_results_eq fun _ => rfl

theorem changeMemory {change : Memory → Memory} (h : ∀ k, (change k).findings.results = k.findings.results) :
    Touches ns (Reason.changeMemory change) :=
  of_results_eq fun m => h m.memory

theorem along (start : Flow) (h : Touches ns p) : Touches ns (Reason.along start p) :=
  fun m j hj => h { m with flow := start } j hj

theorem record (r : Results) (hn : number ∈ ns) : Touches ns (Reason.record number r) :=
  of_calm (.record r hn : Calm ns [] _)

theorem optionForM {o : Option α} {f : α → Reason Unit} (h : ∀ a ∈ o, Touches ns (f a)) : Touches ns (o.forM f) := by
  cases o with
  | none => exact pure ()
  | some a => exact h a rfl

end Touches

namespace World

variable {w : World} {ns : List Nat}

theorem touches_assign {number : Nat} (procedure : Option Nat) (types : TypeSet) (hn : number ∈ ns) :
    Touches ns (w.assign number procedure types) := by
  unfold assign
  dsimp only
  split
  · exact .bind (.changeMemory fun _ => rfl) fun _ => .bind (.changeFlow _) fun _ => .record _ hn
  · exact .record _ hn

theorem touches_assignEach (r : Results) {targets : List Node} (hn : ∀ n ∈ targets, n.number ∈ ns) (index : Nat) :
    Touches ns (w.assignEach r index targets) := by
  induction targets generalizing index with
  | nil => exact .pure _
  | cons n targets ih =>
    exact .bind (touches_assign none _ (hn n (by simp))) fun _ =>
      ih (fun m hm => hn m (.tail _ hm)) (index + 1)

/-- Values that are delivered change no beliefs, and in the memory only what waits for nodes. -/
theorem deliver_waiting (around : Around) (kind : Node.Kind) (r : Results) (m : Moment) :
    (deliver around kind r m).2.flow.believed = m.flow.believed ∧ ∃ emitted returned looped,
      (deliver around kind r m).2.memory = { m.memory with emitted, returned, looped } := by
  unfold deliver
  split
  · cases around.definition? <;> exact ⟨rfl, _, _, _, rfl⟩
  · rcases around.emitTarget? with _ | ⟨owner, target⟩
    · exact ⟨rfl, _, _, _, rfl⟩
    · rw [Option.forM]
      dsimp only
      split <;> exact ⟨rfl, _, _, _, rfl⟩
  · rename_i label
    cases around.loopTarget? label <;> exact ⟨rfl, _, _, _, rfl⟩
  · cases around.definition? <;> exact ⟨rfl, _, _, _, rfl⟩
  · exact ⟨rfl, _, _, _, rfl⟩

theorem touches_deliver (around : Around) (kind : Node.Kind) (r : Results) : Touches ns (deliver around kind r) := by
  refine .of_results_eq fun m => ?_
  obtain ⟨-, _, _, _, he⟩ := deliver_waiting around kind r m
  rw [he]

theorem touches_finish (number : Nat) : Touches ns (finish number) :=
  .bind (.of_results_eq fun _ => rfl) fun _ =>
    .bind (.optionForM fun _ _ => .changeMemory fun _ => rfl) fun _ => .of_results_eq fun _ => rfl

theorem touches_merge (inside : List Nat) (before : Flow) (outcomes : List Flow) :
    Touches ns (w.merge inside before outcomes) :=
  .of_calm (.merge inside before outcomes : Calm ns [] _)

theorem touches_takeEmitted (number : Nat) : Touches ns (Reason.takeEmitted number) := .of_results_eq fun _ => rfl

end World

end Magik
