/-
  Magik.Proofs.Reasoning.Recording — reasoning records sets of a kind only.

  Take a kind of sets that the operations do not leave, such that what the world supplies
  (`World.Supplies`) and what a node writes out (`Suits`) is of the kind, and the receiver is
  of the kind wherever the node names it (`Framed`). Then reasoning about the node makes
  sets of the kind of sets of the kind (`Reasons.records`), and everything that is found in
  a file is of the kind (`findings_all`).
-/

import Magik.Proofs.Lists
import Magik.Proofs.Reasoning.Agreement
import Magik.Proofs.Reasoning.Rules
import Magik.Proofs.Scope.Steps
import Magik.Proofs.Types.Closed

namespace Magik

open Node (Way)

/-! ## Tables -/

namespace Table

variable {α β : Type} {P : β → Prop} {t u : Table α β} {k : α} {v : β}

/-- All values of a table are of a kind. -/
def All (P : β → Prop) (t : Table α β) : Prop := ∀ p ∈ t.pairs, P p.2

theorem all_empty : All P (empty : Table α β) := by simp [All, empty]

theorem All.filter (h : t.All P) (keep : α × β → Bool) : All P (⟨t.pairs.filter keep⟩ : Table α β) :=
  fun p hp => h p (List.mem_filter.mp hp).1

variable [DecidableEq α]

theorem All.find? (h : t.All P) (hf : t.find? k = some v) : P v := h (k, v) (exists_mem_of_findIn hf)

theorem All.insert (h : t.All P) (hv : P v) : (t.insert k v).All P := by
  intro p hp
  rcases mem_insertIn hp with rfl | hp
  · exact hv
  · exact h p hp

theorem All.erase (h : t.All P) : (t.erase k).All P := h.filter _

theorem All.insertAll (h : t.All P) (hu : u.All P) : (t.insertAll u).All P :=
  List.foldlRecOn u.pairs _ h fun _ ht p hp => ht.insert (hu p hp)

end Table

/-! ## Restrictions -/

namespace Narrowing

/-- The types of a narrowing are of a kind. -/
def All (P : TypeSet → Prop) (n : Narrowing) : Prop := ∀ a, n = .replace a ∨ n = .remove a → P a

variable {P : TypeSet → Prop} {a : TypeSet} {n n' : Narrowing}

theorem all_unknown : All P .unknown := by simp [All]

theorem all_replace (h : P a) : All P (.replace a) := by simpa [All] using h

theorem all_remove (h : P a) : All P (.remove a) := by simpa [All] using h

theorem All.andThen (h : n.All P) (h' : n'.All P) (hP : TypeSet.Closed P) : (n.andThen n').All P := by
  cases n with
  | unknown => exact all_unknown
  | replace a =>
    have ha := h a (.inl rfl)
    cases n' with
    | unknown => exact all_unknown
    | remove b => exact all_replace (hP.getD_difference ha)
    | replace b =>
      unfold Narrowing.andThen
      dsimp only
      split
      · rename_i both hboth
        exact all_replace (hP.intersect ha (h' b (.inl rfl)) hboth)
      · exact all_unknown
  | remove a =>
    cases n' with
    | unknown => exact all_unknown
    | remove b => exact all_remove (hP.union (h a (.inr rfl)) (h' b (.inr rfl)))
    | replace b => exact all_replace (hP.getD_difference (h' b (.inl rfl)))

end Narrowing

namespace Restriction

variable {P : TypeSet → Prop} {r r' : Restriction} {rs : List Restriction} {current : Nat → TypeSet}

/-- The types of a restriction are of a kind. -/
def All (P : TypeSet → Prop) : Restriction → Prop
  | .value _ types _ _ => P types
  | _ => True

theorem All.negate (h : r.All P) : r.negate.All P := by
  cases r with
  | value => exact h
  | _ => trivial

theorem All.compose (h : r.All P) (h' : r'.All P) (hP : TypeSet.Closed P) (disjunction : Bool) :
    (r.compose disjunction r').All P := by
  unfold Restriction.compose
  split
  · split
    · exact hP.union h h'
    · trivial
  · trivial

theorem All.narrowings (h : r.All P) (hP : TypeSet.Closed P) (hc : ∀ x, P (current x)) :
    ∀ p ∈ r.narrowings current, p.2.All P := by
  cases r with
  | value entry types test holds =>
    have hreplace : (Narrowing.replace types).All P := Narrowing.all_replace h
    have hremove : (Narrowing.remove types).All P := Narrowing.all_remove h
    cases holds with
    | true => simpa [Restriction.narrowings] using hreplace
    | false =>
      cases test with
      | kindOf => simpa [Restriction.narrowings] using hremove
      | identity =>
        rw [Restriction.narrowings]
        split
        · simpa using hremove
        · simp
  | pair left right holds =>
    cases holds with
    | true =>
      have hboth : (((current left).intersect (current right)).elim .unknown Narrowing.replace).All P := by
        cases h : (current left).intersect (current right) with
        | none => exact Narrowing.all_unknown
        | some both => exact Narrowing.all_replace (hP.intersect (hc left) (hc right) h)
      simpa [Restriction.narrowings] using hboth
    | false =>
      rintro ⟨x, n⟩ hp
      rcases mem_narrowings_distinct hp with rfl | ⟨-, -, rfl⟩ | ⟨-, -, rfl⟩
      · exact Narrowing.all_unknown
      · exact Narrowing.all_remove (hc right)
      · exact Narrowing.all_remove (hc left)
  | undeterminable entries =>
    intro p hp
    obtain ⟨entry, -, rfl⟩ := List.mem_map.mp hp
    exact Narrowing.all_unknown

theorem all_fold {t : Table Nat Narrowing} {step : Nat × Narrowing} (ht : t.All (Narrowing.All P)) (hs : step.2.All P)
    (hP : TypeSet.Closed P) : (fold t step).All (Narrowing.All P) := by
  unfold fold
  refine ht.erase.insert ?_
  cases hf : t.find? step.1 with
  | none => exact hs
  | some n => exact (ht.find? hf).andThen hs hP

theorem all_combine (hr : ∀ r ∈ rs, r.All P) (hP : TypeSet.Closed P) (hc : ∀ x, P (current x)) :
    (combine rs current).All (Narrowing.All P) := by
  refine List.foldlRecOn _ _ Table.all_empty fun t ht p hp => ?_
  obtain ⟨r, hr', hp⟩ := List.mem_flatMap.mp hp
  exact all_fold ht ((hr r hr').narrowings hP hc p hp) hP

end Restriction

/-- The types in the restriction of a condition are those of values. -/
theorem Evidence.all_derive {e : Evidence} {P : TypeSet → Prop} (hP : TypeSet.Closed P) (he : ∀ j, P (e.valueTypes j))
    (n : Node) : (e.derive n).All P := by
  have getD {o : Option Restriction} {r : Restriction} (ho : ∀ r ∈ o, r.All P) (hr : r.All P) : (o.getD r).All P := by
    cases o with
    | none => exact hr
    | some r => exact ho r rfl
  have hnothing : ∀ n, (e.undeterminable n).All P := fun _ => trivial
  induction n using Node.induction_children with
  | node n ih =>
    rcases derive_cases n with ⟨left, right, same, hc, hd⟩ | ⟨left, right, disjunction, hc, hd⟩ | ⟨operand, hc, -, hd⟩ | hd | hd
    · rw [hd]
      refine getD (fun r hr => ?_) (hnothing n)
      unfold identity? at hr
      split at hr <;> cases hr
      · trivial
      · exact he _
      · exact he _
    · rw [hd]
      split
      · exact hnothing n
      · exact (ih left (by simp [hc])).compose (ih right (by simp [hc])) hP disjunction
    · rw [hd]
      exact (ih operand (by simp [hc])).negate
    · rw [hd]
      refine getD (fun r hr => ?_) (hnothing n)
      unfold kind? at hr
      split at hr
      · obtain ⟨entry, -, rfl⟩ := Option.map_eq_some_iff.mp hr
        exact he _
      · cases hr
    · rw [hd]
      exact hnothing n

/-! ## What is carried along -/

variable {P : TypeSet → Prop}

/-- Everything that was found is of a kind. -/
structure Findings.All (P : TypeSet → Prop) (f : Findings) : Prop where
  results : f.results.All (Results.All P)
  loopResults : f.loopResults.All (Results.All P)
  procedureResults : f.procedureResults.All (Results.All P)
  believed : f.believed.All P
  restrictions : f.restrictions.All (Restriction.All P)

structure Memory.All (P : TypeSet → Prop) (k : Memory) : Prop where
  findings : k.findings.All P
  emitted : k.emitted.All (Results.All P)
  returned : k.returned.All (Results.All P)
  looped : k.looped.All (Results.All P)

structure Moment.All (P : TypeSet → Prop) (m : Moment) : Prop where
  flow : m.flow.believed.All P
  memory : m.memory.All P

theorem Memory.all_start (package : String) : (Memory.start package).All P :=
  ⟨⟨Table.all_empty, Table.all_empty, Table.all_empty, Table.all_empty, Table.all_empty⟩, Table.all_empty,
    Table.all_empty, Table.all_empty⟩

theorem all_accumulate {waiting : Table Nat Results} {r : Results} (hw : waiting.All (Results.All P)) (hr : r.All P)
    (hP : TypeSet.Closed P) (owner : Nat) : (accumulate waiting owner r).All (Results.All P) := by
  refine hw.insert ?_
  cases hf : waiting.find? owner with
  | none => exact hr
  | some r' => exact (hw.find? hf).combine hr hP

/-! ## What the world supplies -/

namespace World

/-- What is known outside a file is of a kind: globals and operators, the results of methods
    once the receiver is put in its place, and exemplars that entries are named for. -/
structure Supplies (w : World) (P : TypeSet → Prop) : Prop where
  global {t : TypeName} {s : TypeSet} : w.definitions.global? t = some s → P s
  operator {symbol : String} {l r : TypeName} {s : TypeSet} : w.definitions.operator? symbol l r = some s → P s
  method {t : TypeName} {name : String} {m : Method} : w.definitions.method? t name = some m →
    ∀ s, s ∈ m.result.toList ∨ s ∈ m.loopResult.toList → ∀ receiver, P receiver → P (s.withReceiver receiver)
  exemplar {x : Nat} {e : Entry} {package : String} {t : TypeName} : w.scopes.entryAt? x = some e →
    t ∈ candidates package e.name → P (.single t)

variable {w : World} {f : Flow} {package : String} {types : TypeSet} {rs : List Results}

theorem all_headD (h : ∀ r ∈ rs, r.All P) : (rs.headD .unknown).All P := by
  cases rs with
  | nil => exact Results.all_unknown
  | cons r rs => exact h r (by simp)

section

variable (hP : TypeSet.Closed P)
include hP

theorem all_valuesOf (h : ∀ r ∈ rs, r.All P) : (valuesOf rs).All P := by
  rcases rs with _ | ⟨r, _ | ⟨r', rs⟩⟩
  · exact Results.all_nothing
  · exact h r (by simp)
  · intro s hs
    obtain ⟨r, hr, rfl⟩ := List.mem_map.mp hs
    exact (h r hr).get hP 0

theorem all_firstOf (h : ∀ r ∈ rs, r.All P) (i : Nat) : P (firstOf rs i) := by
  unfold firstOf
  cases hi : rs[i]? with
  | none => exact hP.undefined
  | some r => exact (h r (List.mem_of_getElem? hi)).get hP 0

theorem all_restriction {k : Memory} (hk : k.All P) (condition : Node) :
    (w.restriction k condition).All P := by
  refine Evidence.all_derive hP (fun j => ?_) condition
  dsimp only
  cases hf : k.findings.results.find? j with
  | none => exact hP.undefined
  | some r => exact (hk.findings.results.find? hf).get hP 0

theorem all_inOrderOf {before : Option TypeSet} (hb : ∀ old ∈ before, P old) (ht : P types) :
    P (inOrderOf before types) := by
  unfold inOrderOf
  split
  · rename_i old
    split
    · exact ht
    · refine hP.ofList fun t hm => ?_
      rcases List.mem_append.mp hm with hm | hm
      · exact hP.member (hb old rfl) (List.mem_filter.mp hm).1
      · exact hP.member ht (List.mem_filter.mp hm).1
  · exact ht

variable (hw : w.Supplies P) {name : String} {r : Results × Results} {inside : List Nat} {live : List Flow}
include hw

theorem all_entryTypes (hf : f.believed.All P) (entry : Nat) :
    P (w.entryTypes package f entry) := by
  unfold entryTypes
  split
  · rename_i types hfind
    exact hf.find? hfind
  · split
    · rename_i e he
      split
      · unfold globalTypes
        cases hg : (candidates package e.name).findSome? w.candidateTypes? with
        | none => exact hP.undefined
        | some s =>
          obtain ⟨t, ht, hs⟩ := List.exists_of_findSome?_eq_some hg
          unfold candidateTypes? at hs
          split at hs
          · exact Option.some.inj hs ▸ hw.exemplar he ht
          · exact hw.global hs
      · exact hP.undefined
    · exact hP.undefined

theorem all_operatorTypes (operator : BinaryOperator) (left right : TypeSet) :
    P (w.operatorTypes operator left right) := by
  unfold operatorTypes
  split
  · exact hP.undefined
  · dsimp only
    split
    · rename_i known hknown
      refine hP.ofList fun t ht => ?_
      obtain ⟨s, hs, ht⟩ := List.mem_flatMap.mp ht
      obtain ⟨pair, hpair, rfl⟩ := List.mem_filterMap.mp (mapM_eq_filterMap hknown ▸ hs)
      obtain ⟨l, -, hl⟩ := List.mem_flatMap.mp hpair
      obtain ⟨r, -, hr⟩ := List.mem_map.mp hl
      exact hP.member (hw.operator hr) ht
    · exact hP.undefined

theorem all_invokeOn (ht : P types) {t : TypeName} (hm : t ∈ types.members) (h : w.invokeOn name t = some r) :
    r.1.All P ∧ r.2.All P := by
  obtain ⟨m, hmethod, rfl⟩ := Option.map_eq_some_iff.mp h
  have hreceiver := hP.member ht hm
  exact ⟨Results.all_withReceiver fun s hs => hw.method hmethod s (.inl hs) _ hreceiver,
    Results.all_withReceiver fun s hs => hw.method hmethod s (.inr hs) _ hreceiver⟩

theorem all_invoke (ht : P types) (h : w.invoke types name = some r) : r.1.All P ∧ r.2.All P := by
  unfold invoke at h
  split at h
  · cases h
  · split at h
    · rename_i first rest hall
      have hmember : ∀ r ∈ first :: rest, r.1.All P ∧ r.2.All P := by
        intro r hr
        obtain ⟨t, hm, hr⟩ := List.mem_filterMap.mp (mapM_eq_filterMap hall ▸ hr)
        exact all_invokeOn hP hw ht hm hr
      refine Option.some.inj h ▸ List.foldlRecOn (motive := fun a : Results × Results => a.1.All P ∧ a.2.All P) rest _
        (hmember first (by simp)) fun a ha b hb => ?_
      have hb := hmember b (.tail _ hb)
      exact ⟨ha.1.combine hb.1 hP, ha.2.combine hb.2 hP⟩
    · cases h

theorem all_binaryTypes (operator : BinaryOperator) {left right : TypeSet}
    (hr : P right) : P (w.binaryTypes operator left right) := by
  have hboolean : P (.single .boolean) := hP.named _ _
  cases operator with
  | identical | notIdentical | xor => exact hboolean
  | and | andIf | or | orIf => exact hP.union hboolean hr
  | _ => exact all_operatorTypes hP hw _ _ _

theorem all_unaryResults (operator : UnaryOperator) (ht : P types) :
    (w.unaryResults operator types).All P := by
  have hinvoked (name : String) : Results.All P (((w.invoke types name).map (·.1)).getD .unknown) := by
    cases h : w.invoke types name with
    | none => exact Results.all_unknown
    | some r => exact (all_invoke hP hw ht h).1
  cases operator with
  | not | tilde => exact Results.all_single (hP.named _ _)
  | negate | plus => exact hinvoked _

theorem all_narrowed (hf : f.believed.All P) {rs : List Restriction}
    (hr : ∀ r ∈ rs, r.All P) : (w.narrowed package f rs).believed.All P := by
  have hc : ∀ x, P (w.entryTypes package f x) := all_entryTypes hP hw hf
  refine List.foldlRecOn (motive := fun g : Flow => g.believed.All P) _ _ hf fun g hg p hp => hg.insert ?_
  exact hP.narrowed (Restriction.all_combine hr hP hc p hp) (hc p.1)

theorem all_mergedTypes? (hl : ∀ f ∈ live, f.believed.All P) {entry : Nat}
    (h : w.mergedTypes? package inside live entry = some types) : P types := by
  unfold mergedTypes? at h
  dsimp only at h
  split at h
  · cases h
  · rename_i first rest hseen
    have hall : ∀ s ∈ first :: rest, P s := by
      intro s hs
      rw [← hseen] at hs
      obtain ⟨f, hf, hs⟩ := List.mem_filterMap.mp hs
      split at hs
      · rename_i types hfind
        exact Option.some.inj hs ▸ (hl f hf).find? hfind
      · split at hs
        · cases hs
        · exact Option.some.inj hs ▸ all_entryTypes hP hw (hl f hf) entry
    exact Option.some.inj h ▸ hP.unions (hall first (by simp)) fun s hs => hall s (.tail _ hs)

theorem all_mergeLive {before : Flow} (hb : before.believed.All P) (hl : ∀ f ∈ live, f.believed.All P) :
    (w.mergeLive package inside before live).believed.All P := by
  refine List.foldlRecOn (motive := Table.All P) _ _ Table.all_empty fun t ht entry _ => ?_
  split
  · rename_i types hm
    exact ht.insert (all_inOrderOf hP (fun old ho => hb.find? ho) (all_mergedTypes? hP hw hl hm))
  · exact ht

end

end World

/-! ## Nodes -/

namespace Node

variable {n : Node}

/-- The receiver itself, or a copy of it. -/
def Kind.isReceiver (k : Kind) : Bool := k = .literal .self || k = .literal .clone

/-- Wherever the receiver is named, that is inside of a method of the node. -/
def NamesOwnReceiver (n : Node) : Prop :=
  ∀ m as, Way n m as → m.kind.isReceiver = true → ∃ a ∈ as, ∃ header, a.kind = .method header

theorem NamesOwnReceiver.child {n c : Node} (h : n.NamesOwnReceiver) (hk : ∀ header, n.kind ≠ .method header)
    (hc : c ∈ n.children) : c.NamesOwnReceiver := by
  intro m as hw hm
  obtain ⟨a, ha, header, hkind⟩ := h m _ (hw.under hc) hm
  rcases List.mem_append.mp ha with ha | ha
  · exact ⟨a, ha, header, hkind⟩
  · rw [List.mem_singleton.mp ha] at hkind
    exact absurd hkind (hk header)

/-- The types that are written out in a node are of a kind: those that doc lines give to
    parameters, and those that methods are defined on. -/
structure Suits (P : TypeSet → Prop) (n : Node) : Prop where
  documented {m : Node} {as : List Node} : Way n m as → ∀ name s, m.kind.typeDoc.parameter? name = some s → P s
  exemplar {m : Node} {as : List Node} {header : MethodHeader} : Way n m as → m.kind = .method header →
    ∀ package, ∀ t ∈ World.candidates package header.exemplar, P (.single t)

theorem Suits.child {n c : Node} (h : n.Suits P) (hc : c ∈ n.children) : c.Suits P where
  documented hw := h.documented (hw.under hc)
  exemplar hw := h.exemplar (hw.under hc)

/-- In a frame whose imports are of a kind, the receiver is too, unless the node does not
    name it. -/
structure Framed (P : TypeSet → Prop) (frame : Frame) (n : Node) : Prop extends n.Suits P where
  imports : frame.imports.All P
  receiver : P frame.receiverTypes ∨ n.NamesOwnReceiver

theorem Framed.child {frame : Frame} {n c : Node} (h : n.Framed P frame) (hk : ∀ header, n.kind ≠ .method header)
    (hc : c ∈ n.children) : c.Framed P frame :=
  ⟨h.toSuits.child hc, h.imports, h.receiver.imp id fun hr => hr.child hk hc⟩

/-- The nodes that a node gives values to. -/
def given (n : Node) : List Node :=
  if n.kind.isAssignment then n.children.dropLast
  else if n.declaredName?.isSome then [n]
  else []

/-- A name that is declared is given its own value. -/
theorem given_of_declaredName? {name : String} (h : n.declaredName? = some name) : n.given = [n] := by
  have hk : n.kind.isAssignment = false := by
    cases hk : n.kind <;> simp_all [declaredName?, Kind.isAssignment]
  simp [given, hk, h]

/-- The condition that a node tests before it goes on to its body. -/
def tested? (n : Node) : Option Node :=
  match n.kind with
  | .branch | .whileLoop _ => n.children.head?
  | _ => none

theorem mem_children_of_tested? {c : Node} (h : n.tested? = some c) : c ∈ n.children := by
  unfold tested? at h
  split at h
  · exact List.mem_of_head? h
  · exact List.mem_of_head? h
  · cases h

end Node

/-! ## Invariants -/

/-- What reasoning in a world is to keep. All types on the way are of a kind, and something
    is known of the flow, of the package in force and of restrictions. Other things may be
    known of other flows; a definition has a flow of its own. -/
structure Invariant (w : World) where
  types : TypeSet → Prop
  /-- What may be known of a flow, and what is where a definition starts. -/
  Known : Type
  fresh : Known
  flow : Known → Flow → Prop
  package : String → Prop
  restriction : Restriction → Prop
  /-- The nodes that are reasoned about. -/
  node : Node → Prop
  closed : TypeSet.Closed types
  supplies : w.Supplies types
  child {n c : Node} : node n → c ∈ n.children → node c
  packaged {n : Node} {name : String} : node n → n.kind = .package name → package name
  started : flow fresh .start
  exited {κ : Known} {f : Flow} : flow κ f → flow κ f.exit
  believed {κ : Known} {f : Flow} {n c : Node} {x : Nat} {s : TypeSet} : node n → c ∈ n.given →
    w.scopes.entryOf? c.number = some x → flow κ f → flow κ (f.believe x s)
  caught {κ : Known} {f : Flow} {n : Node} {names : List String} {binding : Option String} : node n →
    n.kind = .handler names → flow κ f → flow κ (w.handlerFlow f binding n)
  narrowed {κ : Known} {f : Flow} {name : String} {rs : List Restriction} : package name → flow κ f →
    (∀ r ∈ rs, restriction r) → flow κ (w.narrowed name f rs)
  joined {κ : Known} {name : String} {inside : List Nat} {before : Flow} {live : List Flow} : package name →
    live ≠ [] → (∀ f ∈ live, f.exited = false ∧ flow κ f) → flow κ (w.mergeLive name inside before live)
  tested {n c : Node} {k : Memory} : node n → n.tested? = some c → package k.package → restriction (w.restriction k c)
  negated {r : Restriction} : restriction r → restriction r.negate

namespace Invariant

variable {w : World} (I : Invariant w)

/-- What is known along a flow. -/
structure Along (κ : I.Known) (f : Flow) : Prop where
  all : f.believed.All I.types
  flow : I.flow κ f

/-- What is known of the memory. -/
structure Within (k : Memory) : Prop where
  all : k.All I.types
  package : I.package k.package

structure Holds (κ : I.Known) (m : Moment) : Prop where
  flow : I.Along κ m.flow
  memory : I.Within m.memory

/-- Any types may be given to a name. -/
def Takes (number : Nat) : Prop :=
  ∀ ⦃κ : I.Known⦄ ⦃f : Flow⦄ ⦃x : Nat⦄ ⦃s : TypeSet⦄, w.scopes.entryOf? number = some x → I.flow κ f →
    I.flow κ (f.believe x s)

variable {I} {κ : I.Known} {f : Flow} {n c : Node} {s : TypeSet} {number : Nat} {k : Memory}

theorem takes_self (hn : I.node n) {name : String} (hd : n.declaredName? = some name) : I.Takes n.number :=
  fun _ _ _ _ => I.believed hn (by simp [Node.given_of_declaredName? hd])

theorem Along.exit (h : I.Along κ f) : I.Along κ f.exit := ⟨h.all, I.exited h.flow⟩

theorem Along.believe (h : I.Along κ f) (ht : I.Takes number) (hs : I.types s) :
    I.Along κ ((w.scopes.entryOf? number).elim f fun x => f.believe x s) := by
  cases hx : w.scopes.entryOf? number with
  | none => exact h
  | some x => exact ⟨h.all.insert hs, ht hx h.flow⟩

theorem Along.caught (h : I.Along κ f) (hn : I.node n) {names : List String} (hk : n.kind = .handler names)
    {binding : Option String} : I.Along κ (w.handlerFlow f binding n) := by
  refine ⟨?_, I.caught hn hk h.flow⟩
  unfold World.handlerFlow
  dsimp only
  split
  · exact h.all.insert (I.closed.named _ _)
  · exact h.all

/-- A restriction of which something is known. -/
structure Restricts (I : Invariant w) (r : Restriction) : Prop where
  all : r.All I.types
  known : I.restriction r

theorem Restricts.negate {r : Restriction} (h : I.Restricts r) : I.Restricts r.negate := ⟨h.all.negate, I.negated h.known⟩

theorem Within.restricts (hk : I.Within k) (hn : I.node n) (hc : n.tested? = some c) : I.Restricts (w.restriction k c) :=
  ⟨World.all_restriction I.closed hk.all c, I.tested hn hc hk.package⟩

theorem Along.narrowed (h : I.Along κ f) (hk : I.Within k) {rs : List Restriction} (hr : ∀ r ∈ rs, I.Restricts r) :
    I.Along κ (w.narrowed k.package f rs) :=
  ⟨World.all_narrowed I.closed I.supplies h.all fun r hm => (hr r hm).all,
    I.narrowed hk.package h.flow fun r hm => (hr r hm).known⟩

end Invariant

/-! ## Any types -/

theorem TypeSet.closed_true : Closed fun _ => True where
  named _ _ := trivial
  ofList _ := trivial
  member _ _ := trivial
  selected _ _ := trivial

theorem World.supplies_true (w : World) : w.Supplies fun _ => True where
  global _ := trivial
  operator _ := trivial
  method _ _ _ _ _ := trivial
  exemplar _ _ := trivial

theorem Node.framed_true (n : Node) (frame : Frame) : n.Framed (fun _ => True) frame :=
  ⟨⟨fun _ _ _ _ => trivial, fun _ _ _ _ _ => trivial⟩, fun _ _ => trivial, .inl trivial⟩

theorem Restriction.all_true (r : Restriction) : r.All fun _ => True := by
  cases r <;> trivial

theorem Moment.all_true (m : Moment) : m.All fun _ => True := by
  have hresults (t : Table Nat Results) : t.All (Results.All fun _ => True) := fun _ _ _ _ => trivial
  have hrestrictions (t : Table Nat Restriction) : t.All (Restriction.All fun _ => True) := fun p _ => p.2.all_true
  exact ⟨fun _ _ => trivial, ⟨⟨hresults _, hresults _, hresults _, fun _ _ => trivial, hrestrictions _⟩, hresults _,
    hresults _, hresults _⟩⟩

/-! ## Steps -/

/-- Reasoning keeps an invariant, and its outcome is as described. -/
def Records {w : World} (I : Invariant w) (κ : I.Known) {α : Type} (outcome : α → Prop) (p : Reason α) : Prop :=
  ∀ m : Moment, I.Holds κ m → outcome (p m).1 ∧ I.Holds κ (p m).2

namespace Records

variable {α β : Type} {A : α → Prop} {B : β → Prop} {w : World} {I : Invariant w} {κ κ' : I.Known} {f : Flow}
  {r : Results} {s : TypeSet} {number : Nat} {p : Reason α} {q : α → Reason β}

theorem bind (hp : Records I κ A p) (hq : ∀ a, A a → Records I κ B (q a)) : Records I κ B (p >>= q) := by
  intro m hm
  obtain ⟨ha, hm'⟩ := hp m hm
  exact hq (p m).1 ha (p m).2 hm'

/-- The second piece does not depend on how the first came out. -/
theorem andThen (hp : Records I κ A p) (hq : ∀ a, Records I κ B (q a)) : Records I κ B (p >>= q) :=
  hp.bind fun a _ => hq a

theorem pure {a : α} (ha : A a) : Records I κ A (pure a : Reason α) := fun _ hm => ⟨ha, hm⟩

theorem flow : Records I κ (I.Along κ) Reason.flow := fun _ hm => ⟨hm.flow, hm⟩

theorem memory : Records I κ I.Within Reason.memory := fun _ hm => ⟨hm.memory, hm⟩

theorem setFlow (hf : I.Along κ f) : Records I κ (fun _ => True) (Reason.setFlow f) :=
  fun _ hm => ⟨trivial, hf, hm.memory⟩

theorem exit : Records I κ (fun _ => True) Reason.exit := fun _ hm => ⟨trivial, hm.flow.exit, hm.memory⟩

/-- Along another flow other things may be known. -/
theorem along (hf : I.Along κ' f) (hp : Records I κ' A p) : Records I κ (I.Along κ') (Reason.along f p) := by
  intro m hm
  obtain ⟨_, hm'⟩ := hp { m with flow := f } ⟨hf, hm.memory⟩
  exact ⟨hm'.flow, hm.flow, hm'.memory⟩

theorem changeMemory {change : Memory → Memory} (h : ∀ k : Memory, k.All I.types → (change k).All I.types)
    (hp : ∀ k, (change k).package = k.package) : Records I κ (fun _ => True) (Reason.changeMemory change) :=
  fun m hm => ⟨trivial, hm.flow, h _ hm.memory.all, (hp m.memory).symm ▸ hm.memory.package⟩

theorem changeFindings {change : Findings → Findings} (h : ∀ f : Findings, f.All I.types → (change f).All I.types) :
    Records I κ (fun _ => True) (Reason.changeFindings change) :=
  changeMemory (fun _ hk => { hk with findings := h _ hk.findings }) fun _ => rfl

theorem record (hr : r.All I.types) : Records I κ (fun _ => True) (Reason.record number r) :=
  changeFindings fun _ hf => { hf with results := hf.results.insert hr }

theorem recordLoop (hr : r.All I.types) : Records I κ (fun _ => True) (Reason.recordLoop number r) :=
  changeFindings fun _ hf => { hf with loopResults := hf.loopResults.insert hr }

theorem recordProcedure (hr : r.All I.types) : Records I κ (fun _ => True) (Reason.recordProcedure number r) :=
  changeFindings fun _ hf => { hf with procedureResults := hf.procedureResults.insert hr }

theorem recordRestriction {r : Restriction} (hr : I.Restricts r) :
    Records I κ (fun _ => True) (Reason.recordRestriction number r) :=
  changeFindings fun _ hf => { hf with restrictions := hf.restrictions.insert hr.all }

theorem settle {believed : Table Nat TypeSet} (hb : believed.All I.types) :
    Records I κ (fun _ => True) (Reason.settle believed) :=
  changeFindings fun _ hf => { hf with believed := hf.believed.insertAll hb }

theorem retire {outer inner : Flow} (hi : inner.believed.All I.types) :
    Records I κ (fun _ => True) (Reason.retire outer inner) :=
  settle (hi.filter _)

theorem emit (hr : r.All I.types) : Records I κ (fun _ => True) (Reason.emit number r) :=
  changeMemory (fun _ hk => { hk with emitted := all_accumulate hk.emitted hr I.closed number }) fun _ => rfl

theorem giveBack (hr : r.All I.types) : Records I κ (fun _ => True) (Reason.giveBack number r) :=
  changeMemory (fun _ hk => { hk with returned := all_accumulate hk.returned hr I.closed number }) fun _ => rfl

theorem loopWith (hr : r.All I.types) : Records I κ (fun _ => True) (Reason.loopWith number r) :=
  changeMemory (fun _ hk => { hk with looped := all_accumulate hk.looped hr I.closed number }) fun _ => rfl

/-- What waits for a node is taken out of a table. -/
theorem all_taken {waiting : Table Nat Results} (h : waiting.All (Results.All P)) (number : Nat) :
    ((waiting.find? number).getD .nothing).All P := by
  cases hf : waiting.find? number with
  | none => exact Results.all_nothing
  | some r => exact h.find? hf

theorem takeEmitted (number : Nat) : Records I κ (Results.All I.types) (Reason.takeEmitted number) := by
  intro m hm
  have hall := hm.memory.all
  exact ⟨all_taken hall.emitted number, hm.flow, { hall with emitted := hall.emitted.erase }, hm.memory.package⟩

theorem takeReturned (number : Nat) : Records I κ (Results.All I.types) (Reason.takeReturned number) := by
  intro m hm
  have hall := hm.memory.all
  exact ⟨all_taken hall.returned number, hm.flow, { hall with returned := hall.returned.erase }, hm.memory.package⟩

theorem takeLooped (number : Nat) : Records I κ (∀ r ∈ ·, r.All I.types) (Reason.takeLooped number) := by
  intro m hm
  have hall := hm.memory.all
  exact ⟨fun _ hr => hall.looped.find? hr, hm.flow, { hall with looped := hall.looped.erase }, hm.memory.package⟩

theorem listForM {as : List α} {q : α → Reason Unit} (h : ∀ a ∈ as, Records I κ (fun _ => True) (q a)) :
    Records I κ (fun _ => True) (as.forM q) := by
  induction as with
  | nil => exact pure trivial
  | cons a as ih => exact (h a (by simp)).andThen fun _ => ih fun b hb => h b (.tail _ hb)

theorem optionForM {o : Option α} {q : α → Reason Unit} (h : ∀ a ∈ o, Records I κ (fun _ => True) (q a)) :
    Records I κ (fun _ => True) (o.forM q) := by
  cases o with
  | none => exact pure trivial
  | some a => exact h a rfl

/-- What a node gives back is noted at it. -/
theorem noted {p : Reason Results} (h : Records I κ (Results.All I.types) p) :
    Records I κ (Results.All I.types) (World.noted number p) :=
  h.bind fun _ hr => (record hr).andThen fun _ => pure hr

theorem assign (procedure : Option Nat) (ht : I.Takes number) (hs : I.types s) :
    Records I κ (fun _ => True) (w.assign number procedure s) := by
  have hrecord : Records I κ (fun _ => True) (Reason.record number (.single s)) := record (Results.all_single hs)
  unfold World.assign
  cases hx : w.scopes.entryOf? number with
  | none => exact hrecord
  | some entry =>
    have hmemory : Records I κ (fun _ => True) (Reason.changeMemory fun k =>
        { k with procedures := procedure.elim (k.procedures.erase entry) (k.procedures.insert entry) }) :=
      changeMemory (fun _ hk => { hk with }) fun _ => rfl
    have hbelieve : Records I κ (fun _ => True) (Reason.believe entry s) := fun _ hm =>
      ⟨trivial, ⟨hm.flow.all.insert hs, ht hx hm.flow.flow⟩, hm.memory⟩
    exact (hmemory.andThen fun _ => hbelieve).andThen fun _ => hrecord

theorem assignEach (hr : r.All I.types) {targets : List Node} (ht : ∀ c ∈ targets, I.Takes c.number) (index : Nat) :
    Records I κ (fun _ => True) (w.assignEach r index targets) := by
  induction targets generalizing index with
  | nil => exact pure trivial
  | cons c targets ih =>
    refine (assign none (ht c (by simp)) (hr.get I.closed index)).andThen fun _ => ?_
    exact ih (fun d hd => ht d (.tail _ hd)) (index + 1)

theorem readName (number : Nat) : Records I κ (Results.All I.types) (w.readName number) := by
  unfold World.readName
  cases w.scopes.entryOf? number with
  | none => exact pure (Results.all_single I.closed.undefined)
  | some entry =>
    exact memory.andThen fun _ => flow.bind fun f hf =>
      pure (Results.all_single (World.all_entryTypes I.closed I.supplies hf.all entry))

theorem undeclaredTypes {around : Around} (hi : around.frame.imports.All I.types) (modifier : Modifier) (number : Nat) :
    Records I κ I.types (w.undeclaredTypes around modifier number) := by
  have hlooked : Records I κ I.types (do
      return ((w.scopes.entryOf? number).map (w.entryTypes (← Reason.memory).package (← Reason.flow))).getD .undefined) := by
    refine memory.andThen fun k => flow.bind fun f hf => pure ?_
    cases w.scopes.entryOf? number with
    | none => exact I.closed.undefined
    | some entry => exact World.all_entryTypes I.closed I.supplies hf.all entry
  unfold World.undeclaredTypes
  cases modifier with
  | global => exact hlooked
  | dynamic => exact hlooked
  | imported =>
    refine pure ?_
    cases h : (((w.scopes.entryOf? number).bind w.scopes.entryAt?).bind (·.imported)).bind around.frame.imports.find? with
    | none => exact I.closed.undefined
    | some types =>
      obtain ⟨target, -, hfind⟩ := Option.bind_eq_some_iff.mp h
      exact hi.find? hfind
  | _ => exact pure I.closed.unset

theorem invocation (around : Around) (number : Nat) (name : String) (children : List Node) {rs : List Results}
    (hr : ∀ r ∈ rs, r.All I.types) :
    Records I κ (Results.All I.types) (w.invocation around number name children rs) := by
  have hfirst := World.all_firstOf I.closed hr 0
  unfold World.invocation
  cases h : w.invoke (World.firstOf rs 0) name with
  | none =>
    dsimp only
    split
    · exact exit.andThen fun _ => pure Results.all_unknown
    · exact pure Results.all_unknown
  | some found =>
    obtain ⟨result, rounds⟩ := found
    obtain ⟨hresult, hrounds⟩ := World.all_invoke I.closed I.supplies hfirst h
    have hinvoked : Records I κ (Results.All I.types) do
        unless rounds.toList.isEmpty do Reason.recordLoop number rounds
        return result := by
      dsimp only
      split
      · exact pure hresult
      · exact (recordLoop hrounds).andThen fun _ => pure hresult
    dsimp only at hinvoked ⊢
    split
    · exact exit.andThen fun _ => hinvoked
    · exact hinvoked

theorem call (number : Nat) (children : List Node) : Records I κ (Results.All I.types) (w.call number children) := by
  unfold World.call
  refine memory.bind fun k hk => ?_
  split
  · exact pure Results.all_unknown
  · rename_i procedure _
    have hresult : ((k.findings.procedureResults.find? procedure).getD .unknown).All I.types := by
      cases hf : k.findings.procedureResults.find? procedure with
      | none => exact Results.all_unknown
      | some r => exact hk.all.findings.procedureResults.find? hf
    dsimp only
    split
    · rename_i rounds hf
      exact (recordLoop (hk.all.findings.loopResults.find? hf)).andThen fun _ => pure hresult
    · exact pure hresult

theorem deliver (around : Around) (kind : Node.Kind) (hr : r.All I.types) :
    Records I κ (fun _ => True) (World.deliver around kind r) := by
  unfold World.deliver
  split
  · exact (optionForM fun _ _ => giveBack hr).andThen fun _ => exit
  · refine optionForM fun p _ => ?_
    dsimp only
    split
    · exact giveBack hr
    · exact emit hr
  · exact (optionForM fun _ _ => emit hr).andThen fun _ => exit
  · exact optionForM fun _ _ => loopWith hr
  · exact pure trivial

theorem finish (number : Nat) : Records I κ (Results.All I.types) (World.finish number) :=
  (takeLooped number).bind fun _ hr => (optionForM fun r hm => recordLoop (hr r hm)).andThen fun _ => takeReturned number

theorem loopVariables {rounds : Option Results} (hr : ∀ r ∈ rounds, r.All I.types) {vars : List Node}
    (ht : ∀ c ∈ vars, I.Takes c.number) (index : Nat) (hf : I.Along κ' f) :
    Records I κ (I.Along κ') (w.loopVariables rounds index f vars) := by
  induction vars generalizing index f with
  | nil => exact pure hf
  | cons c vars ih =>
    have htypes : I.types ((rounds.map (·.get index)).getD .undefined) := by
      cases rounds with
      | none => exact I.closed.undefined
      | some r => exact (hr r rfl).get I.closed index
    have hc := ht c (by simp)
    refine (record (Results.all_single htypes)).andThen fun _ => ?_
    exact ih (fun d hd => ht d (.tail _ hd)) (index + 1) (hf.believe hc htypes)

theorem parameters {doc : TypeDoc} (hd : ∀ name s, doc.parameter? name = some s → I.types s) {ps : List Node}
    {p : Reason Flow} (h : World.BindsParameters w doc f ps p) (hn : ∀ c ∈ ps, I.node c) (hf : I.Along κ' f) :
    Records I κ (I.Along κ') p := by
  have htypes : ∀ name mode, I.types (World.parameterTypes doc name mode) := by
    intro name mode
    have hdoc : I.types ((doc.parameter? name).getD .undefined) := by
      cases h : doc.parameter? name with
      | none => exact I.closed.undefined
      | some s => exact hd name s h
    cases mode with
    | gather => exact I.closed.named _ _
    | optional => exact I.closed.union hdoc I.closed.unset
    | required | assigned => exact hdoc
  induction h with
  | nil => exact pure hf
  | @cons f number name mode span rest p _ ih =>
    have hc : I.Takes number :=
      Invariant.takes_self (hn ⟨number, .parameter name mode, span, []⟩ (by simp)) (Node.declaredName?_parameter rfl)
    refine (record (Results.all_single (htypes name mode))).andThen fun _ => ?_
    exact ih (fun d hd => hn d (.tail _ hd)) (hf.believe hc (htypes name mode))

theorem merge (inside : List Nat) {before : Flow} {outcomes : List Flow} (hb : I.Along κ before)
    (ho : ∀ f ∈ outcomes, I.Along κ f) : Records I κ (fun _ => True) (w.merge inside before outcomes) := by
  have hmem {f : Flow} {keep : Flow → Bool} (hf : f ∈ outcomes.filter keep) : I.Along κ f := ho f (List.mem_of_mem_filter hf)
  refine (listForM fun f hf => retire (hmem hf).all).andThen fun _ => ?_
  split
  · exact setFlow hb.exit
  · rename_i live hlive
    refine memory.bind fun k hk => setFlow ⟨World.all_mergeLive I.closed I.supplies hb.all fun f hf => (hmem hf).all, ?_⟩
    refine I.joined hk.package hlive fun f hf => ⟨?_, (hmem hf).flow⟩
    simpa using (List.mem_filter.mp hf).2

end Records

/-! ## Reasoning by the rules -/

namespace World

variable {w : World} {I : Invariant w} {number : Nat} {span : Span} {parts : List Node} {around : Around} {kind : Node.Kind}
  {κ : I.Known} {close : Results → Reason Results} {rs : List Results} {heads : List Node} {body : Node}

theorem all_literalTypes (hP : TypeSet.Closed P) {frame : Frame} {value : Literal}
    (h : Node.Framed P frame ⟨number, .literal value, span, parts⟩) : P (literalTypes frame value) := by
  have hreceiver (hk : (Node.Kind.literal value).isReceiver = true) : P frame.receiverTypes := by
    refine h.receiver.resolve_right fun hr => ?_
    obtain ⟨a, ha, -⟩ := hr _ _ .root hk
    cases ha
  cases value with
  | self | clone => exact hreceiver rfl
  | super => exact hP.undefined
  | thisThread =>
    refine hP.ofList fun t ht => ?_
    rcases List.mem_pair.mp ht with rfl | rfl <;> exact hP.named _ _
  | integer value =>
    rw [literalTypes]
    split <;> exact hP.named _ _
  | _ => exact hP.named _ _

theorem all_exemplar (hP : TypeSet.Closed P) {package name : String} (h : ∀ t ∈ candidates package name, P (.single t)) :
    P (.single (w.exemplar package name)) := by
  unfold exemplar
  dsimp only
  cases hf : ((candidates package name).find? fun t => (w.definitions.exemplar? t).isSome).or (candidates package name).head? with
  | none => exact hP.undefined
  | some t =>
    rcases Option.or_eq_some_iff.mp hf with hf | ⟨-, hf⟩
    · exact h t (List.mem_of_find?_eq_some hf)
    · exact h t (List.mem_of_mem_head? hf)

theorem all_made {make : List Results → Results} (h : w.made? around kind = some make)
    (hn : Node.Framed I.types around.frame ⟨number, kind, span, parts⟩) (hr : ∀ r ∈ rs, r.All I.types) :
    (make rs).All I.types := by
  cases kind with
  | literal =>
    cases h
    exact Results.all_single (all_literalTypes I.closed hn)
  | syntaxError =>
    cases h
    exact Results.all_unknown
  | vector =>
    cases h
    exact Results.all_single (I.closed.named _ _)
  | binary operator =>
    cases h
    exact Results.all_single (all_binaryTypes I.closed I.supplies operator (all_firstOf I.closed hr 1))
  | unary operator =>
    cases h
    exact all_unaryResults I.closed I.supplies operator (all_firstOf I.closed hr 0)
  | body | handler =>
    cases h
    exact Results.all_nothing
  | _ => cases h

/-- What a node does last, on its own account. -/
theorem Closes.records {q : List Results → Reason Results} (h : Closes w around number kind heads parts q)
    (hn : Node.Framed I.types around.frame ⟨number, kind, span, heads ++ parts⟩)
    (hi : I.node ⟨number, kind, span, heads ++ parts⟩) (hr : ∀ r ∈ rs, r.All I.types) :
    Records I κ (Results.All I.types) (q rs) := by
  have htakes : ∀ c ∈ Node.given ⟨number, kind, span, heads ++ parts⟩, I.Takes c.number := fun c hc _ _ _ _ =>
    I.believed hi hc
  cases h with
  | made h => exact .pure (all_made h hn hr)
  | package =>
    refine Records.andThen (A := fun _ => True) (fun m hm => ?_) fun _ => .pure Results.all_nothing
    have hall := hm.memory.all
    exact ⟨trivial, hm.flow, ⟨hall.findings, hall.emitted, hall.returned, hall.looped⟩, I.packaged hi rfl⟩
  | name => exact .readName number
  | invocation => exact .invocation around number _ _ hr
  | call => exact .call number _
  | deliver => exact (Records.deliver around kind (all_valuesOf I.closed hr)).andThen fun _ => .pure Results.all_nothing
  | depart => exact Records.exit.andThen fun _ => .pure Results.all_nothing
  | enclosure => exact .takeEmitted _
  | @assignment target =>
    have htarget := htakes target (by simp [Node.given, Node.Kind.isAssignment])
    exact (Records.assign _ htarget (all_firstOf I.closed hr 0)).andThen fun _ => .pure (all_headD hr)
  | @augmented operator target =>
    have htarget := htakes target (by simp [Node.given, Node.Kind.isAssignment])
    have htypes := all_operatorTypes I.closed I.supplies operator (firstOf rs 0) (firstOf rs 1)
    exact (Records.assign _ htarget htypes).andThen fun _ => .pure (Results.all_single htypes)
  | several =>
    have htargets : ∀ c ∈ heads, I.Takes c.number := fun c hc => htakes c (by simp [Node.given, Node.Kind.isAssignment, hc])
    exact (Records.assignEach (all_headD hr) htargets 0).andThen fun _ => .pure (all_headD hr)
  | shared ht =>
    have hvars : ∀ c ∈ heads, I.Takes c.number := fun c hc =>
      let ⟨⟨_, hk⟩, _⟩ := ht c hc
      Invariant.takes_self (I.child hi (by simp [hc])) (Node.declaredName?_declared hk)
    exact (Records.assignEach (all_headD hr) hvars 0).andThen fun _ => .pure (all_headD hr)

theorem Starts.records {tests : List Node} {start : Flow → Reason Flow}
    (h : Starts w kind heads tests start) (hv : ∀ c ∈ heads, I.node c)
    (ht : ∀ c, Node.tested? ⟨number, kind, span, heads ++ (tests ++ [body])⟩ = some c → ∀ k, I.Within k →
      I.Restricts (w.restriction k c)) {before : Flow} (hb : I.Along κ before) : Records I κ (I.Along κ) (start before) := by
  have htakes : ∀ c ∈ heads, I.Takes c.number := fun c hc =>
    let ⟨_, hk⟩ := h.variable c hc
    Invariant.takes_self (hv c hc) (Node.declaredName?_loopVariable hk)
  cases h with
  | forLoop =>
    exact Records.memory.bind fun k hk => .loopVariables (fun r hr => hk.all.findings.loopResults.find? hr) htakes 0 hb
  | @whileLoop label condition =>
    refine Records.memory.bind fun k hk => ?_
    have hr := ht condition rfl k hk
    exact (Records.recordRestriction hr).andThen fun _ => .pure (hb.narrowed hk (by simpa using hr))
  | plainLoop => exact .pure hb

/-- A method brings its own receiver along. -/
theorem Defines.framed {list : Node} {framed : Reason Frame} (h : Defines w around number kind framed close)
    (hn : Node.Framed I.types around.frame ⟨number, kind, span, [list, body]⟩) :
    Records I κ (fun frame => body.Framed I.types frame) framed := by
  cases h with
  | method =>
    refine Records.memory.andThen fun k => .pure ⟨hn.toSuits.child (by simp), Table.all_empty, .inl ?_⟩
    exact all_exemplar I.closed (hn.exemplar .root rfl k.package)
  | procedure =>
    have hinner := hn.child (c := body) (by simp) (by simp)
    exact Records.flow.bind fun f hf => .pure ⟨hinner.toSuits, hn.imports.insertAll hf.all, hinner.receiver⟩

theorem Defines.records {framed : Reason Frame} (h : Defines w around number kind framed close) {r : Results}
    (hr : r.All I.types) : Records I κ (Results.All I.types) (close r) := by
  cases h with
  | method => exact .pure hr
  | procedure => exact (Records.recordProcedure hr).andThen fun _ => .pure (Results.all_single (I.closed.named _ _))

mutual

/-- By induction on the rules. A definition starts with a flow of which the least is known. -/
theorem Reasons.records {around : Around} {n : Node} {p : Reason Results} (h : Reasons w around n p)
    (hn : n.Framed I.types around.frame) (hi : I.node n) (κ : I.Known) : Records I κ (Results.All I.types) p := by
  have hic : ∀ c ∈ n.children, I.node c := fun c hc => I.child hi hc
  match h with
  | .straight hs hq =>
    have hparts := hs.records (fun c hc => hn.child (fun _ => hq.kind_ne rfl) (List.mem_append_right _ hc))
      (fun c hc => hic c (List.mem_append_right _ hc)) κ
    exact .noted (hparts.bind fun rs hr => hq.records hn hi hr)
  | .separate h =>
    exact .noted (h.records Results.all_nothing hn.imports (fun c hc => hn.child (by simp) hc) hic κ)
  | .conditional h =>
    refine .noted (Records.flow.bind fun before hb => ?_)
    refine ((h before).records hb (by simp) (fun c hc => hn.child (by simp) hc) hic).bind fun outcomes ho => ?_
    exact (Records.merge _ hb ho).andThen fun _ => .takeEmitted _
  | @Reasons.loop _ _ number kind span heads tests body ps start q hs ht hq =>
    have hk : ∀ header, kind ≠ .method header := by cases ht <;> simp
    have htests := hs.records (fun c hc => hn.child hk (by simp [hc])) (fun c hc => hic c (by simp [hc])) κ
    have hbody := hq.records (hn.child hk (by simp)) (hic body (by simp)) κ
    have hvars : ∀ c ∈ heads, I.node c := fun c hc => hic c (by simp [hc])
    have htested := fun c (hc : Node.tested? ⟨number, kind, span, heads ++ (tests ++ [body])⟩ = some c) k (hk : I.Within k) =>
      hk.restricts hi hc
    refine .noted (htests.andThen fun _ => Records.flow.bind fun before hb => (ht.records hvars htested hb).bind fun _ hf => ?_)
    exact (Records.along hf hbody).bind fun _ ha => (Records.retire ha.all).andThen fun _ => .takeEmitted _
  | @Reasons.attempt _ _ number span body handlers p binding bound ps hv _ h hs =>
    have hbody := h.records (hn.child (by simp) (by simp)) (hic body (by simp)) κ
    refine .noted (Records.flow.bind fun before hb => ?_)
    refine (Records.optionForM fun _ _ => .record (Results.all_single (I.closed.named _ _))).andThen fun _ => ?_
    have hhandlers := (hs before).records hb (fun c hc => hn.child (by simp) (by simp [hc])) fun c hc => hic c (by simp [hc])
    refine (Records.along hb hbody).bind fun outcome ho => hhandlers.bind fun outcomes hos => ?_
    exact (Records.merge _ hb (List.forall_mem_cons.mpr ⟨ho, hos⟩)).andThen fun _ => .takeEmitted _
  | @Reasons.definition _ _ number kind span list body framed close p q hd hp hq =>
    refine .noted ((hd.framed hn).bind fun frame hframe => ?_)
    have hbody := (hq frame).records hframe (hic body (by simp)) I.fresh
    refine (Records.parameters (hn.documented .root) hp (fun c hc => I.child (hic list (by simp)) hc)
      ⟨Table.all_empty, I.started⟩).bind fun start hstart => (Records.along hstart hbody).bind fun _ ha => ?_
    exact (Records.settle ha.all).andThen fun _ => (Records.finish number).bind fun r hr => hd.records hr

theorem ReasonsEach.records {around : Around} {ns : List Node} {ps : Reason (List Results)} (h : ReasonsEach w around ns ps)
    (hn : ∀ n ∈ ns, n.Framed I.types around.frame) (hi : ∀ n ∈ ns, I.node n) (κ : I.Known) :
    Records I κ (∀ r ∈ ·, r.All I.types) ps := by
  match h with
  | .nil => exact .pure (by simp)
  | @ReasonsEach.cons _ _ n ns p ps h hs =>
    have hfirst := h.records (hn n (by simp)) (hi n (by simp)) κ
    have hrest := hs.records (fun m hm => hn m (.tail _ hm)) (fun m hm => hi m (.tail _ hm)) κ
    exact hfirst.bind fun r hr => hrest.bind fun rs hrs => .pure (List.forall_mem_cons.mpr ⟨hr, hrs⟩)

theorem ReasonsVariables.records {around : Around} {modifier : Modifier} {last : Results} {ns : List Node}
    {p : Reason Results} (h : ReasonsVariables w around modifier last ns p) (hl : last.All I.types)
    (himports : around.frame.imports.All I.types) (hn : ∀ n ∈ ns, n.Framed I.types around.frame)
    (hi : ∀ n ∈ ns, I.node n) (κ : I.Known) : Records I κ (Results.All I.types) p := by
  match h with
  | .nil => exact .pure hl
  | @ReasonsVariables.valued _ _ _ _ number name span value ns p q h hs =>
    have hv : Node.Framed I.types around.frame ⟨number, .declared name, span, [value]⟩ := hn _ (by simp)
    have hiv : I.node ⟨number, .declared name, span, [value]⟩ := hi _ (by simp)
    refine (h.records (hv.child (by simp) (by simp)) (I.child hiv (by simp)) κ).bind fun r hr => ?_
    have htakes : I.Takes number := Invariant.takes_self hiv (Node.declaredName?_declared rfl)
    refine (Records.assign _ htakes (hr.get I.closed 0)).andThen fun _ => ?_
    exact (hs r).records hr himports (fun m hm => hn m (.tail _ hm))
      (fun m hm => hi m (.tail _ hm)) κ
  | @ReasonsVariables.bare _ _ _ _ number name span ns p hs =>
    have hiv : I.node ⟨number, .declared name, span, []⟩ := hi _ (by simp)
    have htakes : I.Takes number := Invariant.takes_self hiv (Node.declaredName?_declared rfl)
    refine (Records.undeclaredTypes himports modifier number).bind fun types ht => ?_
    refine (Records.assign _ htakes ht).andThen fun _ => ?_
    exact hs.records hl himports (fun m hm => hn m (.tail _ hm)) (fun m hm => hi m (.tail _ hm)) κ

theorem ReasonsBranches.records {around : Around} {before : Flow} {denied : List Restriction} {ns : List Node}
    {p : Reason (List Flow)} (h : ReasonsBranches w around before denied ns p) {κ : I.Known} (hb : I.Along κ before)
    (hd : ∀ r ∈ denied, I.Restricts r) (hn : ∀ n ∈ ns, n.Framed I.types around.frame) (hi : ∀ n ∈ ns, I.node n) :
    Records I κ (∀ f ∈ ·, I.Along κ f) p := by
  match h with
  | .nil => exact Records.memory.bind fun k hk => .pure (by simpa using hb.narrowed hk hd)
  | @ReasonsBranches.branch _ _ _ _ number span condition body ns p q rest hp hq hs =>
    have hbranch : Node.Framed I.types around.frame ⟨number, .branch, span, [condition, body]⟩ := hn _ (by simp)
    have hib : I.node ⟨number, .branch, span, [condition, body]⟩ := hi _ (by simp)
    have hcondition := hp.records (hbranch.child (by simp) (by simp)) (I.child hib (by simp)) κ
    have hbody := hq.records (hbranch.child (by simp) (by simp)) (I.child hib (by simp)) κ
    refine Records.memory.bind fun k hk => (Records.along (hb.narrowed hk hd) hcondition).bind fun tested ht => ?_
    refine Records.memory.bind fun k' hk' => ?_
    have hr := hk'.restricts hib (c := condition) rfl
    have hin : I.Along κ (w.narrowed k.package tested (denied ++ [w.restriction k' condition])) :=
      ht.narrowed hk (List.forall_mem_append.mpr ⟨hd, by simpa using hr⟩)
    refine (Records.along hin hbody).bind fun outcome ho => (Records.recordRestriction hr).andThen fun _ => ?_
    refine ((hs _).records hb ?_ (fun m hm => hn m (.tail _ hm))
      fun m hm => hi m (.tail _ hm)).bind fun outcomes hos => ?_
    · exact List.forall_mem_append.mpr ⟨hd, by simpa using hr.negate⟩
    · exact .pure (List.forall_mem_cons.mpr ⟨ho, hos⟩)
  | @ReasonsBranches.otherwise _ _ _ _ number span body p h =>
    have hotherwise : Node.Framed I.types around.frame ⟨number, .otherwise, span, [body]⟩ := hn _ (by simp)
    have hio : I.node ⟨number, .otherwise, span, [body]⟩ := hi _ (by simp)
    have hbody := h.records (hotherwise.child (by simp) (by simp)) (I.child hio (by simp)) κ
    refine Records.memory.bind fun k hk => (Records.along (hb.narrowed hk hd) hbody).bind fun outcome ho => ?_
    exact .pure (by simpa using ho)

theorem ReasonsHandlers.records {around : Around} {before : Flow} {binding : Option String} {ns : List Node}
    {p : Reason (List Flow)} (h : ReasonsHandlers w around before binding ns p) {κ : I.Known} (hb : I.Along κ before)
    (hn : ∀ n ∈ ns, n.Framed I.types around.frame) (hi : ∀ n ∈ ns, I.node n) : Records I κ (∀ f ∈ ·, I.Along κ f) p := by
  match h with
  | .nil => exact .pure (by simp)
  | @ReasonsHandlers.cons _ _ _ _ handler names ns p ps hk h hs =>
    have hih := hi handler (by simp)
    refine (Records.along (hb.caught hih hk) (h.records (hn handler (by simp)) hih κ)).bind fun outcome ho => ?_
    refine (hs.records hb (fun m hm => hn m (.tail _ hm))
      fun m hm => hi m (.tail _ hm)).bind fun outcomes hos => ?_
    exact .pure (List.forall_mem_cons.mpr ⟨ho, hos⟩)

end

/-- Of all else anything may be known: the types are of a kind. -/
def ofKind (w : World) (hP : TypeSet.Closed P) (hw : w.Supplies P) : Invariant w where
  types := P
  Known := Unit
  fresh := ()
  flow _ _ := True
  package _ := True
  restriction _ := True
  node _ := True
  closed := hP
  supplies := hw
  child _ _ := trivial
  packaged _ _ := trivial
  started := trivial
  exited _ := trivial
  believed _ _ _ _ := trivial
  caught _ _ _ := trivial
  narrowed _ _ _ := trivial
  joined _ _ _ := trivial
  tested _ _ _ := trivial
  negated _ := trivial

/-- Everything that is found in a file is of a kind that the file and its world suit. -/
theorem findings_all {tree : SyntaxTree} (h : tree.FormedFile) (hP : TypeSet.Closed P) (hw : w.Supplies P)
    (hs : tree.root.Suits P) (hr : P (.single .receiver) ∨ tree.root.NamesOwnReceiver) (package : String) :
    (w.findings package tree).All P := by
  obtain ⟨p, hp, he⟩ := findings_by_rules h w package
  have hroot : tree.root.Framed P .outermost := ⟨hs, Table.all_empty, hr⟩
  have hitems := hp.records (I := ofKind w hP hw) (fun c hc => hroot.child (by simp [h.file]) hc) (fun _ _ => trivial) ()
  have hrun : Records (ofKind w hP hw) () (fun _ => True) (do let _ ← p; Reason.settle (← Reason.flow).believed : Reason Unit) :=
    hitems.andThen fun _ => Records.flow.bind fun _ hf => .settle hf.all
  rw [he]
  exact (hrun _ ⟨⟨Table.all_empty, trivial⟩, Memory.all_start package, trivial⟩).2.memory.all.findings

end World

end Magik
