/-
  Magik.Proofs.Types.Closed — kinds of sets that the operations on sets do not leave.

  A kind of sets is closed if sets of types that are of the kind each on its own are of the
  kind, and so are some members of a set of the kind (`Closed`). Every operation makes its
  sets in these ways. Being well-formed is such a kind, so all sets that can be obtained
  are well-formed (`Obtainable.wellFormed`); being without the stand-in for the receiver is
  another (`closed_grounded`).
-/

import Magik.Narrowing.Restriction
import Magik.Proofs.Types.Cover
import Magik.Types.Results

namespace Magik

namespace TypeSet

variable {a b s : TypeSet}

/-- The second set has some members of the first, of which something is known. -/
structure Selects (a s : TypeSet) : Prop where
  known : ¬ a.isUndefined = true
  nonempty : s.members ≠ []
  sublist : s.members.Sublist a.members

/-- What two sets share is one of them, if the other is undefined, or some of the first. -/
theorem intersect_cases (h : a.intersect b = some s) : s = b ∨ s = a ∨ a.Selects s := by
  unfold intersect at h
  split at h
  · exact .inl (Option.some.inj h).symm
  · rename_i hu
    split at h
    · exact .inr (.inl (Option.some.inj h).symm)
    · split at h
      · cases h
      · rename_i hne
        exact .inr (.inr (Option.some.inj h ▸ ⟨hu, hne, List.filter_sublist⟩))

theorem selects_of_difference (h : a.difference b = some s) : a.Selects s := by
  unfold difference at h
  split at h
  · cases h
  · rename_i hu
    dsimp only at h
    split at h
    · cases h
    · rename_i hl
      rw [Bool.or_eq_true, not_or] at hu
      exact Option.some.inj h ▸ ⟨hu.1, fun hnil => hl (.inr hnil), List.filter_sublist⟩

/-- A kind of sets that the operations do not leave. -/
structure Closed (P : TypeSet → Prop) : Prop where
  named (package : Option String) (name : String) : P (single (.named package name))
  ofList {ts : List TypeName} : (∀ t ∈ ts, P (single t)) → P (ofList ts)
  member {s : TypeSet} {t : TypeName} : P s → t ∈ s.members → P (single t)
  selected {a s : TypeSet} : P a → a.Selects s → P s

namespace Closed

variable {P : TypeSet → Prop} {a b s : TypeSet}

section

variable (hP : Closed P)
include hP

theorem undefined : P .undefined := hP.ofList fun t (ht : t ∈ []) => nomatch ht

theorem unset : P .unset := hP.named _ _

theorem union (ha : P a) (hb : P b) : P (a.union b) := by
  unfold TypeSet.union
  split
  · exact hP.undefined
  · refine hP.ofList fun t ht => ?_
    rcases List.mem_append.mp ht with ht | ht
    · exact hP.member ha ht
    · exact hP.member hb ht

theorem unions {first : TypeSet} {rest : List TypeSet} (hf : P first) (hr : ∀ s ∈ rest, P s) :
    P (rest.foldl TypeSet.union first) :=
  List.foldlRecOn rest _ hf fun _ hu s hs => hP.union hu (hr s hs)

theorem intersect (ha : P a) (hb : P b) (h : a.intersect b = some s) : P s := by
  rcases intersect_cases h with rfl | rfl | hs
  · exact hb
  · exact ha
  · exact hP.selected ha hs

theorem difference (ha : P a) (h : a.difference b = some s) : P s :=
  hP.selected ha (selects_of_difference h)

theorem getD_difference (ha : P a) : P ((a.difference b).getD a) := by
  cases h : a.difference b with
  | none => exact ha
  | some s => exact hP.difference ha h

theorem withReceiver (ha : P a) (hb : P b) : P (a.withReceiver b) := by
  unfold TypeSet.withReceiver
  split
  · refine hP.ofList fun t ht => ?_
    obtain ⟨u, hu, ht⟩ := List.mem_flatMap.mp ht
    split at ht
    · exact hP.member hb ht
    · rw [List.mem_singleton.mp ht]
      exact hP.member ha hu
  · exact ha

theorem narrowed {n : Narrowing} (hn : ∀ a, n = .replace a ∨ n = .remove a → P a) (hs : P s) :
    P (n.apply s) := by
  cases n with
  | replace a => exact hn a (.inl rfl)
  | remove a => exact hP.getD_difference hs
  | unknown => exact hP.undefined

end

end Closed

/-! ## Well-formed sets -/

/-- Not empty, no member twice, and nothing beside the member that stands for not knowing. -/
structure WellFormed (s : TypeSet) : Prop where
  nonempty : s.members ≠ []
  nodup : s.members.Nodup
  alone : .undefined ∈ s.members → s.members = [.undefined]

theorem wellFormed_ofList (ts : List TypeName) : (ofList ts).WellFormed := by
  unfold ofList
  split
  · exact ⟨by simp [undefined], by simp [undefined], fun _ => rfl⟩
  · rename_i h
    refine ⟨fun hnil => h (.inl ?_), nodup_distinct ts, fun hu => absurd (.inr ((mem_distinct _ _).mp hu)) h⟩
    refine List.eq_nil_iff_forall_not_mem.mpr fun t ht => ?_
    have hm : t ∈ distinct ts := (mem_distinct t ts).mpr ht
    rw [show distinct ts = [] from hnil] at hm
    cases hm

theorem WellFormed.ofList_members {s : TypeSet} (h : s.WellFormed) : ofList s.members = s := by
  by_cases hu : .undefined ∈ s.members
  · rw [h.alone hu]
    exact congrArg TypeSet.mk (h.alone hu).symm
  · rw [ofList, if_neg (by simp [h.nonempty, hu]), distinct_of_nodup h.nodup]

theorem closed_wellFormed : Closed WellFormed where
  named _ _ := wellFormed_ofList _
  ofList _ := wellFormed_ofList _
  member _ _ := wellFormed_ofList _
  selected ha hs :=
    ⟨hs.nonempty, hs.sublist.nodup ha.nodup, fun hu => absurd (isUndefined_iff.mpr (hs.sublist.subset hu)) hs.known⟩

/-- Sets that are made by the operations. -/
inductive Obtainable : TypeSet → Prop
  | ofList (ts : List TypeName) : Obtainable (ofList ts)
  | single (t : TypeName) : Obtainable (single t)
  | parse (text : String) (defaultPackage : Option String) : Obtainable (parse text defaultPackage)
  | union {a b : TypeSet} : Obtainable a → Obtainable b → Obtainable (a.union b)
  | intersect {a b s : TypeSet} : Obtainable a → Obtainable b → a.intersect b = some s → Obtainable s
  | difference {a b s : TypeSet} : Obtainable a → Obtainable b → a.difference b = some s → Obtainable s
  | withReceiver {a b : TypeSet} : Obtainable a → Obtainable b → Obtainable (a.withReceiver b)
  | narrowed {n : Narrowing} {s : TypeSet} : (∀ a, n = .replace a ∨ n = .remove a → Obtainable a) → Obtainable s →
      Obtainable (n.apply s)

theorem Obtainable.wellFormed (h : Obtainable s) : s.WellFormed := by
  induction h with
  | ofList ts => exact wellFormed_ofList ts
  | single t => exact wellFormed_ofList [t]
  | parse text package => exact wellFormed_ofList _
  | union _ _ ha hb => exact closed_wellFormed.union ha hb
  | intersect _ _ h ha hb => exact closed_wellFormed.intersect ha hb h
  | difference _ _ h ha _ => exact closed_wellFormed.difference ha h
  | withReceiver _ _ ha hb => exact closed_wellFormed.withReceiver ha hb
  | narrowed _ _ hn hs => exact closed_wellFormed.narrowed hn hs

/-! ## Sets without the stand-in for the receiver -/

/-- The stand-in for the receiver is no member. -/
def Grounded (s : TypeSet) : Prop := .receiver ∉ s.members

theorem grounded_single {t : TypeName} : (single t).Grounded ↔ t ≠ .receiver := by
  refine ⟨fun h ht => h ?_, fun h hm => h (mem_single hm).symm⟩
  subst ht
  decide

theorem grounded_ofList {ts : List TypeName} (h : .receiver ∉ ts) : (ofList ts).Grounded := by
  unfold Grounded ofList
  split
  · decide
  · simpa using h

theorem closed_grounded : Closed Grounded where
  named _ _ := grounded_single.mpr (by simp)
  ofList h := grounded_ofList fun hm => grounded_single.mp (h _ hm) rfl
  member hs ht := grounded_single.mpr fun h => hs (h ▸ ht)
  selected ha hs hm := ha (hs.sublist.subset hm)

/-- Whatever stood in a set, no stand-in is left once the receiver's types take its place. -/
theorem grounded_withReceiver {receiver : TypeSet} (h : receiver.Grounded) (s : TypeSet) :
    (s.withReceiver receiver).Grounded := by
  unfold withReceiver
  split
  · refine grounded_ofList fun hm => ?_
    obtain ⟨t, _, ht⟩ := List.mem_flatMap.mp hm
    split at ht
    · exact h ht
    · rename_i hne
      exact hne (List.mem_singleton.mp ht).symm
  · rename_i hc
    simpa [Grounded, contains] using hc

end TypeSet

/-! ## Results -/

namespace Results

variable {P : TypeSet → Prop} {r : Results}

/-- All slots are of a kind. -/
def All (P : TypeSet → Prop) (r : Results) : Prop := ∀ s ∈ r.toList, P s

theorem all_unknown : All P .unknown := by simp [All, toList]

theorem all_nothing : All P .nothing := by simp [All, nothing, toList]

theorem all_single {s : TypeSet} (h : P s) : All P (.single s) := by simpa [All, single, toList] using h

theorem All.get (h : r.All P) (hP : TypeSet.Closed P) (i : Nat) : P (r.get i) := by
  cases r with
  | unknown => exact hP.undefined
  | slots types =>
    show P (types[i]?.getD .unset)
    cases hi : types[i]? with
    | none => exact hP.unset
    | some s => exact h s (List.mem_of_getElem? hi)

theorem All.combine {r' : Results} (h : r.All P) (h' : r'.All P) (hP : TypeSet.Closed P) : (r.combine r').All P := by
  cases r with
  | unknown => exact all_unknown
  | slots a =>
    cases r' with
    | unknown => exact all_unknown
    | slots b =>
      intro s hs
      obtain ⟨i, -, rfl⟩ := List.mem_map.mp hs
      exact hP.union (h.get hP i) (h'.get hP i)

theorem all_withReceiver {receiver : TypeSet} (h : ∀ s ∈ r.toList, P (s.withReceiver receiver)) :
    (r.withReceiver receiver).All P := by
  cases r with
  | unknown => exact all_unknown
  | slots types => exact List.forall_mem_map.mpr h

end Results

end Magik
