/-
  Magik.Proofs.Types.Joins — unions of sets and combinations of results are joins.

  A well-formed set is known by the types it covers (`TypeSet.same_iff`), and a union covers
  what its parts cover (`TypeSet.covers_union`). Results are known by whether they are
  unknown, how many slots they have, and what each slot covers. `Results.Joins` says this of a
  result and all the values it was combined from; two results that join the same values are
  the same (`Results.Joins.same`), and every law of combining is a case of that.
-/

import Magik.Proofs.Types.Closed
import Magik.Reasoning.Flow
import Mathlib.Data.List.Perm.Basic

namespace Magik

namespace TypeSet

variable {a b s : TypeSet} {t : TypeName} {Q Q' : TypeName → Prop}

/-! ## Unions -/

theorem WellFormed.eq_undefined (h : s.WellFormed) (hu : s.isUndefined = true) : s = undefined := by
  obtain ⟨members⟩ := s
  exact congrArg TypeSet.mk (h.alone (isUndefined_iff.mp hu))

theorem wellFormed_union (a b : TypeSet) : (a.union b).WellFormed := by
  unfold union
  split
  · exact wellFormed_ofList []
  · exact wellFormed_ofList _

theorem isUndefined_union (ha : a.members ≠ []) :
    (a.union b).isUndefined = true ↔ a.isUndefined = true ∨ b.isUndefined = true := by
  cases hua : a.isUndefined with
  | true => simp [isUndefined_union_left hua]
  | false =>
    cases hub : b.isUndefined with
    | true => simp [isUndefined_union_right hub]
    | false =>
      have hknown : .undefined ∉ a.members ∧ .undefined ∉ b.members := by
        simp [← isUndefined_iff, hua, hub]
      rw [union_eq_ofList hua hub, isUndefined_ofList]
      simp [ha, hknown]

theorem mem_union (h : (a.union b).isUndefined = false) : t ∈ (a.union b).members ↔ t ∈ a.members ∨ t ∈ b.members := by
  unfold union at h ⊢
  split at h
  · cases h.symm.trans isUndefined_undefined
  · rename_i hu
    rw [if_neg hu, mem_ofList h, List.mem_append]

/-! ## What can be said of a set -/

/-- Some member is as asked for, for all that is known. -/
def Finds (s : TypeSet) (Q : TypeName → Prop) : Prop := s.isUndefined = true ∨ ∃ t ∈ s.members, Q t

theorem covers_iff_finds : s.Covers t ↔ s.Finds (· = t) := by simp [Covers, Finds]

theorem finds_union (ha : a.WellFormed) : (a.union b).Finds Q ↔ a.Finds Q ∨ b.Finds Q := by
  have hu := isUndefined_union (b := b) ha.nonempty
  cases h : (a.union b).isUndefined with
  | true =>
    have hor := hu.mp h
    simp only [Finds, h, true_or, true_iff]
    exact hor.imp .inl .inl
  | false =>
    obtain ⟨hua, hub⟩ := isUndefined_of_union h
    simp only [Finds, h, hua, hub, Bool.false_eq_true, false_or, mem_union h, or_and_right, exists_or]

theorem finds_or : s.Finds (fun t => Q t ∨ Q' t) ↔ s.Finds Q ∨ s.Finds Q' := by
  simp only [Finds, and_or_left, exists_or]
  grind

theorem covers_union (ha : a.WellFormed) : (a.union b).Covers t ↔ a.Covers t ∨ b.Covers t := by
  simp only [covers_iff_finds, finds_union ha]

/-- A set that is listed from sets covers what one of them covers. -/
theorem covers_ofList_members {sets : List TypeSet} (hne : sets ≠ []) (hs : ∀ s ∈ sets, s.WellFormed) (t : TypeName) :
    (ofList (sets.flatMap members)).Covers t ↔ ∃ s ∈ sets, s.Covers t := by
  have hmembers : sets.flatMap members ≠ [] := by
    obtain ⟨s, hm⟩ := List.exists_mem_of_ne_nil _ hne
    simpa using ⟨s, hm, (hs s hm).nonempty⟩
  have hundefined : (ofList (sets.flatMap members)).isUndefined = true ↔
      ∃ s ∈ sets, s.isUndefined = true := by
    rw [isUndefined_ofList]
    simp only [hmembers, false_or, List.mem_flatMap, isUndefined_iff]
  cases hu : (ofList (sets.flatMap members)).isUndefined with
  | true =>
    obtain ⟨s, hm, h⟩ := hundefined.mp hu
    exact iff_of_true (.inl hu) ⟨s, hm, .inl h⟩
  | false =>
    have hknown : ∀ s ∈ sets, ¬ s.isUndefined = true := fun s hm h => by simp [hundefined.mpr ⟨s, hm, h⟩] at hu
    simp only [Covers, hu, Bool.false_eq_true, false_or, mem_ofList hu, List.mem_flatMap]
    exact exists_congr fun s => and_congr_right fun hm => by simp [hknown s hm]

/-- The second set covers all that the first does. -/
def Below (a b : TypeSet) : Prop := ∀ t, a.Covers t → b.Covers t

theorem Below.finds (h : a.Below b) (ha : a.Finds Q) : b.Finds Q := by
  rcases ha with hu | ⟨t, ht, hq⟩
  · exact .inl ((h .undefined (.inl hu)).elim id isUndefined_iff.mpr)
  · exact (h t (.inr ht)).imp id fun hm => ⟨t, hm, hq⟩

/-- Well-formed sets are the same if they cover the same types. -/
theorem same_iff (ha : a.WellFormed) (hb : b.WellFormed) : a.same b = true ↔ ∀ t, a.Covers t ↔ b.Covers t := by
  simp only [same, size, contains, Bool.and_eq_true, beq_iff_eq, List.all_eq_true, decide_eq_true_eq]
  constructor
  · rintro ⟨hl, hs⟩ t
    have hperm := (List.subperm_of_subset ha.nodup hs).perm_of_length_le (Nat.le_of_eq hl.symm)
    simp only [Covers, isUndefined_iff, hperm.mem_iff]
  · intro h
    have hu : a.isUndefined = true ↔ b.isUndefined = true := by
      simpa [Covers, isUndefined_iff] using h .undefined
    cases hua : a.isUndefined with
    | true =>
      rw [ha.eq_undefined hua, hb.eq_undefined (hu.mp hua)]
      simp
    | false =>
      have hub : ¬ b.isUndefined = true := fun hb => by simp [hu.mpr hb] at hua
      have hm (t : TypeName) : t ∈ a.members ↔ t ∈ b.members := by simpa [Covers, hua, hub] using h t
      have hperm : a.members.Perm b.members := (List.perm_ext_iff_of_nodup ha.nodup hb.nodup).mpr hm
      exact ⟨hperm.length_eq, fun t ht => (hm t).mp ht⟩

end TypeSet

/-! ## Results -/

namespace Results

open TypeSet (WellFormed closed_wellFormed)

variable {a b c r s : Results} {rs ss : List Results} {waiting : Table Nat Results} {owner : Nat} {values : List Results}
  {given : List (Nat × Results)}

theorem isUnknown_combine (a b : Results) : (a.combine b).isUnknown = (a.isUnknown || b.isUnknown) := by
  cases a <;> cases b <;> rfl

/-- Every slot of a combination is the union of the slots there, past the end too. -/
theorem get_combine (a b : Results) (i : Nat) : (a.combine b).get i = (a.get i).union (b.get i) := by
  cases a with
  | unknown => rfl
  | slots as =>
    cases b with
    | unknown => simp [combine, get, TypeSet.union]
    | slots bs =>
      show ((List.map _ (List.range (max as.length bs.length)))[i]?).getD TypeSet.unset = _
      rw [List.getElem?_map]
      by_cases hi : i < max as.length bs.length
      · rw [List.getElem?_range hi]
        rfl
      · have ha : as[i]? = none := List.getElem?_eq_none (by omega)
        have hb : bs[i]? = none := List.getElem?_eq_none (by omega)
        rw [List.getElem?_eq_none (by simpa using Nat.le_of_not_lt hi)]
        simp only [get, ha, hb]
        show TypeSet.unset = TypeSet.unset.union TypeSet.unset
        decide

theorem length_combine (ha : a.isUnknown = false) (hb : b.isUnknown = false) :
    (a.combine b).toList.length = max a.toList.length b.toList.length := by
  cases a with
  | unknown => cases ha
  | slots as =>
    cases b with
    | unknown => cases hb
    | slots bs => simp [combine, toList]

/-- Results of well-formed slots are known by these three. -/
theorem same_iff (ha : a.All WellFormed) (hb : b.All WellFormed) :
    a.same b = true ↔ a.isUnknown = b.isUnknown ∧ a.toList.length = b.toList.length ∧
      ∀ i t, (a.get i).Covers t ↔ (b.get i).Covers t := by
  cases a with
  | unknown => cases b <;> simp [same, isUnknown, toList, get]
  | slots as =>
    cases b with
    | unknown => simp [same, isUnknown]
    | slots bs =>
      simp only [same, isUnknown, toList, Bool.and_eq_true, beq_iff_eq, true_and]
      refine and_congr_right fun hl => ?_
      have hslot (i : Nat) := TypeSet.same_iff (ha.get closed_wellFormed i) (hb.get closed_wellFormed i)
      simp only [← hslot, List.all_eq_true]
      constructor
      · intro h i
        by_cases hi : i < as.length
        · have hm : (as[i], bs[i]) ∈ as.zip bs := by
            rw [List.mem_iff_getElem]
            exact ⟨i, by simpa [← hl] using hi, by simp⟩
          simpa [get, hi, hl ▸ hi] using h _ hm
        · have hbi : bs.length ≤ i := by omega
          simpa [get, Nat.le_of_not_lt hi, hbi] using (by decide : TypeSet.unset.same TypeSet.unset = true)
      · intro h p hp
        obtain ⟨i, hi, rfl⟩ := List.mem_iff_getElem.mp hp
        have hi : i < as.length ∧ i < bs.length := by simpa [Nat.lt_min] using hi
        simpa [get, hi] using h i

theorem same_refl (h : r.All WellFormed) : r.same r = true := (same_iff h h).mpr (by simp)

/-- The second result covers all that the first does, slot by slot. -/
def Below (r s : Results) : Prop := (r.isUnknown = true → s.isUnknown = true) ∧ ∀ i, (r.get i).Below (s.get i)

/-- A result is what some values combine to: unknown if one of them is, as long as the longest,
    and its slots cover what their slots cover. -/
structure Joins (r : Results) (values : List Results) : Prop where
  wellFormed : r.All WellFormed
  unknown : r.isUnknown = true ↔ ∃ s ∈ values, s.isUnknown = true
  length (n : Nat) : r.isUnknown = false → (r.toList.length ≤ n ↔ ∀ s ∈ values, s.toList.length ≤ n)
  covers (i : Nat) (t : TypeName) : (r.get i).Covers t ↔ ∃ s ∈ values, (s.get i).Covers t

namespace Joins

theorem single (h : r.All WellFormed) : r.Joins [r] := by
  constructor <;> simp [h]

theorem combine (hr : r.Joins rs) (hs : s.Joins ss) : (r.combine s).Joins (rs ++ ss) where
  wellFormed := hr.wellFormed.combine hs.wellFormed closed_wellFormed
  unknown := by
    rw [isUnknown_combine, Bool.or_eq_true, hr.unknown, hs.unknown]
    simp only [List.mem_append, or_and_right, exists_or]
  length n h := by
    rw [isUnknown_combine, Bool.or_eq_false_iff] at h
    rw [length_combine h.1 h.2, Nat.max_le, hr.length n h.1, hs.length n h.2]
    exact List.forall_mem_append.symm
  covers i t := by
    rw [get_combine, TypeSet.covers_union (hr.wellFormed.get closed_wellFormed i), hr.covers, hs.covers]
    simp only [List.mem_append, or_and_right, exists_or]

theorem foldl (hr : r.Joins rs) (hs : ∀ s ∈ ss, s.All WellFormed) : (ss.foldl Results.combine r).Joins (rs ++ ss) := by
  induction ss generalizing r rs with
  | nil => simpa using hr
  | cons s ss ih =>
    have hall := List.forall_mem_cons.mp hs
    rw [List.append_cons]
    exact ih (hr.combine (single hall.1)) hall.2

/-- Joining more values gives a result that covers more. -/
theorem below (hr : r.Joins rs) (hs : s.Joins ss) (h : ∀ x ∈ rs, x ∈ ss) : r.Below s := by
  refine ⟨fun hu => ?_, fun i t ht => ?_⟩
  · obtain ⟨x, hx, hu⟩ := hr.unknown.mp hu
    exact hs.unknown.mpr ⟨x, h x hx, hu⟩
  · obtain ⟨x, hx, ht⟩ := (hr.covers i t).mp ht
    exact (hs.covers i t).mpr ⟨x, h x hx, ht⟩

/-- Joining values that are the same, whatever their order and however often each comes,
    gives the same. -/
theorem same (hr : r.Joins rs) (hs : s.Joins ss) (hrs : ∀ x ∈ rs, x.All WellFormed) (hss : ∀ y ∈ ss, y.All WellFormed)
    (h : ∀ x ∈ rs, ∃ y ∈ ss, x.same y = true) (h' : ∀ y ∈ ss, ∃ x ∈ rs, x.same y = true) : r.same s = true := by
  have alike {x y : Results} (hx : x ∈ rs) (hy : y ∈ ss) := same_iff (hrs x hx) (hss y hy)
  have hunknown : r.isUnknown = true ↔ s.isUnknown = true := by
    rw [hr.unknown, hs.unknown]
    constructor
    · rintro ⟨x, hx, hu⟩
      obtain ⟨y, hy, hxy⟩ := h x hx
      exact ⟨y, hy, ((alike hx hy).mp hxy).1 ▸ hu⟩
    · rintro ⟨y, hy, hu⟩
      obtain ⟨x, hx, hxy⟩ := h' y hy
      exact ⟨x, hx, ((alike hx hy).mp hxy).1.trans hu⟩
  have hlength (hu : r.isUnknown = false) (hu' : s.isUnknown = false) (n : Nat) :
      r.toList.length ≤ n ↔ s.toList.length ≤ n := by
    rw [hr.length n hu, hs.length n hu']
    constructor
    · intro hn y hy
      obtain ⟨x, hx, hxy⟩ := h' y hy
      exact ((alike hx hy).mp hxy).2.1 ▸ hn x hx
    · intro hn x hx
      obtain ⟨y, hy, hxy⟩ := h x hx
      exact ((alike hx hy).mp hxy).2.1 ▸ hn y hy
  refine (same_iff hr.wellFormed hs.wellFormed).mpr ⟨Bool.eq_iff_iff.mpr hunknown, ?_, fun i t => ?_⟩
  · cases hu : r.isUnknown with
    | true =>
      cases r <;> cases s <;> simp_all [isUnknown, toList]
    | false =>
      have hu' : s.isUnknown = false := by simpa [hu] using hunknown
      exact Nat.le_antisymm ((hlength hu hu' _).mpr (Nat.le_refl _)) ((hlength hu hu' _).mp (Nat.le_refl _))
  · rw [hr.covers, hs.covers]
    constructor
    · rintro ⟨x, hx, ht⟩
      obtain ⟨y, hy, hxy⟩ := h x hx
      exact ⟨y, hy, (((alike hx hy).mp hxy).2.2 i t).mp ht⟩
    · rintro ⟨y, hy, ht⟩
      obtain ⟨x, hx, hxy⟩ := h' y hy
      exact ⟨x, hx, (((alike hx hy).mp hxy).2.2 i t).mpr ht⟩

theorem same_of_mem_iff (hr : r.Joins rs) (hs : s.Joins ss) (hrs : ∀ x ∈ rs, x.All WellFormed)
    (h : ∀ x, x ∈ rs ↔ x ∈ ss) : r.same s = true :=
  hr.same hs hrs (fun x hx => hrs x ((h x).mpr hx)) (fun x hx => ⟨x, (h x).mp hx, same_refl (hrs x hx)⟩)
    fun x hx => ⟨x, (h x).mpr hx, same_refl (hrs x ((h x).mpr hx))⟩

end Joins

/-! ## Values that wait for a node -/

/-- What waits, if anything does, is what some values combine to. -/
def Gathers : Option Results → List Results → Prop
  | none, values => values = []
  | some r, values => values ≠ [] ∧ r.Joins values

theorem Gathers.accumulate (h : Gathers (waiting.find? owner) values) (hr : r.All WellFormed) :
    Gathers ((accumulate waiting owner r).find? owner) (values ++ [r]) := by
  rw [Magik.accumulate, Table.find?_insert_self]
  cases hf : waiting.find? owner with
  | none =>
    rw [hf] at h
    rw [show values = [] from h]
    exact ⟨by simp, .single hr⟩
  | some s =>
    rw [hf] at h
    exact ⟨by simp, h.2.combine (.single hr)⟩

/-- Gives values to nodes, one after the other. -/
def accumulateAll (waiting : Table Nat Results) (given : List (Nat × Results)) : Table Nat Results :=
  given.foldl (fun waiting p => accumulate waiting p.1 p.2) waiting

/-- The values that are for a node. -/
def valuesFor (owner : Nat) (given : List (Nat × Results)) : List Results := (given.filter (·.1 = owner)).map (·.2)

theorem mem_valuesFor : r ∈ valuesFor owner given ↔ (owner, r) ∈ given := by
  simp [valuesFor]

theorem Gathers.accumulateAll (h : Gathers (waiting.find? owner) values) (hg : ∀ p ∈ given, p.2.All WellFormed) :
    Gathers ((accumulateAll waiting given).find? owner) (values ++ valuesFor owner given) := by
  induction given generalizing waiting values with
  | nil => simpa [Results.accumulateAll, valuesFor] using h
  | cons p given ih =>
    have hall := List.forall_mem_cons.mp hg
    by_cases hp : p.1 = owner
    · have hnext := h.accumulate hall.1
      rw [← hp] at hnext
      have hrest := ih (hp ▸ hnext) hall.2
      rw [List.append_assoc] at hrest
      simpa [Results.accumulateAll, valuesFor, hp] using hrest
    · -- a value for another node changes nothing here
      have hnext : Gathers ((Magik.accumulate waiting p.1 p.2).find? owner) values := by
        rwa [Magik.accumulate, Table.find?_insert, if_neg hp]
      simpa [Results.accumulateAll, valuesFor, hp] using ih hnext hall.2

theorem Gathers.same {o o' : Option Results} (h : Gathers o rs) (h' : Gathers o' ss) (hrs : ∀ x ∈ rs, x.All WellFormed)
    (hss : ∀ y ∈ ss, y.All WellFormed) (hr : ∀ x ∈ rs, ∃ y ∈ ss, x.same y = true)
    (hs : ∀ y ∈ ss, ∃ x ∈ rs, x.same y = true) :
    o.isSome = o'.isSome ∧ ∀ r s, o = some r → o' = some s → r.same s = true := by
  have hnil : rs = [] ↔ ss = [] := by
    constructor <;> rintro rfl <;> refine List.eq_nil_iff_forall_not_mem.mpr fun x hx => ?_
    · simpa using hs x hx
    · simpa using hr x hx
  cases o with
  | none =>
    cases o' with
    | none => simp
    | some s => exact absurd (hnil.mp h) h'.1
  | some r =>
    cases o' with
    | none => exact absurd (hnil.mpr h') h.1
    | some s => simpa using h.2.same h'.2 hrs hss hr hs

/-- Combining is a join: slot by slot the union, past the end too; associative, commutative and
    idempotent, and the unknown result absorbs. So what waits for a node in the end is the
    same whatever the order of the values it was given and however often each came. -/
theorem combine_is_join (ha : a.All WellFormed) (hb : b.All WellFormed) (hc : c.All WellFormed) :
    (∀ i, (a.combine b).get i = (a.get i).union (b.get i)) ∧
      ((a.combine b).combine c).same (a.combine (b.combine c)) = true ∧
      (a.combine b).same (b.combine a) = true ∧
      (a.combine a).same a = true ∧
      a.combine .unknown = .unknown ∧ unknown.combine a = .unknown ∧
      ∀ (waiting : Table Nat Results) (owner : Nat) (given given' : List (Nat × Results)),
        (∀ r, waiting.find? owner = some r → r.All WellFormed) →
        (∀ p ∈ given, p.2.All WellFormed) → (∀ p ∈ given', p.2.All WellFormed) →
        (∀ r, (owner, r) ∈ given → ∃ s, (owner, s) ∈ given' ∧ r.same s = true) →
        (∀ s, (owner, s) ∈ given' → ∃ r, (owner, r) ∈ given ∧ r.same s = true) →
        ((accumulateAll waiting given).find? owner).isSome = ((accumulateAll waiting given').find? owner).isSome ∧
          ∀ r s, (accumulateAll waiting given).find? owner = some r →
            (accumulateAll waiting given').find? owner = some s → r.same s = true := by
  have ja := Joins.single ha
  have jb := Joins.single hb
  have jc := Joins.single hc
  -- the laws compare results that join the same values
  refine ⟨get_combine a b,
    ((ja.combine jb).combine jc).same_of_mem_iff (ja.combine (jb.combine jc)) (by simp [ha, hb, hc]) (by simp),
    (ja.combine jb).same_of_mem_iff (jb.combine ja) (by simp [ha, hb]) (by simp [or_comm]),
    (ja.combine ja).same_of_mem_iff ja (by simp [ha]) (by simp),
    by cases a <;> rfl, rfl, fun waiting owner given given' hw hg hg' h h' => ?_⟩
  obtain ⟨values, hvalues, hstart⟩ : ∃ values : List Results, (∀ x ∈ values, x.All WellFormed) ∧
      Gathers (waiting.find? owner) values := by
    cases hf : waiting.find? owner with
    | none => exact ⟨[], by simp, rfl⟩
    | some r => exact ⟨[r], by simpa using hw r hf, by simp, .single (hw r hf)⟩
  have hwell {given : List (Nat × Results)} (hg : ∀ p ∈ given, p.2.All WellFormed) :
      ∀ x ∈ values ++ valuesFor owner given, x.All WellFormed := fun x hx =>
    (List.mem_append.mp hx).elim (hvalues x) fun hx => hg _ (mem_valuesFor.mp hx)
  refine (hstart.accumulateAll hg).same (hstart.accumulateAll hg') (hwell hg) (hwell hg') (fun x hx => ?_) fun y hy => ?_
  · rcases List.mem_append.mp hx with hx | hx
    · exact ⟨x, List.mem_append_left _ hx, same_refl (hvalues x hx)⟩
    · obtain ⟨y, hy, hxy⟩ := h x (mem_valuesFor.mp hx)
      exact ⟨y, List.mem_append_right _ (mem_valuesFor.mpr hy), hxy⟩
  · rcases List.mem_append.mp hy with hy | hy
    · exact ⟨y, List.mem_append_left _ hy, same_refl (hvalues y hy)⟩
    · obtain ⟨x, hx, hxy⟩ := h' y (mem_valuesFor.mp hy)
      exact ⟨x, List.mem_append_right _ (mem_valuesFor.mpr hx), hxy⟩

/-- One slot, two slots and none; a node given the three, and the first again, in two orders. -/
theorem combine_is_join_integer_symbol :
    let one : Results := .single (.ofList [.integer, .unset])
    let two : Results := .slots [.single .symbol, .single .float]
    one.All WellFormed ∧ two.All WellFormed ∧
      ((one.combine two).combine nothing).same (one.combine (two.combine nothing)) = true ∧
      (one.combine two).same (two.combine one) = true ∧
      ∀ r s, (accumulateAll .empty [(7, one), (3, .unknown), (7, two)]).find? 7 = some r →
        (accumulateAll .empty [(7, two), (7, one), (7, two)]).find? 7 = some s → r.same s = true := by
  intro one two
  have hone : one.All WellFormed := all_single (TypeSet.wellFormed_ofList _)
  have htwo : two.All WellFormed := by
    intro s hs
    rcases List.mem_pair.mp hs with rfl | rfl <;> exact TypeSet.wellFormed_ofList _
  obtain ⟨-, hassoc, hcomm, -, -, -, haccumulate⟩ := combine_is_join hone htwo all_nothing
  refine ⟨hone, htwo, hassoc, hcomm, (haccumulate .empty 7 _ _ (by simp) ?_ ?_ ?_ ?_).2⟩
  · simp [hone, htwo, all_unknown]
  · simp [hone, htwo]
  · simp [same_refl hone, same_refl htwo]
  · simp [same_refl hone, same_refl htwo]

end Results

end Magik
