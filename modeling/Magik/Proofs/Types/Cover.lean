/-
  Magik.Proofs.Types.Cover — what a set of types says about a type.

  A set covers a type that it has, and a set of which nothing is known covers every type.
  Taking a set away spares a type that it lacks; a set of which nothing is known takes
  nothing away. Each operation on sets keeps what its operands cover and spare.
-/

import Magik.Types.TypeSet

namespace Magik.TypeSet

/-- A value of the type is among those the set stands for. -/
def Covers (s : TypeSet) (t : TypeName) : Prop := s.isUndefined = true ∨ t ∈ s.members

/-- Taking the set away does not take the type away. -/
def Spares (s : TypeSet) (t : TypeName) : Prop := s.isUndefined = true ∨ t ∉ s.members

instance (s : TypeSet) (t : TypeName) : Decidable (s.Covers t) := by
  unfold Covers
  infer_instance

variable {a b : TypeSet} {t u : TypeName} {ts : List TypeName}

@[simp] theorem isUndefined_undefined : undefined.isUndefined = true := by
  simp [isUndefined, contains, undefined]

theorem covers_undefined (t : TypeName) : undefined.Covers t := .inl isUndefined_undefined

theorem isUndefined_iff : a.isUndefined = true ↔ .undefined ∈ a.members := by
  simp [isUndefined, contains]

/-! ## Lists of types -/

theorem isUndefined_ofList : (ofList ts).isUndefined = true ↔ ts = [] ∨ .undefined ∈ ts := by
  unfold ofList
  split
  · rename_i h
    simpa using h
  · rename_i h
    rw [isUndefined_iff]
    simp [not_or.mp h]

theorem mem_ofList (h : (ofList ts).isUndefined = false) : t ∈ (ofList ts).members ↔ t ∈ ts := by
  unfold ofList at h ⊢
  split
  · rename_i hc
    simp [hc] at h
  · simp

theorem covers_ofList (h : t ∈ ts) : (ofList ts).Covers t := by
  cases hu : (ofList ts).isUndefined with
  | true => exact .inl hu
  | false => exact .inr ((mem_ofList hu).mpr h)

theorem spares_ofList (h : t ∉ ts) : (ofList ts).Spares t := by
  cases hu : (ofList ts).isUndefined with
  | true => exact .inl hu
  | false => exact .inr fun hm => h ((mem_ofList hu).mp hm)

theorem covers_single (t : TypeName) : (single t).Covers t := covers_ofList (by simp)

theorem mem_single (h : t ∈ (single u).members) : t = u := by
  unfold single ofList at h
  split at h
  · rename_i hc
    have hu : u = .undefined := by simpa [eq_comm] using hc
    rw [hu]
    simpa [undefined] using h
  · simpa using h

theorem eq_of_covers_single (h : (single t).Covers u) (ht : t ≠ .undefined) : u = t := by
  rcases h with h | h
  · exact absurd (mem_single (isUndefined_iff.mp h)).symm ht
  · exact mem_single h

theorem ne_undefined_of_mem (ha : a.isUndefined = false) (ht : t ∈ a.members) : t ≠ .undefined := by
  intro h
  rw [h] at ht
  rw [isUndefined_iff.mpr ht] at ha
  cases ha

/-! ## Operations -/

theorem isUndefined_union_left (h : a.isUndefined = true) : (a.union b).isUndefined = true := by
  simp [union, h]

theorem isUndefined_union_right (h : b.isUndefined = true) : (a.union b).isUndefined = true := by
  simp [union, h]

theorem union_eq_ofList (ha : a.isUndefined = false) (hb : b.isUndefined = false) :
    a.union b = ofList (a.members ++ b.members) := by
  simp [union, ha, hb]

theorem isUndefined_of_union (h : (a.union b).isUndefined = false) : a.isUndefined = false ∧ b.isUndefined = false := by
  constructor <;> refine Bool.eq_false_iff.mpr fun hu => ?_
  · cases h.symm.trans (isUndefined_union_left hu)
  · cases h.symm.trans (isUndefined_union_right hu)

theorem covers_union_of (h : a.Covers t ∨ b.Covers t) : (a.union b).Covers t := by
  cases hu : (a.union b).isUndefined with
  | true => exact .inl hu
  | false =>
    obtain ⟨ha, hb⟩ := isUndefined_of_union hu
    rw [union_eq_ofList ha hb]
    exact covers_ofList (List.mem_append.mpr (by simpa [Covers, ha, hb] using h))

theorem Covers.union_left (h : a.Covers t) : (a.union b).Covers t := covers_union_of (.inl h)

theorem Covers.union_right (h : b.Covers t) : (a.union b).Covers t := covers_union_of (.inr h)

theorem Spares.union (ha : a.Spares t) (hb : b.Spares t) : (a.union b).Spares t := by
  rcases ha with ha | ha
  · exact .inl (isUndefined_union_left ha)
  rcases hb with hb | hb
  · exact .inl (isUndefined_union_right hb)
  unfold TypeSet.union
  split
  · exact .inl isUndefined_undefined
  · apply spares_ofList
    simp [ha, hb]

/-- Sets that cover a type have something in common. -/
theorem Covers.intersect (ha : a.Covers t) (hb : b.Covers t) : ∃ both, a.intersect b = some both ∧ both.Covers t := by
  unfold TypeSet.intersect
  by_cases hua : a.isUndefined = true
  · exact ⟨b, by simp [hua], hb⟩
  by_cases hub : b.isUndefined = true
  · exact ⟨a, by simp [hua, hub], ha⟩
  have hm : t ∈ a.members.filter b.contains := by
    rw [List.mem_filter]
    exact ⟨ha.resolve_left hua, by simpa [contains] using hb.resolve_left hub⟩
  rw [if_neg hua, if_neg hub]
  split
  · rename_i hn
    rw [hn] at hm
    cases hm
  · exact ⟨_, rfl, .inr hm⟩

theorem Covers.difference (ha : a.Covers t) (hb : b.Spares t) : ((a.difference b).getD a).Covers t := by
  unfold TypeSet.difference
  by_cases hu : a.isUndefined = true ∨ b.isUndefined = true
  · rw [if_pos (by simpa using hu)]
    exact ha
  have hua : ¬ a.isUndefined = true := fun h => hu (.inl h)
  have hub : ¬ b.isUndefined = true := fun h => hu (.inr h)
  rw [if_neg (by simpa using hu)]
  dsimp only
  split
  · exact ha
  · refine .inr (List.mem_filter.mpr ⟨ha.resolve_left hua, ?_⟩)
    simpa [contains] using hb.resolve_left hub

end Magik.TypeSet
