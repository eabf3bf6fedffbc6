/-
  Magik.Proofs.Lists — facts about lists that the proofs of several parts use.
-/

namespace Magik

variable {α β : Type} {as : List α}

/-! ## Changed lists -/

theorem getElem?_modify_of_some {f : α → α} {i j : Nat} {a : α} (h : as[j]? = some a) :
    (as.modify i f)[j]? = some (if i = j then f a else a) := by
  simp [List.getElem?_modify, h]

theorem of_getElem?_modify {f : α → α} {i j : Nat} {b : α} (h : (as.modify i f)[j]? = some b) :
    ∃ a, as[j]? = some a ∧ b = if i = j then f a else a := by
  rw [List.getElem?_modify] at h
  obtain ⟨a, ha, rfl⟩ := Option.map_eq_some_iff.mp h
  exact ⟨a, ha, rfl⟩

/-! ## Partial functions on lists -/

theorem mapM_eq_ite {f : α → Option β} :
    as.mapM f = if as.any (fun a => (f a).isNone) then none else some (as.filterMap f) := by
  induction as with
  | nil => rfl
  | cons a as ih =>
    rw [List.mapM_cons, ih]
    cases ha : f a <;> simp [ha]
    split <;> rfl

theorem mapM_eq_none {f : α → Option β} : as.mapM f = none ↔ ∃ a ∈ as, f a = none := by
  simp [mapM_eq_ite]

theorem mapM_eq_filterMap {f : α → Option β} {bs : List β} (h : as.mapM f = some bs) : bs = as.filterMap f := by
  rw [mapM_eq_ite] at h
  split at h
  · cases h
  · exact (Option.some.inj h).symm

theorem findSome?_of_find? {f : α → Option β} {a : α} (h : as.find? (fun a => (f a).isSome) = some a) :
    as.findSome? f = f a := by
  obtain ⟨ha, front, back, rfl, hfront⟩ := List.find?_eq_some_iff_append.mp h
  have hnone : front.findSome? f = none := by simpa using hfront
  obtain ⟨b, hb⟩ := Option.isSome_iff_exists.mp ha
  rw [List.findSome?_append, hnone, List.findSome?_cons, hb, Option.none_or]

/-! ## Bounds -/

theorem exists_above (f : α → Nat) (as : List α) : ∃ n, ∀ a ∈ as, f a < n := by
  induction as with
  | nil => exact ⟨0, by simp⟩
  | cons a as ih =>
    obtain ⟨n, hn⟩ := ih
    refine ⟨n + f a + 1, fun b hb => ?_⟩
    rcases List.mem_cons.mp hb with rfl | hb
    · omega
    · have := hn b hb
      omega

end Magik
