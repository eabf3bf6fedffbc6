/-
  Magik.Proofs.Narrowing.Soundness — narrowing by what holds keeps the types that values have.

  A narrowing allows a type that it leaves. A restriction that holds of a store narrows
  each of its entries in a way that allows the type of its value, and so do all those of
  several restrictions folded into one.
-/

import Magik.Proofs.Running.Condition

namespace Magik

open Running

namespace Table

variable {α β : Type} [DecidableEq α] {k : α}

theorem find?_eq_none_iff {t : Table α β} : t.find? k = none ↔ k ∉ t.keys := by
  obtain ⟨ps⟩ := t
  simp only [find?, keys]
  induction ps with
  | nil => simp [findIn]
  | cons p ps ih =>
    obtain ⟨j, v⟩ := p
    by_cases hj : j = k
    · simp [findIn, hj]
    · simp [findIn, hj, ih, Ne.symm hj]

theorem mem_insertIn {v : β} {ps : List (α × β)} {p : α × β} (h : p ∈ insertIn k v ps) : p = (k, v) ∨ p ∈ ps := by
  induction ps with
  | nil => simpa [insertIn] using h
  | cons q ps ih =>
    rw [insertIn] at h
    split at h
    · rename_i hk
      rcases List.mem_cons.mp h with rfl | h
      · exact .inl (by rw [hk])
      · exact .inr (.tail _ h)
    · rcases List.mem_cons.mp h with rfl | h
      · exact .inr (.head _)
      · exact (ih h).imp_right (List.mem_cons_of_mem _)

end Table

namespace Narrowing

/-- The narrowing leaves the type. -/
def Allows (t : TypeName) : Narrowing → Prop
  | .replace types => types.Covers t
  | .remove types => types.Spares t
  | .unknown => True

instance (t : TypeName) : DecidablePred (Allows t)
  | .replace types => inferInstanceAs (Decidable (types.Covers t))
  | .remove types => inferInstanceAs (Decidable (types.isUndefined = true ∨ t ∉ types.members))
  | .unknown => .isTrue trivial

variable {a b : Narrowing} {t : TypeName}

theorem Allows.andThen (ha : a.Allows t) (hb : b.Allows t) : (a.andThen b).Allows t := by
  cases a with
  | unknown => exact trivial
  | replace kept =>
    cases b with
    | unknown => exact trivial
    | replace kept' =>
      obtain ⟨both, hboth, hc⟩ := TypeSet.Covers.intersect ha hb
      simp only [Narrowing.andThen, hboth]
      exact hc
    | remove removed => exact TypeSet.Covers.difference ha hb
  | remove removed =>
    cases b with
    | unknown => exact trivial
    | replace kept => exact TypeSet.Covers.difference hb ha
    | remove removed' => exact TypeSet.Spares.union ha hb

theorem Allows.apply {current : TypeSet} (ha : a.Allows t) (hc : current.Covers t) : (a.apply current).Covers t := by
  cases a with
  | unknown => exact TypeSet.covers_undefined t
  | replace kept => exact ha
  | remove removed => exact hc.difference ha

end Narrowing

namespace Restriction

/-! ## Restrictions that hold -/

/-- What a restriction says of a store. A failed test of identity speaks of types only
    where each of them has one instance. -/
def Holds (σ : Store) : Restriction → Prop
  | .value entry types _ true => types.Covers (σ entry).type
  | .value entry types .kindOf false => types.Spares (σ entry).type
  | .value entry types .identity false => allIdentity types = true → types.Spares (σ entry).type
  | .pair left right true => σ left = σ right
  | .pair left right false => σ left ≠ σ right
  | .undeterminable _ => True

/-- The entries that are compared with each other. -/
def compared : Restriction → List Nat
  | .pair left right _ => [left, right]
  | _ => []

variable {σ : Store} {current : Nat → TypeSet} {r : Restriction} {rs : List Restriction} {x : Nat} {n : Narrowing}
  {types : TypeSet} {v w : Value} {t : Table Nat Narrowing}

/-- A set with one member, the only instance of its type, is the value it covers. -/
theorem eq_of_isSingleton (hs : isSingleton types = true) (hv : types.Covers v.type) (hw : w.type ∈ types.members) :
    w = v := by
  obtain ⟨members⟩ := types
  simp only [isSingleton, TypeSet.size, allIdentity, Bool.and_eq_true, beq_iff_eq] at hs
  obtain ⟨t, rfl⟩ := List.length_eq_one_iff.mp hs.1
  have ht : t.isIdentity = true := by simpa using hs.2
  have hwt : w.type = t := by simpa using hw
  have hvt : v.type = t := by
    rcases hv with hu | hm
    · have htu : TypeName.undefined = t := by simpa [TypeSet.isUndefined, TypeSet.contains] using hu
      rw [← htu] at ht
      exact absurd ht (by decide)
    · simpa using hm
  exact Value.eq_of_isIdentity (hwt.trans hvt.symm) (by rw [hwt]; exact ht)

theorem spares_of_isSingleton (hs : isSingleton types = true) (hv : types.Covers v.type) (hne : w ≠ v) :
    types.Spares w.type :=
  .inr fun hw => hne (eq_of_isSingleton hs hv hw)

/-- Two entries that are not identical: one loses the other's types where there is but one value of
    these, or nothing is left known. -/
theorem mem_narrowings_distinct {left right : Nat} (hn : (x, n) ∈ (pair left right false).narrowings current) :
    n = .unknown ∨ (x = left ∧ isSingleton (current right) = true ∧ n = .remove (current right)) ∨
      (x = right ∧ isSingleton (current left) = true ∧ n = .remove (current left)) := by
  by_cases hr : isSingleton (current right) = true
  all_goals by_cases hl : isSingleton (current left) = true
  all_goals
    simp only [narrowings, hl, hr, Bool.false_eq_true, if_true, if_false, List.cons_ne_nil, and_false, false_and,
      and_self, List.append_nil, List.nil_append, List.cons_append, List.mem_cons, Prod.mk.injEq, List.not_mem_nil,
      or_false] at hn ⊢
    grind

theorem Holds.narrowings (hr : r.Holds σ) (hc : ∀ y ∈ r.compared, (current y).Covers (σ y).type)
    (hn : (x, n) ∈ r.narrowings current) : n.Allows (σ x).type := by
  cases r with
  | value entry types test holds =>
    cases holds with
    | true =>
      simp only [Restriction.narrowings, List.mem_singleton, Prod.mk.injEq] at hn
      obtain ⟨rfl, rfl⟩ := hn
      exact hr
    | false =>
      cases test with
      | kindOf =>
        simp only [Restriction.narrowings, List.mem_singleton, Prod.mk.injEq] at hn
        obtain ⟨rfl, rfl⟩ := hn
        exact hr
      | identity =>
        simp only [Restriction.narrowings] at hn
        split at hn
        · rename_i hall
          simp only [List.mem_singleton, Prod.mk.injEq] at hn
          obtain ⟨rfl, rfl⟩ := hn
          exact hr hall
        · cases hn
  | pair left right holds =>
    have hl := hc left (by simp [compared])
    have hrt := hc right (by simp [compared])
    cases holds with
    | true =>
      have heq : σ left = σ right := hr
      rw [← heq] at hrt
      obtain ⟨both, hboth, hcov⟩ := hl.intersect hrt
      simp only [Restriction.narrowings, hboth, Option.elim_some, List.mem_cons, Prod.mk.injEq, List.not_mem_nil,
        or_false] at hn
      rcases hn with ⟨rfl, rfl⟩ | ⟨rfl, rfl⟩
      · exact hcov
      · rw [heq] at hcov
        exact hcov
    | false =>
      have hne : σ left ≠ σ right := hr
      rcases mem_narrowings_distinct hn with rfl | ⟨rfl, hs, rfl⟩ | ⟨rfl, hs, rfl⟩
      · exact trivial
      · exact spares_of_isSingleton hs hrt hne
      · exact spares_of_isSingleton hs hl hne.symm
  | undeterminable entries =>
    obtain ⟨y, -, hy⟩ := List.mem_map.mp hn
    cases hy
    exact trivial

/-! ## Several restrictions -/

theorem find?_fold (t : Table Nat Narrowing) (step : Nat × Narrowing) :
    (fold t step).find? x =
      if step.1 = x then some (((t.find? x).map (·.andThen step.2)).getD step.2) else t.find? x := by
  unfold fold
  rw [Table.find?_insert]
  split
  · rename_i h
    rw [h]
  · rename_i h
    rw [Table.find?_erase, if_neg h]

theorem mem_keys_foldl_fold {steps : List (Nat × Narrowing)} :
    x ∈ (steps.foldl fold t).keys ↔ x ∈ t.keys ∨ ∃ n, (x, n) ∈ steps := by
  induction steps generalizing t with
  | nil => simp
  | cons step steps ih =>
    have hstep : x ∈ (fold t step).keys ↔ step.1 = x ∨ x ∈ t.keys := by
      rw [← Decidable.not_iff_not, not_or, ← Table.find?_eq_none_iff, ← Table.find?_eq_none_iff, find?_fold]
      split <;> simp_all
    obtain ⟨y, m⟩ := step
    rw [List.foldl_cons, ih, hstep]
    grind

/-- One narrowing after another: each of them allows the type of its entry. -/
def AllAllow (τ : Nat → TypeName) (t : Table Nat Narrowing) : Prop := ∀ p ∈ t.pairs, p.2.Allows (τ p.1)

variable {τ : Nat → TypeName}

theorem AllAllow.fold (ht : AllAllow τ t) {step : Nat × Narrowing} (hs : step.2.Allows (τ step.1)) :
    AllAllow τ (Restriction.fold t step) := by
  intro p hp
  rcases Table.mem_insertIn hp with rfl | hp
  · show Narrowing.Allows (τ step.1) _
    cases hf : t.find? step.1 with
    | none => exact hs
    | some n => exact (ht _ (Table.exists_mem_of_findIn hf)).andThen hs
  · exact ht p (List.mem_filter.mp hp).1

theorem allAllow_combine (ha : ∀ r ∈ rs, ∀ p ∈ r.narrowings current, p.2.Allows (τ p.1)) :
    AllAllow τ (combine rs current) := by
  refine List.foldlRecOn _ _ (fun p hp => nomatch hp) fun t ht step hs => ht.fold ?_
  obtain ⟨r, hr, hn⟩ := List.mem_flatMap.mp hs
  exact ha r hr step hn

/-- Folding restrictions loses no type that an entry may have: if each narrowing of each
    restriction allows it, the types that are left cover it. And it is the entries that some
    restriction narrows which are narrowed. -/
theorem combine_keeps_possible_types (rs : List Restriction) (current : Nat → TypeSet) :
    (∀ τ : Nat → TypeName, (∀ x, (current x).Covers (τ x)) →
      (∀ r ∈ rs, ∀ p ∈ r.narrowings current, p.2.Allows (τ p.1)) →
      ∀ p ∈ (combine rs current).pairs, (p.2.apply (current p.1)).Covers (τ p.1)) ∧
    ∀ x, x ∈ (combine rs current).keys ↔ ∃ r ∈ rs, ∃ n, (x, n) ∈ r.narrowings current := by
  refine ⟨fun τ hc ha p hp => (allAllow_combine ha p hp).apply (hc p.1), fun x => ?_⟩
  rw [combine, mem_keys_foldl_fold]
  simp only [Table.keys, Table.empty, List.map_nil, List.not_mem_nil, false_or, List.mem_flatMap]
  exact ⟨fun ⟨n, r, hr, hn⟩ => ⟨r, hr, n, hn⟩, fun ⟨r, hr, n, hn⟩ => ⟨n, r, hr, hn⟩⟩

/-- An integer survives two tests of kind, and whatever cannot be told about another entry. -/
theorem combine_keeps_tested_integer :
    let rs : List Restriction := [.value 0 (.ofList [.integer, .symbol]) .kindOf true,
      .value 0 (.single .symbol) .kindOf false, .undeterminable [1]]
    let current : Nat → TypeSet := fun _ => .ofList [.integer, .symbol, .unset]
    (combine rs current).pairs = [(0, .replace (.single .integer)), (1, .unknown)] ∧
      (∀ p ∈ (combine rs current).pairs, (p.2.apply (current p.1)).Covers .integer) ∧
      ∀ x, x ∈ (combine rs current).keys ↔ ∃ r ∈ rs, ∃ n, (x, n) ∈ r.narrowings current := by
  intro rs current
  have hkept := combine_keeps_possible_types rs current
  have hallowed : ∀ r ∈ rs, ∀ p ∈ r.narrowings current, p.2.Allows .integer := by decide
  exact ⟨by decide, hkept.1 (fun _ => .integer) (fun _ => TypeSet.covers_ofList (by simp)) hallowed, hkept.2⟩

/-- The types left of an entry where some restrictions hold. -/
def typesLeft (rs : List Restriction) (current : Nat → TypeSet) (entry : Nat) : TypeSet :=
  ((combine rs current).find? entry).elim (current entry) (·.apply (current entry))

theorem covers_typesLeft (hr : ∀ r ∈ rs, r.Holds σ) (hc : ∀ r ∈ rs, ∀ y ∈ r.compared, (current y).Covers (σ y).type)
    (hx : (current x).Covers (σ x).type) : (typesLeft rs current x).Covers (σ x).type := by
  unfold typesLeft
  cases hf : (combine rs current).find? x with
  | none => exact hx
  | some n =>
    have hallowed : AllAllow (fun y => (σ y).type) (combine rs current) :=
      allAllow_combine fun r hm p hn => (hr r hm).narrowings (hc r hm) hn
    exact (hallowed _ (Table.exists_mem_of_findIn hf)).apply hx

end Restriction

end Magik
