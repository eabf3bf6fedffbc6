/-
  Magik.Proofs.Reasoning.Believing — flows whose beliefs are true of a store.

  Along a flow, entries that are still near are believed to have types that cover their
  values. Reading, assigning, narrowing by what holds and joining branches keep that. An
  entry stored in a construct that has been left is near no more: of it, joined branches
  may say what is not so.
-/

import Magik.Proofs.Narrowing.Decision
import Magik.Proofs.Running.Body
import Magik.Reasoning.Reason
import Mathlib.Data.List.Basic

namespace Magik

open Running

/-! ## Tables -/

namespace Table

variable {α β γ : Type} [DecidableEq α] {t : Table α β} {k x : α} {v : β}

theorem nodup_keys_insert (h : t.keys.Nodup) : (t.insert k v).keys.Nodup := by
  obtain ⟨ps⟩ := t
  unfold keys insert at *
  induction ps with
  | nil => simp [insertIn]
  | cons p ps ih =>
    rw [List.map_cons, List.nodup_cons] at h
    rw [insertIn]
    split
    · exact List.nodup_cons.mpr h
    · rename_i hk
      refine List.nodup_cons.mpr ⟨fun hm => ?_, ih h.2⟩
      obtain ⟨q, hq, he⟩ := List.mem_map.mp hm
      rcases mem_insertIn hq with rfl | hq
      · exact hk he.symm
      · exact h.1 (List.mem_map.mpr ⟨q, hq, he⟩)

theorem find?_foldl_insert {g : α × γ → β} {ps : List (α × γ)} (h : (ps.map (·.1)).Nodup) :
    (ps.foldl (fun t p => t.insert p.1 (g p)) t).find? x = ((findIn x ps).map fun n => g (x, n)).or (t.find? x) := by
  induction ps generalizing t with
  | nil => simp [findIn]
  | cons p ps ih =>
    obtain ⟨k, n⟩ := p
    simp only [List.map_cons, List.nodup_cons] at h
    rw [List.foldl_cons, ih h.2, find?_insert, findIn]
    by_cases hk : k = x
    · have hnone : findIn x ps = none := by
        cases hf : findIn x ps with
        | none => rfl
        | some v => exact absurd (List.mem_map_of_mem (f := (·.1)) (exists_mem_of_findIn hf)) (hk ▸ h.1)
      simp [hk, hnone]
    · simp [hk]

end Table

/-! ## Narrowed flows -/

namespace Restriction

theorem nodup_keys_fold {t : Table Nat Narrowing} (h : t.keys.Nodup) (step : Nat × Narrowing) :
    (fold t step).keys.Nodup :=
  Table.nodup_keys_insert ((List.filter_sublist.map _).nodup h)

/-- Restrictions are combined into one narrowing per entry. -/
theorem nodup_keys_combine (rs : List Restriction) (current : Nat → TypeSet) : (combine rs current).keys.Nodup := by
  have hsteps : ∀ (steps : List (Nat × Narrowing)) (t : Table Nat Narrowing), t.keys.Nodup →
      (steps.foldl fold t).keys.Nodup := by
    intro steps
    induction steps with
    | nil => exact fun t h => h
    | cons step steps ih => exact fun t h => ih _ (nodup_keys_fold h step)
  exact hsteps _ _ (by simp [Table.keys, Table.empty])

end Restriction

namespace World

variable {w : World} {package : String} {f base : Flow} {σ : Store} {X inside : List Nat} {x : Nat} {types : TypeSet}
  {g : Nat × Narrowing → TypeSet} {t : TypeName} {Y : List Nat} {live : List Flow}

theorem believed_foldl (ps : List (Nat × Narrowing)) :
    (ps.foldl (fun f p => f.believe p.1 (g p)) base).believed =
      ps.foldl (fun t p => t.insert p.1 (g p)) base.believed :=
  (List.foldl_hom Flow.believed fun _ _ => rfl).symm

theorem exited_foldl (ps : List (Nat × Narrowing)) :
    (ps.foldl (fun f p => f.believe p.1 (g p)) base).exited = base.exited := by
  induction ps generalizing base with
  | nil => rfl
  | cons p ps ih => exact ih

theorem find?_believed_narrowed (rs : List Restriction) :
    (w.narrowed package base rs).believed.find? x =
      (((Restriction.combine rs (w.entryTypes package base)).find? x).map
        fun n => n.apply (w.entryTypes package base x)).or (base.believed.find? x) :=
  (congrArg (·.find? x) (believed_foldl _)).trans (Table.find?_foldl_insert (Restriction.nodup_keys_combine rs _))

/-- On a narrowed flow an entry has the types that the restrictions leave. -/
theorem entryTypes_narrowed (rs : List Restriction) :
    w.entryTypes package (w.narrowed package base rs) x = Restriction.typesLeft rs (w.entryTypes package base) x := by
  have hfind := @find?_believed_narrowed w package base x rs
  unfold Restriction.typesLeft
  cases hf : (Restriction.combine rs (w.entryTypes package base)).find? x with
  | some n => simp [entryTypes, hfind, hf]
  | none =>
    simp only [hf, Option.map_none, Option.none_or] at hfind
    simp [entryTypes, hfind]

/-! ## Joined branches -/

theorem covers_foldl_union {first : TypeSet} {rest : List TypeSet} {s : TypeSet} (hs : s ∈ first :: rest)
    (ht : s.Covers t) : (rest.foldl TypeSet.union first).Covers t := by
  induction rest generalizing first s with
  | nil =>
    rw [List.mem_singleton.mp hs] at ht
    exact ht
  | cons next rest ih =>
    rcases List.mem_cons.mp hs with rfl | hs
    · exact ih (.head _) ht.union_left
    · rcases List.mem_cons.mp hs with rfl | hs
      · exact ih (.head _) ht.union_right
      · exact ih (.tail _ hs) ht

theorem covers_inOrderOf (before : Option TypeSet) (ht : types.Covers t) : (inOrderOf before types).Covers t := by
  unfold inOrderOf
  split
  · rename_i old
    split
    · exact ht
    · rename_i hu
      have hm : t ∈ types.members := ht.resolve_left hu
      apply TypeSet.covers_ofList
      by_cases ho : t ∈ old.members
      · simp [TypeSet.contains, ho, hm]
      · simp [TypeSet.contains, ho, hm]
  · exact ht

/-- Values written under their keys, where there are any. -/
theorem find?_foldl_insert (step : Table Nat TypeSet → Nat → Table Nat TypeSet) {g : Nat → Option TypeSet}
    (hstep : ∀ t k, step t k = (g k).elim t (t.insert k)) (keys : List Nat) (t : Table Nat TypeSet) :
    (keys.foldl step t).find? x = if x ∈ keys then (g x).or (t.find? x) else t.find? x := by
  induction keys generalizing t with
  | nil => simp
  | cons k keys ih =>
    rw [List.foldl_cons, ih, hstep]
    by_cases hk : x = k
    · subst hk
      cases hg : g x with
      | none => simp
      | some v => simp
    · have hk' : ¬ k = x := fun h => hk h.symm
      cases hg : g k with
      | none => simp [hk]
      | some v => simp [hk, Table.find?_insert, hk']

/-! ## Near entries -/

/-- Nothing is known of the name of the entry, whatever the package. -/
def Unlisted (w : World) (x : Nat) : Prop :=
  ∀ e, w.scopes.entryAt? x = some e → ∀ package, w.globalTypes package e.name = .undefined

/-- The entry is not listed, and it is not stored in a construct among these. -/
structure Near (w : World) (X : List Nat) (x : Nat) : Prop where
  unlisted : w.Unlisted x
  outside : w.isStoredWithin X x = false

theorem isStoredWithin_mono (hsub : ∀ k ∈ X, k ∈ Y) (h : w.isStoredWithin Y x = false) :
    w.isStoredWithin X x = false := by
  unfold isStoredWithin at h ⊢
  cases hs : (w.scopes.entryAt? x).bind fun e => w.scopes.scopes[e.scope]? with
  | none => rfl
  | some s =>
    rw [hs] at h
    have hY : s.node ∉ Y := by simpa using h
    simpa using fun hX => hY (hsub _ hX)

theorem Near.mono (h : w.Near Y x) (hsub : ∀ k ∈ X, k ∈ Y) : w.Near X x :=
  ⟨h.unlisted, isStoredWithin_mono hsub h.outside⟩

theorem entryTypes_of_none (h : f.believed.find? x = none) : w.entryTypes package f x = w.entryTypes package .start x := by
  simp [entryTypes, h, Flow.start]

/-- Of an entry that is not listed nothing is known before it is assigned. -/
theorem Unlisted.entryTypes_start (h : w.Unlisted x) : w.entryTypes package .start x = .undefined := by
  simp only [entryTypes, Flow.start, Table.find?_empty]
  cases he : w.scopes.entryAt? x with
  | none => rfl
  | some e =>
    dsimp only
    split
    · exact h e he package
    · rfl

/-! ## Live flows -/

/-- The flow has not exited, and what it believes of near entries covers their values. -/
structure Live (w : World) (package : String) (X : List Nat) (f : Flow) (σ : Store) : Prop where
  exited : f.exited = false
  covers {x : Nat} : w.Near X x → (w.entryTypes package f x).Covers (σ x).type

theorem Live.mono (h : w.Live package X f σ) (hsub : ∀ k ∈ X, k ∈ Y) : w.Live package Y f σ :=
  ⟨h.exited, fun hx => h.covers (hx.mono hsub)⟩

theorem live_start (σ : Store) : w.Live package X .start σ :=
  ⟨rfl, fun hx => by
    rw [hx.unlisted.entryTypes_start]
    exact TypeSet.covers_undefined _⟩

theorem Live.believe (h : w.Live package X f σ) {v : Value} (hv : types.Covers v.type) (entry : Nat) :
    w.Live package X (f.believe entry types) (σ.set (some entry) v) := by
  refine ⟨h.exited, fun {x} hx => ?_⟩
  by_cases he : entry = x
  · simpa [entryTypes, Flow.believe, Store.set, he] using hv
  · have hold := h.covers hx
    simpa [entryTypes, Flow.believe, Table.find?_insert, Store.set, he] using hold

theorem Live.narrowed (h : w.Live package X f σ) {rs : List Restriction} (hr : ∀ r ∈ rs, r.Holds σ)
    (hc : ∀ r ∈ rs, ∀ y ∈ r.compared, w.Near X y) : w.Live package X (w.narrowed package f rs) σ := by
  constructor
  · exact (exited_foldl _).trans h.exited
  · intro x hx
    rw [entryTypes_narrowed]
    exact Restriction.covers_typesLeft hr (fun r hm y hy => h.covers (hc r hm y hy)) (h.covers hx)

/-- What is said of an entry counts on every branch, if it is not stored in the construct or all branches believe
    something of it. -/
theorem mergedTypes?_outside {first : Flow} {rest : List Flow}
    (hx : ∀ f ∈ first :: rest, f.believed.find? x = none → w.isStoredWithin inside x = false) :
    w.mergedTypes? package inside (first :: rest) x =
      some ((rest.map (w.entryTypes package · x)).foldl TypeSet.union (w.entryTypes package first x)) := by
  unfold mergedTypes?
  dsimp only
  generalize hl : List.filterMap _ (first :: rest) = seen
  have hseen : seen = (first :: rest).map (w.entryTypes package · x) := by
    rw [← hl, ← List.filterMap_eq_map']
    refine List.filterMap_congr fun f hf => ?_
    cases hb : f.believed.find? x with
    | none => simp [hx f hf hb]
    | some types => simp [entryTypes, hb]
  rw [hseen, List.map_cons]

theorem mergedTypes?_covers (hx : w.isStoredWithin inside x = false) (hf : f ∈ live)
    (ht : (w.entryTypes package f x).Covers t) :
    ∃ types, w.mergedTypes? package inside live x = some types ∧ types.Covers t := by
  cases live with
  | nil => cases hf
  | cons first rest =>
    have hm : w.entryTypes package f x ∈ (first :: rest).map (w.entryTypes package · x) := List.mem_map_of_mem hf
    exact ⟨_, mergedTypes?_outside fun _ _ _ => hx, covers_foldl_union hm ht⟩

theorem find?_believed_mergeLive (package : String) (inside : List Nat) (before : Flow) (live : List Flow) (x : Nat) :
    (w.mergeLive package inside before live).believed.find? x =
      if x ∈ (live.flatMap fun f => f.believed.keys).eraseDups then
        (w.mergedTypes? package inside live x).map (inOrderOf (before.believed.find? x))
      else none := by
  unfold World.mergeLive
  dsimp only
  rw [find?_foldl_insert _ (g := fun k => (w.mergedTypes? package inside live k).map
    (inOrderOf (before.believed.find? k)))]
  · simp
  · intro t k
    cases w.mergedTypes? package inside live k <;> rfl

/-- Joined branches believe what is so on each of them that is still alive. -/
theorem Live.mergeLive (hf : f ∈ live) (h : w.Live package (inside ++ X) f σ) (before : Flow) :
    w.Live package (inside ++ X) (w.mergeLive package inside before live) σ := by
  refine ⟨rfl, fun {x} hx => ?_⟩
  have hin : w.isStoredWithin inside x = false := isStoredWithin_mono (by simp +contextual) hx.outside
  have hfind := find?_believed_mergeLive (w := w) package inside before live x
  by_cases hk : x ∈ (live.flatMap fun f => f.believed.keys).eraseDups
  · obtain ⟨types, htypes, hcov⟩ := mergedTypes?_covers hin hf (h.covers hx)
    rw [if_pos hk, htypes, Option.map_some] at hfind
    simp only [entryTypes, hfind]
    exact covers_inOrderOf _ hcov
  · -- no branch says anything of the entry
    rw [if_neg hk] at hfind
    rw [entryTypes_of_none hfind, hx.unlisted.entryTypes_start]
    exact TypeSet.covers_undefined _

end World

end Magik
