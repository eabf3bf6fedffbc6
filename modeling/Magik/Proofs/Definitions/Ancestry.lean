/-
  Magik.Proofs.Definitions.Ancestry — methods are found on the nearest ancestor, and errors
  are the conditions that descend from one.

  `Up` counts steps from parent to parent. The queue of the search holds types with the number
  of steps to them, which never falls along the queue and differs by one at most (`Levelled`).
  What a search in a queue has to find is some type that is reached from the queue in as few
  steps as any type with the method (`Answers`). Dropping the parents of a type that has been
  passed takes nothing away, since they are in the queue now (`Up.avoiding`).
-/

import Magik.Definitions.Basic

namespace Magik

/-! ## Steps up -/

/-- One is so many steps up from the other. -/
inductive Up {α : Type} (parents : α → List α) : α → Nat → α → Prop
  | self {s} : Up parents s 0 s
  | parent {s p n t} (hp : p ∈ parents s) (h : Up parents p n t) : Up parents s (n + 1) t

/-- One has lost its parents. -/
def orphan {α : Type} [DecidableEq α] (parents : α → List α) (t : α) : α → List α := fun s => if s = t then [] else parents s

namespace Up

variable {α : Type} [DecidableEq α] {parents : α → List α} {s t u : α} {n : Nat}

theorem of_orphan (h : Up (orphan parents t) s n u) : Up parents s n u := by
  induction h with
  | self => exact .self
  | @parent s p n u hp _ ih =>
    unfold orphan at hp
    split at hp
    · cases hp
    · exact .parent hp ih

/-- Steps that pass through `t` may start at one of its parents instead, and there are fewer. -/
theorem avoiding (h : Up parents s n u) (hu : u ≠ t) :
    Up (orphan parents t) s n u ∧ s ≠ t ∨ ∃ p ∈ parents t, ∃ k < n, Up (orphan parents t) p k u := by
  induction h with
  | self => exact .inl ⟨.self, hu⟩
  | @parent s p n u hp _ ih =>
    rcases ih hu with ⟨h, -⟩ | ⟨q, hq, k, hk, h⟩
    · by_cases hs : s = t
      · exact .inr ⟨p, hs ▸ hp, n, Nat.lt_succ_self n, h⟩
      · exact .inl ⟨.parent (by simpa [orphan, hs] using hp) h, hs⟩
    · exact .inr ⟨q, hq, k, Nat.lt_succ_of_lt hk, h⟩

end Up

namespace Definitions

/-- The parents that a table names; none if it does not know the type. -/
def parents (exemplars : Table TypeName Exemplar) (t : TypeName) : List TypeName :=
  ((exemplars.find? t).map Exemplar.parents).getD []

variable {methods : Table (TypeName × String) Method} {name : String} {left : Table TypeName Exemplar} {t u : TypeName}
  {queue rest : List (TypeName × Nat)} {n d : Nat}

theorem parents_erase (left : Table TypeName Exemplar) (t : TypeName) : parents (left.erase t) = orphan (parents left) t := by
  funext s
  by_cases hs : t = s
  · simp [parents, orphan, Table.find?_erase, hs]
  · simp [parents, orphan, Table.find?_erase, hs, Ne.symm hs]

/-! ## Queues -/

/-- The number of steps never falls along the queue, and no two differ by more than one. -/
def Levelled (queue : List (TypeName × Nat)) : Prop := queue.Pairwise fun p q => p.2 ≤ q.2 ∧ q.2 ≤ p.2 + 1

theorem Levelled.append_parents (h : Levelled ((t, d) :: rest)) (ps : List TypeName) :
    Levelled (rest ++ ps.map (·, d + 1)) := by
  obtain ⟨hhead, hrest⟩ := List.pairwise_cons.mp h
  refine List.pairwise_append.mpr ⟨hrest, List.pairwise_map.mpr (List.pairwise_of_forall fun _ _ => by omega), ?_⟩
  intro p hp q hq
  obtain ⟨_, -, rfl⟩ := List.mem_map.mp hq
  have := hhead p hp
  omega

/-- Some type of the queue is so many steps below. -/
def Reaches (left : Table TypeName Exemplar) (queue : List (TypeName × Nat)) (n : Nat) (u : TypeName) : Prop :=
  ∃ q ∈ queue, ∃ k, Up (parents left) q.1 k u ∧ q.2 + k = n

/-- What is found is a method of a type that is as near as any that has one. -/
def Answers (methods : Table (TypeName × String) Method) (name : String) (reached : Nat → TypeName → Prop) :
    Option Method → Prop
  | none => ∀ n t, reached n t → methods.find? (t, name) = none
  | some m => ∃ n t, reached n t ∧ methods.find? (t, name) = some m ∧
      ∀ k u, reached k u → (methods.find? (u, name)).isSome → n ≤ k

/-- It is enough to look at some of the types, if those with the method are not farther there. -/
theorem Answers.mono {reached reached' : Nat → TypeName → Prop} {answer : Option Method}
    (h : Answers methods name reached' answer) (hsub : ∀ n t, reached' n t → reached n t)
    (hnear : ∀ n t, reached n t → (methods.find? (t, name)).isSome → ∃ k ≤ n, reached' k t) :
    Answers methods name reached answer := by
  cases answer with
  | none =>
    intro n t ht
    refine Option.not_isSome_iff_eq_none.mp fun hs => ?_
    obtain ⟨k, -, hk⟩ := hnear n t ht hs
    simp [h k t hk] at hs
  | some m =>
    obtain ⟨n, t, ht, hm, hmin⟩ := h
    refine ⟨n, t, hsub n t ht, hm, fun k u hu hs => ?_⟩
    obtain ⟨j, hj, hu'⟩ := hnear k u hu hs
    exact Nat.le_trans (hmin j u hu' hs) hj

theorem answers_search (methods : Table (TypeName × String) Method) (name : String) (left : Table TypeName Exemplar)
    (queue : List (TypeName × Nat)) (hq : Levelled queue) :
    Answers methods name (Reaches left queue) (search methods name left (queue.map Prod.fst)) := by
  induction hn : left.size using Nat.strongRecOn generalizing left queue with
  | ind n ih =>
    induction queue with
    | nil =>
      rw [List.map_nil, search]
      rintro n t ⟨q, hq, -⟩
      cases hq
    | cons q rest ih' =>
      obtain ⟨t, d⟩ := q
      obtain ⟨hhead, hrest⟩ := List.pairwise_cons.mp hq
      rw [List.map_cons, search]
      cases hm : methods.find? (t, name) with
      | some m =>
        refine ⟨d, t, ⟨_, .head _, 0, .self, rfl⟩, hm, ?_⟩
        rintro k u ⟨q, hq, j, -, rfl⟩ -
        rcases List.mem_cons.mp hq with rfl | hq
        · exact Nat.le_add_right _ _
        · exact Nat.le_trans (hhead q hq).1 (Nat.le_add_right _ _)
      | none =>
        -- a type with the method is not the one that is passed
        have hne : ∀ {u}, (methods.find? (u, name)).isSome → u ≠ t := fun hs he => by simp [he, hm] at hs
        dsimp only
        split
        · rename_i e he
          have hparents : parents left t = e.parents := by simp [parents, he]
          have h := ih _ (hn ▸ Table.size_erase_lt he) (left.erase t) _ (hq.append_parents e.parents) rfl
          rw [List.map_append, List.map_map, show (Prod.fst ∘ (·, d + 1) : TypeName → TypeName) = id from rfl, List.map_id] at h
          refine h.mono ?_ ?_
          · rintro n u ⟨q, hq, k, hk, rfl⟩
            rw [parents_erase] at hk
            rcases List.mem_append.mp hq with hq | hq
            · exact ⟨q, .tail _ hq, k, hk.of_orphan, rfl⟩
            · obtain ⟨p, hp, rfl⟩ := List.mem_map.mp hq
              exact ⟨_, .head _, k + 1, .parent (hparents ▸ hp) hk.of_orphan, by dsimp only; omega⟩
          · rintro n u ⟨q, hq, k, hk, rfl⟩ hs
            have hd : d ≤ q.2 := by
              rcases List.mem_cons.mp hq with rfl | hq
              · exact Nat.le_refl _
              · exact (hhead q hq).1
            simp only [Reaches, parents_erase]
            rcases hk.avoiding (hne hs) with ⟨hk', hqt⟩ | ⟨p, hp, j, hj, hk'⟩
            · have hmem : q ∈ rest := (List.mem_cons.mp hq).resolve_left fun he => hqt (he ▸ rfl)
              exact ⟨_, Nat.le_refl _, q, List.mem_append_left _ hmem, k, hk', rfl⟩
            · refine ⟨d + 1 + j, by omega, (p, d + 1), List.mem_append_right _ ?_, j, hk', rfl⟩
              exact List.mem_map_of_mem (hparents ▸ hp)
        · rename_i he
          refine (ih' hrest).mono ?_ ?_
          · rintro n u ⟨q, hq, h⟩
            exact ⟨q, .tail _ hq, h⟩
          · rintro n u ⟨q, hq, k, hk, rfl⟩ hs
            refine ⟨_, Nat.le_refl _, q, ?_, k, hk, rfl⟩
            refine (List.mem_cons.mp hq).resolve_left ?_
            rintro rfl
            cases hk with
            | self => exact hne hs rfl
            | parent hp => simp [parents, he] at hp

/-- Whatever the parents of types are: a method is missing if no type that is reached from
    parent to parent has it, and else it is one of a type that is as near as any that has one. -/
theorem method?_nearest (definitions : Definitions) (type : TypeName) (name : String) :
    (definitions.method? type name = none ↔
      ∀ n t, Up (parents definitions.exemplars) type n t → definitions.methods.find? (t, name) = none) ∧
    ∀ m, definitions.method? type name = some m → ∃ n t, Up (parents definitions.exemplars) type n t ∧
      definitions.methods.find? (t, name) = some m ∧
      ∀ k u, Up (parents definitions.exemplars) type k u → (definitions.methods.find? (u, name)).isSome → n ≤ k := by
  have h := answers_search definitions.methods name definitions.exemplars [(type, 0)] (List.pairwise_singleton _ _)
  have hreached : Reaches definitions.exemplars [(type, 0)] = fun n t => Up (parents definitions.exemplars) type n t := by
    funext n t
    simp [Reaches]
  rw [hreached, List.map_singleton, ← method?] at h
  cases hanswer : definitions.method? type name with
  | none =>
    rw [hanswer] at h
    exact ⟨iff_of_true rfl h, nofun⟩
  | some m =>
    rw [hanswer] at h
    obtain ⟨n, t, ht, hm, hmin⟩ := h
    refine ⟨iff_of_false nofun fun hnone => ?_, fun m' he => ?_⟩
    · simp [hnone n t ht] at hm
    · cases he
      exact ⟨n, t, ht, hm, hmin⟩

/-- Types that are each other's parents, one of which has another parent; two of them have the method. -/
def circular : Definitions :=
  let method (type : TypeName) : Method := ⟨type, "size", [], .nothing, .nothing⟩
  (((empty.addExemplar .vector [.text16, .object]).addExemplar .text16 [.vector, .symbol]).addMethod
    (method .object)).addMethod (method .symbol)

/-- The search ends, and the method that is found is at most one step up. -/
theorem method?_nearest_circular :
    ∃ m n t, circular.method? .vector "size" = some m ∧ Up (parents circular.exemplars) .vector n t ∧
      circular.methods.find? (t, "size") = some m ∧ n ≤ 1 := by
  obtain ⟨hnone, hsome⟩ := method?_nearest circular .vector "size"
  have hobject : Up (parents circular.exemplars) .vector 1 .object := .parent (p := .object) (by decide) .self
  cases hm : circular.method? .vector "size" with
  | none => exact absurd (hnone.mp hm 1 .object hobject) (by decide)
  | some m =>
    obtain ⟨n, t, ht, he, hmin⟩ := hsome m hm
    exact ⟨m, n, t, rfl, ht, he, hmin 1 .object hobject (by decide)⟩

/-! ## Conditions -/

/-- The parent that a table names for a condition; none if it has none or the table does not know it. -/
def broader (conditions : Table String Condition) (name : String) : List String :=
  ((conditions.find? name).bind Condition.parent).toList

theorem broader_erase (left : Table String Condition) (name : String) :
    broader (left.erase name) = orphan (broader left) name := by
  funext s
  by_cases hs : name = s
  · simp [broader, orphan, Table.find?_erase, hs]
  · simp [broader, orphan, Table.find?_erase, hs, Ne.symm hs]

/-- The walk up takes the condition it leaves out of the table. Nothing is lost with it: the way
    to an error that goes on from its parent need not come back to it. -/
theorem leadsToError_iff (left : Table String Condition) (name : String) :
    leadsToError left name ↔ ∃ n, Up (broader left) name n errorCondition := by
  fun_induction leadsToError left name with
  | case1 left => simpa using ⟨0, Up.self⟩
  | case2 left name he own parent hfound ih =>
    have hbroader : broader left name = [parent] := by simp [broader, hfound]
    rw [ih, broader_erase]
    constructor
    · rintro ⟨k, h⟩
      exact ⟨k + 1, .parent (by simp [hbroader]) h.of_orphan⟩
    · rintro ⟨k, h⟩
      obtain ⟨-, hne⟩ | ⟨p, hp, j, -, h⟩ := h.avoiding (Ne.symm he)
      · exact absurd rfl hne
      · obtain rfl : p = parent := by simpa [hbroader] using hp
        exact ⟨j, h⟩
  | case3 left name he hnone =>
    refine iff_of_false Bool.false_ne_true ?_
    rintro ⟨k, h⟩
    cases h with
    | self => exact he rfl
    | parent hp =>
      obtain ⟨c, hc, hparent⟩ := Option.bind_eq_some_iff.mp (Option.mem_toList.mp hp)
      exact hnone c.name _ (hc.trans (by rw [← hparent]))

/-- Whatever the parents of conditions are, a condition counts as an error exactly if it is the error itself
    or some number of steps from parent to parent lead there. -/
theorem isError_iff_descends (definitions : Definitions) (name : String) :
    definitions.isError name ↔ ∃ n, Up (broader definitions.conditions) name n errorCondition :=
  leadsToError_iff definitions.conditions name

end Definitions

end Magik
