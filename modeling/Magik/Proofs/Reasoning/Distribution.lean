/-
  Magik.Proofs.Reasoning.Distribution — operators and methods on a union of types.

  What an operation covers is said member by member of both operands (`covers_operatorTypes`),
  and so is what calling a method gives back (`invoke_eq_none`, `joins_invoke`). Both
  therefore distribute over unions of operands and receivers, members that both parts have
  counting once or twice alike, and a wider operand never makes the answer narrower.
-/

import Magik.Proofs.Reasoning.Obtained
import Magik.Proofs.Types.Joins

namespace Magik

namespace World

open TypeSet (WellFormed closed_wellFormed)

variable {w : World} {a a' b : TypeSet} {name : String} {r : Results × Results}

/-! ## Operators -/

/-- A type comes of an operation if it comes of a pair of members; a pair that is not known
    may give anything. -/
theorem covers_operatorTypes (hw : w.Supplies WellFormed) (ha : a.WellFormed) (hb : b.WellFormed)
    (operator : BinaryOperator) (t : TypeName) :
    (w.operatorTypes operator a b).Covers t ↔
      a.Finds fun l => b.Finds fun r => ∀ s, w.definitions.operator? operator.symbol l r = some s → s.Covers t := by
  obtain ⟨l₀, hl₀⟩ := List.exists_mem_of_ne_nil _ ha.nonempty
  obtain ⟨r₀, hr₀⟩ := List.exists_mem_of_ne_nil _ hb.nonempty
  cases hua : a.isUndefined with
  | true => exact iff_of_true (by simpa [operatorTypes, hua] using TypeSet.covers_undefined t) (.inl hua)
  | false =>
    cases hub : b.isUndefined with
    | true =>
      exact iff_of_true (by simpa [operatorTypes, hub] using TypeSet.covers_undefined t) (.inr ⟨l₀, hl₀, .inl hub⟩)
    | false =>
      simp only [operatorTypes, hua, hub, Bool.or_self, Bool.false_eq_true, if_false, TypeSet.Finds, false_or]
      split
      · rename_i known hknown
        have hmem (s : TypeSet) : s ∈ known ↔ ∃ l ∈ a.members, ∃ r ∈ b.members,
            w.definitions.operator? operator.symbol l r = some s := by
          simp [mapM_eq_filterMap hknown]
        have hall : ∀ l ∈ a.members, ∀ r ∈ b.members, ∃ s, w.definitions.operator? operator.symbol l r = some s := by
          intro l hl r hr
          refine Option.ne_none_iff_exists'.mp fun hn => ?_
          have hm : none ∈ a.members.flatMap fun l => b.members.map fun r => w.definitions.operator? operator.symbol l r :=
            List.mem_flatMap.mpr ⟨l, hl, List.mem_map.mpr ⟨r, hr, hn⟩⟩
          cases hknown.symm.trans (mapM_eq_none.mpr ⟨none, hm, rfl⟩)
        obtain ⟨s₀, hs₀⟩ := hall l₀ hl₀ r₀ hr₀
        have hne : known ≠ [] := List.ne_nil_of_mem ((hmem s₀).mpr ⟨l₀, hl₀, r₀, hr₀, hs₀⟩)
        rw [TypeSet.covers_ofList_members hne fun s hs => by
          obtain ⟨l, -, r, -, h⟩ := (hmem s).mp hs
          exact hw.operator h]
        constructor
        · rintro ⟨s, hs, ht⟩
          obtain ⟨l, hl, r, hr, h⟩ := (hmem s).mp hs
          exact ⟨l, hl, r, hr, fun s' h' => Option.some.inj (h.symm.trans h') ▸ ht⟩
        · rintro ⟨l, hl, r, hr, ht⟩
          obtain ⟨s, hs⟩ := hall l hl r hr
          exact ⟨s, (hmem s).mpr ⟨l, hl, r, hr, hs⟩, ht s hs⟩
      · rename_i hnone
        obtain ⟨o, ho, rfl⟩ := mapM_eq_none.mp hnone
        obtain ⟨l, hl, ho⟩ := List.mem_flatMap.mp ho
        obtain ⟨r, hr, ho⟩ := List.mem_map.mp ho
        exact iff_of_true (TypeSet.covers_undefined t) ⟨l, hl, r, hr, fun s hs => by cases ho.symm.trans hs⟩

/-! ## Methods -/

/-- One member that does not know the method is enough. -/
theorem invoke_eq_none (ha : a.WellFormed) : w.invoke a name = none ↔ a.Finds fun t => w.invokeOn name t = none := by
  unfold invoke
  cases hu : a.isUndefined with
  | true => simp [TypeSet.Finds, hu]
  | false =>
    simp only [Bool.false_eq_true, if_false, TypeSet.Finds, hu, false_or, ← mapM_eq_none]
    split
    · rename_i h
      simp [h]
    · rename_i hne
      cases h : a.members.mapM (w.invokeOn name) with
      | none => simp
      | some rs =>
        have hnil : rs = [] := by
          cases rs with
          | nil => rfl
          | cons r rs => exact absurd h (hne r rs)
        obtain ⟨t, ht⟩ := List.exists_mem_of_ne_nil _ ha.nonempty
        rw [hnil] at h
        have hlength := mapM_eq_filterMap h
        have hsome : w.invokeOn name t ≠ none := fun hn => by
          cases h.symm.trans (mapM_eq_none.mpr ⟨t, ht, hn⟩)
        obtain ⟨r, hr⟩ := Option.ne_none_iff_exists'.mp hsome
        have hm : r ∈ a.members.filterMap (w.invokeOn name) := List.mem_filterMap.mpr ⟨t, ht, hr⟩
        rw [← hlength] at hm
        cases hm

/-- What the members give back and give to each round, in order. -/
def givenBy (w : World) (name : String) (types : TypeSet) : List (Results × Results) :=
  types.members.filterMap (w.invokeOn name)

theorem all_givenBy (hw : w.Supplies WellFormed) (ha : a.WellFormed) :
    ∀ p ∈ w.givenBy name a, p.1.All WellFormed ∧ p.2.All WellFormed := by
  intro p hp
  obtain ⟨t, ht, h⟩ := List.mem_filterMap.mp hp
  exact all_invokeOn closed_wellFormed hw ha ht h

theorem foldl_combine_pairs (first : Results × Results) (rest : List (Results × Results)) :
    rest.foldl (fun a b => (a.1.combine b.1, a.2.combine b.2)) first =
      ((rest.map (·.1)).foldl Results.combine first.1, (rest.map (·.2)).foldl Results.combine first.2) := by
  induction rest generalizing first with
  | nil => rfl
  | cons p rest ih => exact ih _

/-- What a call gives back is what its members give, combined, and so is what it gives to each
    round. -/
theorem joins_invoke (hw : w.Supplies WellFormed) (ha : a.WellFormed) (h : w.invoke a name = some r) :
    r.1.Joins ((w.givenBy name a).map (·.1)) ∧ r.2.Joins ((w.givenBy name a).map (·.2)) := by
  unfold invoke at h
  split at h
  · cases h
  split at h
  · rename_i first rest hall
    have hgiven : w.givenBy name a = first :: rest := (mapM_eq_filterMap hall).symm
    have hwell : ∀ p ∈ w.givenBy name a, p.1.All WellFormed ∧ p.2.All WellFormed := all_givenBy hw ha
    rw [hgiven] at hwell
    obtain ⟨hfirst, hrest⟩ := List.forall_mem_cons.mp hwell
    rw [← Option.some.inj h, foldl_combine_pairs, hgiven]
    refine ⟨(Results.Joins.single hfirst.1).foldl fun s hs => ?_, (Results.Joins.single hfirst.2).foldl fun s hs => ?_⟩
    all_goals obtain ⟨p, hp, rfl⟩ := List.mem_map.mp hs
    · exact (hrest p hp).1
    · exact (hrest p hp).2
  · cases h

theorem mem_givenBy_of_below (h : a.Below b) (hb : b.isUndefined = false) {p : Results × Results}
    (hp : p ∈ w.givenBy name a) : p ∈ w.givenBy name b := by
  obtain ⟨t, ht, hp⟩ := List.mem_filterMap.mp hp
  have hm : t ∈ b.members := (h t (.inr ht)).resolve_left (by simp [hb])
  exact List.mem_filterMap.mpr ⟨t, hm, hp⟩

theorem mem_givenBy_union (h : (a.union a').isUndefined = false) (p : Results × Results) :
    p ∈ w.givenBy name (a.union a') ↔ p ∈ w.givenBy name a ++ w.givenBy name a' := by
  simp only [givenBy, List.mem_append, List.mem_filterMap, TypeSet.mem_union h, or_and_right, exists_or]

theorem isUndefined_of_invoke (h : w.invoke a name = some r) : a.isUndefined = false := by
  cases hu : a.isUndefined with
  | false => rfl
  | true => simp [invoke, hu] at h

/-- Where a wider receiver has an answer, the narrower one has an answer below it. -/
theorem invoke_below (hw : w.Supplies WellFormed) (ha : a.WellFormed) (hb : b.WellFormed) (h : a.Below b)
    (hr : w.invoke b name = some r) : ∃ q, w.invoke a name = some q ∧ q.1.Below r.1 ∧ q.2.Below r.2 := by
  cases hq : w.invoke a name with
  | none =>
    have hnone := (invoke_eq_none hb).mpr (h.finds ((invoke_eq_none ha).mp hq))
    cases hr.symm.trans hnone
  | some q =>
    have hsub (p : Results × Results) (hp : p ∈ w.givenBy name a) : p ∈ w.givenBy name b :=
      mem_givenBy_of_below h (isUndefined_of_invoke hr) hp
    have ja := joins_invoke hw ha hq
    have jb := joins_invoke hw hb hr
    exact ⟨q, rfl, ja.1.below jb.1 (by simpa using fun x y hx => ⟨y, hsub _ hx⟩),
      ja.2.below jb.2 (by simpa using fun x y hx => ⟨y, hsub _ hx⟩)⟩

/-- Where both parts have an answer, the answer for their union is what theirs combine to. -/
theorem invoke_union (hw : w.Supplies WellFormed) (ha : a.WellFormed) (ha' : a'.WellFormed) {q q' : Results × Results}
    (hq : w.invoke a name = some q) (hq' : w.invoke a' name = some q') (hr : w.invoke (a.union a') name = some r) :
    r.1.same (q.1.combine q'.1) = true ∧ r.2.same (q.2.combine q'.2) = true := by
  have hu := TypeSet.wellFormed_union a a'
  have hmem (p : Results × Results) : p ∈ w.givenBy name (a.union a') ↔ p ∈ w.givenBy name a ++ w.givenBy name a' :=
    mem_givenBy_union (isUndefined_of_invoke hr) p
  have hwell (p : Results × Results) (hp : p ∈ w.givenBy name (a.union a')) := all_givenBy hw hu p hp
  have ja := joins_invoke hw ha hq
  have ja' := joins_invoke hw ha' hq'
  have jr := joins_invoke hw hu hr
  -- a member of both parts gives its values twice on one side and once on the other
  have hvalues (side : Results × Results → Results) (x : Results) :
      x ∈ (w.givenBy name (a.union a')).map side ↔ x ∈ (w.givenBy name a).map side ++ (w.givenBy name a').map side := by
    simp only [← List.map_append, List.mem_map, hmem]
  refine ⟨jr.1.same_of_mem_iff (ja.1.combine ja'.1) (fun x hx => ?_) (hvalues _),
    jr.2.same_of_mem_iff (ja.2.combine ja'.2) (fun x hx => ?_) (hvalues _)⟩
  all_goals obtain ⟨p, hp, rfl⟩ := List.mem_map.mp hx
  · exact (hwell p hp).1
  · exact (hwell p hp).2

/-- Operators and methods distribute over unions. The types of an operation on a union, on
    either side, are the union of the types of the operations; calling a method on a union fails
    exactly if one of the calls does, and else gives back, and gives to each round, what the
    calls combine to. A wider operand or receiver never makes the answer narrower. -/
theorem operators_and_methods_distribute (hw : w.Supplies WellFormed) (ha : a.WellFormed) (ha' : a'.WellFormed)
    (hb : b.WellFormed) (operator : BinaryOperator) (name : String) :
    (w.operatorTypes operator (a.union a') b).same
        ((w.operatorTypes operator a b).union (w.operatorTypes operator a' b)) = true ∧
      (w.operatorTypes operator b (a.union a')).same
        ((w.operatorTypes operator b a).union (w.operatorTypes operator b a')) = true ∧
      (w.invoke (a.union a') name = none ↔ w.invoke a name = none ∨ w.invoke a' name = none) ∧
      (∀ q q', w.invoke a name = some q → w.invoke a' name = some q' → ∃ r, w.invoke (a.union a') name = some r ∧
        r.1.same (q.1.combine q'.1) = true ∧ r.2.same (q.2.combine q'.2) = true) ∧
      ∀ wide : TypeSet, wide.WellFormed → a.Below wide →
        (w.operatorTypes operator a b).Below (w.operatorTypes operator wide b) ∧
        (w.operatorTypes operator b a).Below (w.operatorTypes operator b wide) ∧
        ∀ r, w.invoke wide name = some r → ∃ q, w.invoke a name = some q ∧ q.1.Below r.1 ∧ q.2.Below r.2 := by
  have hu := TypeSet.wellFormed_union a a'
  have hwell (l r : TypeSet) := all_operatorTypes closed_wellFormed hw operator l r
  have hnone : w.invoke (a.union a') name = none ↔ w.invoke a name = none ∨ w.invoke a' name = none := by
    rw [invoke_eq_none hu, invoke_eq_none ha, invoke_eq_none ha', TypeSet.finds_union ha]
  refine ⟨(TypeSet.same_iff (hwell _ _) (TypeSet.wellFormed_union _ _)).mpr fun t => ?_,
    (TypeSet.same_iff (hwell _ _) (TypeSet.wellFormed_union _ _)).mpr fun t => ?_, hnone, fun q q' hq hq' => ?_,
    fun wide hwide h => ⟨fun t ht => ?_, fun t ht => ?_, fun r hr => invoke_below hw ha hwide h hr⟩⟩
  · rw [TypeSet.covers_union (hwell _ _), covers_operatorTypes hw hu hb, covers_operatorTypes hw ha hb,
      covers_operatorTypes hw ha' hb, TypeSet.finds_union ha]
  · rw [TypeSet.covers_union (hwell _ _), covers_operatorTypes hw hb hu, covers_operatorTypes hw hb ha,
      covers_operatorTypes hw hb ha', ← TypeSet.finds_or]
    simp only [TypeSet.finds_union ha]
  · obtain ⟨r, hr⟩ := Option.ne_none_iff_exists'.mp fun hn => by
      rcases hnone.mp hn with hn | hn
      · cases hq.symm.trans hn
      · cases hq'.symm.trans hn
    exact ⟨r, hr, invoke_union hw ha ha' hq hq' hr⟩
  · rw [covers_operatorTypes hw ha hb] at ht
    exact (covers_operatorTypes hw hwide hb operator t).mpr (h.finds ht)
  · rw [covers_operatorTypes hw hb ha] at ht
    exact (covers_operatorTypes hw hb hwide operator t).mpr
      (ht.imp id fun ⟨l, hl, hr⟩ => ⟨l, hl, h.finds hr⟩)

/-- Integers, and integers or floats: a float added to either gives a float. -/
theorem sum_and_copy_distribute :
    let w : World := ⟨⟨[], [], .empty, .empty, .empty⟩, .builtIn⟩
    let whole : TypeSet := .single .integer
    let number : TypeSet := .ofList [.integer, .float]
    let float : TypeSet := .single .float
    w.Supplies WellFormed ∧ whole.WellFormed ∧ number.WellFormed ∧ float.WellFormed ∧
      (w.operatorTypes .add (whole.union number) float).same
        ((w.operatorTypes .add whole float).union (w.operatorTypes .add number float)) = true ∧
      w.operatorTypes .add (whole.union number) float = float ∧
      (w.invoke (whole.union number) "copy" = none ↔ w.invoke whole "copy" = none ∨ w.invoke number "copy" = none) := by
  intro w whole number float
  have hw : w.Supplies WellFormed := supplies_wellFormed Definitions.obtainable_builtIn
  have hwhole : whole.WellFormed := TypeSet.wellFormed_ofList _
  have hnumber : number.WellFormed := TypeSet.wellFormed_ofList _
  have hfloat : float.WellFormed := TypeSet.wellFormed_ofList _
  obtain ⟨hsum, -, hnone, -⟩ := operators_and_methods_distribute hw hwhole hnumber hfloat .add "copy"
  exact ⟨hw, hwhole, hnumber, hfloat, hsum, by decide +kernel, hnone⟩

end World

end Magik
