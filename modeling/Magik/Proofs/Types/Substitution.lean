/-
  Magik.Proofs.Types.Substitution — the receiver's types in the place of their stand-in.

  Once the receiver is known, the stand-in says what the receiver says and every other
  member says itself (`covers_withReceiver`). What is said member by member is said of a
  union part by part, so parts may be put together before the receiver takes its place or
  after, in sets and in results.
-/

import Magik.Proofs.Types.Joins

namespace Magik

namespace TypeSet

variable {a b s receiver : TypeSet} {t : TypeName}

/-- What a member says once the receiver is known. -/
def inPlace (receiver : TypeSet) (member : TypeName) : TypeSet := if member = .receiver then receiver else single member

theorem contains_receiver : s.contains .receiver = false ↔ s.Grounded := by
  simp [contains, Grounded]

theorem withReceiver_of_grounded (h : s.Grounded) : s.withReceiver receiver = s := by
  unfold withReceiver
  rw [contains_receiver.mpr h, if_neg Bool.false_ne_true]

theorem wellFormed_inPlace (hr : receiver.WellFormed) (member : TypeName) : (receiver.inPlace member).WellFormed := by
  unfold inPlace
  split
  · exact hr
  · exact wellFormed_ofList _

theorem covers_inPlace {u : TypeName} (hu : u ≠ .undefined) (hr : u ≠ .receiver) : (receiver.inPlace u).Covers t ↔ u = t := by
  rw [inPlace, if_neg hr]
  exact ⟨fun h => (eq_of_covers_single h hu).symm, fun h => h ▸ covers_single u⟩

/-- The members of a set of which something is known, each with what it says. -/
theorem flatMap_inPlace (hs : s.isUndefined = false) :
    (s.members.flatMap fun u => if u = .receiver then receiver.members else [u]) =
      (s.members.map receiver.inPlace).flatMap members := by
  rw [List.flatMap_map]
  refine List.flatMap_congr fun u hu => ?_
  unfold inPlace
  split
  · rfl
  · simp [single, ofList, distinct, (ne_undefined_of_mem hs hu).symm]

theorem covers_withReceiver (hs : s.WellFormed) (hr : receiver.WellFormed) :
    (s.withReceiver receiver).Covers t ↔ s.Finds fun u => (receiver.inPlace u).Covers t := by
  cases hu : s.isUndefined with
  | true =>
    rw [withReceiver_of_grounded (by simp [hs.eq_undefined hu, Grounded, undefined])]
    exact iff_of_true (.inl hu) (.inl hu)
  | false =>
    simp only [Finds, hu, Bool.false_eq_true, false_or]
    by_cases hm : .receiver ∈ s.members
    · unfold withReceiver
      rw [if_pos (by simpa [contains] using hm), flatMap_inPlace hu, covers_ofList_members]
      · simp
      · simpa using hs.nonempty
      · exact List.forall_mem_map.mpr fun u _ => wellFormed_inPlace hr u
    · rw [withReceiver_of_grounded hm, Covers, hu]
      have hmember : ∀ u ∈ s.members, (receiver.inPlace u).Covers t ↔ u = t := fun u hu' =>
        covers_inPlace (ne_undefined_of_mem hu hu') fun h => hm (h ▸ hu')
      constructor
      · rintro (h | h)
        · cases h
        · exact ⟨t, h, (hmember t h).mpr rfl⟩
      · rintro ⟨u, hu', h⟩
        exact .inr ((hmember u hu').mp h ▸ hu')

theorem wellFormed_withReceiver (hs : s.WellFormed) (hr : receiver.WellFormed) : (s.withReceiver receiver).WellFormed :=
  closed_wellFormed.withReceiver hs hr

theorem withReceiver_union (ha : a.WellFormed) (hb : b.WellFormed) (hr : receiver.WellFormed) :
    ((a.union b).withReceiver receiver).same ((a.withReceiver receiver).union (b.withReceiver receiver)) = true := by
  have hu := wellFormed_union a b
  rw [same_iff (wellFormed_withReceiver hu hr) (wellFormed_union _ _)]
  intro t
  rw [covers_withReceiver hu hr, finds_union ha, covers_union (wellFormed_withReceiver ha hr),
    covers_withReceiver ha hr, covers_withReceiver hb hr]

end TypeSet

/-! ## Results -/

namespace Results

open TypeSet (WellFormed closed_wellFormed wellFormed_withReceiver)

variable {x y : Results} {receiver : TypeSet}

theorem isUnknown_withReceiver (x : Results) : (x.withReceiver receiver).isUnknown = x.isUnknown := by
  cases x <;> rfl

theorem length_withReceiver (x : Results) : (x.withReceiver receiver).toList.length = x.toList.length := by
  cases x with
  | unknown => rfl
  | slots types => exact List.length_map _

/-- What is read past the last slot does not name the receiver. -/
theorem get_withReceiver (x : Results) (i : Nat) : (x.withReceiver receiver).get i = (x.get i).withReceiver receiver := by
  cases x with
  | unknown => rfl
  | slots types =>
    show ((types.map (·.withReceiver receiver))[i]?).getD .unset = (types[i]?.getD .unset).withReceiver receiver
    rw [List.getElem?_map]
    cases types[i]? with
    | none => rfl
    | some s => rfl

theorem wellFormed_withReceiver (hx : x.All WellFormed) (hr : receiver.WellFormed) : (x.withReceiver receiver).All WellFormed :=
  all_withReceiver fun s hs => TypeSet.wellFormed_withReceiver (hx s hs) hr

theorem withReceiver_combine (hx : x.All WellFormed) (hy : y.All WellFormed) (hr : receiver.WellFormed) :
    ((x.combine y).withReceiver receiver).same ((x.withReceiver receiver).combine (y.withReceiver receiver)) = true := by
  have hxy := hx.combine hy closed_wellFormed
  have hparts := (wellFormed_withReceiver hx hr).combine (wellFormed_withReceiver hy hr) closed_wellFormed
  rw [same_iff (wellFormed_withReceiver hxy hr) hparts]
  refine ⟨by simp only [isUnknown_withReceiver, isUnknown_combine], ?_, fun i t => ?_⟩
  · rw [length_withReceiver]
    cases x <;> cases y <;> simp [combine, withReceiver, toList]
  · have hi := hx.get closed_wellFormed i
    have hi' := hy.get closed_wellFormed i
    simp only [get_withReceiver, get_combine]
    have hslot := TypeSet.withReceiver_union hi hi' hr
    exact (TypeSet.same_iff (TypeSet.wellFormed_withReceiver (TypeSet.wellFormed_union _ _) hr)
      (TypeSet.wellFormed_union _ _)).mp hslot t

/-- Putting the receiver in the place of its stand-in goes through unions and combinations,
    and if the receiver does not name the stand-in itself, none is left and doing it again
    changes nothing. -/
theorem withReceiver_homomorphism {a b : TypeSet} (ha : a.WellFormed) (hb : b.WellFormed) (hr : receiver.WellFormed)
    (hx : x.All WellFormed) (hy : y.All WellFormed) :
    ((a.union b).withReceiver receiver).same ((a.withReceiver receiver).union (b.withReceiver receiver)) = true ∧
      (receiver.contains .receiver = false → (a.withReceiver receiver).contains .receiver = false ∧
        (a.withReceiver receiver).withReceiver receiver = a.withReceiver receiver) ∧
      ((x.combine y).withReceiver receiver).same ((x.withReceiver receiver).combine (y.withReceiver receiver)) = true := by
  refine ⟨TypeSet.withReceiver_union ha hb hr, fun hc => ?_, withReceiver_combine hx hy hr⟩
  have hgrounded := TypeSet.grounded_withReceiver (TypeSet.contains_receiver.mp hc) a
  exact ⟨TypeSet.contains_receiver.mpr hgrounded, TypeSet.withReceiver_of_grounded hgrounded⟩

/-- An integer receiver; one operand has the stand-in beside another type, the other has the
    receiver's own. -/
theorem withReceiver_homomorphism_integer :
    let a : TypeSet := .ofList [.receiver, .unset]
    let b : TypeSet := .ofList [.integer, .unset]
    let receiver : TypeSet := .single .integer
    ((a.union b).withReceiver receiver).same ((a.withReceiver receiver).union (b.withReceiver receiver)) = true ∧
      (a.withReceiver receiver).withReceiver receiver = a.withReceiver receiver ∧
      (((single a).combine nothing).withReceiver receiver).same
        (((single a).withReceiver receiver).combine (nothing.withReceiver receiver)) = true := by
  intro a b receiver
  have ha : a.WellFormed := TypeSet.wellFormed_ofList _
  have hb : b.WellFormed := TypeSet.wellFormed_ofList _
  have hr : receiver.WellFormed := TypeSet.wellFormed_ofList _
  obtain ⟨hunion, hagain, hcombine⟩ := withReceiver_homomorphism ha hb hr (all_single ha) all_nothing
  exact ⟨hunion, (hagain (by decide)).2, hcombine⟩

end Results

end Magik
