/-
  Magik.Proofs.Types.Splitting — what two sets share, and what the second leaves of the first.

  Both are members of the first set in its order. An answer is missing if it would be empty;
  what is left is also missing if it would be everything (`intersect_eq`, `difference_eq`).
  Where both answers are there they are two parts of the first set, and taking one of two
  sets that share nothing from their union gives back the other one.
-/

import Magik.Proofs.Types.Joins

namespace Magik.TypeSet

variable {a b s r : TypeSet} {ts : List TypeName}

/-- The sets share no member. -/
def Apart (a b : TypeSet) : Prop := ∀ t ∈ a.members, t ∉ b.members

/-- Every member of the first set is one of the second. -/
def Within (a b : TypeSet) : Prop := ∀ t ∈ a.members, t ∈ b.members

instance : Decidable (a.Apart b) := inferInstanceAs (Decidable (∀ t ∈ a.members, t ∉ b.members))

instance : Decidable (a.Within b) := inferInstanceAs (Decidable (∀ t ∈ a.members, t ∈ b.members))

theorem WellFormed.isUndefined_eq_false (h : s.WellFormed) (hs : s ≠ undefined) : s.isUndefined = false :=
  Bool.eq_false_iff.mpr fun hu => hs (h.eq_undefined hu)

theorem Apart.symm (h : a.Apart b) : b.Apart a := fun t hb ha => h t ha hb

section Known

variable (ha : a.isUndefined = false) (hb : b.isUndefined = false)
include ha hb

theorem intersect_eq : a.intersect b = if a.Apart b then none else some ⟨a.members.filter (· ∈ b.members)⟩ := by
  have hnil : a.members.filter b.contains = [] ↔ a.Apart b := by simp [List.filter_eq_nil_iff, contains, Apart]
  unfold intersect
  rw [if_neg (by simp [ha]), if_neg (by simp [hb])]
  split
  next he => rw [if_pos (hnil.mp he)]
  next hne => rw [if_neg fun h => hne (hnil.mpr h)]; rfl

theorem difference_eq :
    a.difference b = if a.Apart b ∨ a.Within b then none else some ⟨a.members.filter (· ∉ b.members)⟩ := by
  have hfilter : (a.members.filter fun t => !b.contains t) = a.members.filter (· ∉ b.members) :=
    List.filter_congr fun t _ => by simp [contains]
  have hall : (a.members.filter (· ∉ b.members)).length = a.size ↔ a.Apart b := by
    simp [size, List.length_filter_eq_length_iff, Apart]
  have hnil : a.members.filter (· ∉ b.members) = [] ↔ a.Within b := by simp [List.filter_eq_nil_iff, Within]
  unfold difference
  rw [if_neg (by simp [ha, hb])]
  simp only [hfilter, hall, hnil]

section Parts

variable (hwa : a.WellFormed) (hwb : b.WellFormed)
include hwa hwb

theorem union_eq_append (h : a.Apart b) : a.union b = ⟨a.members ++ b.members⟩ := by
  have hnodup : (a.members ++ b.members).Nodup :=
    List.nodup_append.mpr ⟨hwa.nodup, hwb.nodup, fun t ht u hu he => h t ht (he ▸ hu)⟩
  have hknown : .undefined ∉ a.members ∧ .undefined ∉ b.members := by simp [← isUndefined_iff, ha, hb]
  rw [union_eq_ofList ha hb, ofList, if_neg (by simp [hwa.nonempty, hknown]), distinct_of_nodup hnodup]

/-- What is shared and what is left are two parts of the first set. -/
theorem parts_of_split (hs : a.intersect b = some s) (hr : a.difference b = some r) :
    s.Apart r ∧ (s.union r).same a = true := by
  have hws : s.WellFormed := closed_wellFormed.intersect hwa hwb hs
  have hwr : r.WellFormed := closed_wellFormed.difference hwa hr
  rw [intersect_eq ha hb, ite_eq_iff] at hs
  rw [difference_eq ha hb, ite_eq_iff] at hr
  obtain ⟨-, hs⟩ := hs.resolve_left (by simp)
  obtain ⟨-, hr⟩ := hr.resolve_left (by simp)
  cases hs
  cases hr
  have hapart : Apart ⟨a.members.filter (· ∈ b.members)⟩ ⟨a.members.filter (· ∉ b.members)⟩ := by
    intro t ht ht'
    simp only [List.mem_filter, decide_eq_true_eq] at ht ht'
    exact ht'.2 ht.2
  have hknown (p : TypeName → Bool) : isUndefined ⟨a.members.filter p⟩ = false := by
    rw [Bool.eq_false_iff, Ne, isUndefined_iff, List.mem_filter, ← isUndefined_iff, ha]
    simp
  refine ⟨hapart, ?_⟩
  rw [union_eq_append (hknown _) (hknown _) hws hwr hapart]
  have hperm : (a.members.filter (· ∈ b.members) ++ a.members.filter (· ∉ b.members)).Perm a.members := by
    simpa using List.filter_append_perm (· ∈ b.members) a.members
  simp only [same, size, contains, Bool.and_eq_true, beq_iff_eq, List.all_eq_true, decide_eq_true_eq]
  exact ⟨hperm.length_eq, fun t ht => hperm.mem_iff.mp ht⟩

end Parts

/-- Taking away a set that meets another one and leaves something of it. -/
theorem difference_eq_some (hmeet : ¬ a.Apart b) (hs : s.members ≠ []) (h : a.members.filter (· ∉ b.members) = s.members) :
    a.difference b = some s := by
  have hwithin : ¬ a.Within b := fun hw => hs (h ▸ List.filter_eq_nil_iff.mpr fun t ht => by simpa using hw t ht)
  rw [difference_eq ha hb, if_neg (not_or.mpr ⟨hmeet, hwithin⟩), h]

end Known

/-- Two sets of which something is known. What both have and what only the first has are
    members of the first in its order, if there are any, and if there are both they make up
    the first. Of the union of sets that share nothing, taking one away leaves the other. -/
theorem split_by_members (ha : a.WellFormed) (hb : b.WellFormed) (hua : a ≠ undefined) (hub : b ≠ undefined) :
    a.intersect b = (if a.Apart b then none else some ⟨a.members.filter (· ∈ b.members)⟩) ∧
      a.difference b = (if a.Apart b ∨ a.Within b then none else some ⟨a.members.filter (· ∉ b.members)⟩) ∧
      (∀ s r, a.intersect b = some s → a.difference b = some r → s.Apart r ∧ (s.union r).same a = true) ∧
      (a.Apart b → (a.union b).difference a = some b ∧ (a.union b).difference b = some a) := by
  have ka := ha.isUndefined_eq_false hua
  have kb := hb.isUndefined_eq_false hub
  refine ⟨intersect_eq ka kb, difference_eq ka kb, fun s r => parts_of_split ka kb ha hb, fun h => ?_⟩
  rw [union_eq_append ka kb ha hb h]
  have ku : isUndefined ⟨a.members ++ b.members⟩ = false := by
    rw [Bool.eq_false_iff, Ne, isUndefined_iff, List.mem_append, ← isUndefined_iff, ← isUndefined_iff, ka, kb]
    simp
  obtain ⟨t, ht⟩ := List.exists_mem_of_ne_nil _ ha.nonempty
  obtain ⟨u, hu⟩ := List.exists_mem_of_ne_nil _ hb.nonempty
  have hgone (s : TypeSet) : s.members.filter (· ∉ s.members) = [] := List.filter_eq_nil_iff.mpr (by simp)
  have hkept {s r : TypeSet} (h : s.Apart r) : s.members.filter (· ∉ r.members) = s.members :=
    List.filter_eq_self.mpr fun t ht => decide_eq_true (h t ht)
  constructor
  · refine difference_eq_some ku ka (fun hd => hd t (by simp [ht]) ht) hb.nonempty ?_
    rw [List.filter_append, hgone, List.nil_append, hkept h.symm]
  · refine difference_eq_some ku kb (fun hd => hd u (by simp [hu]) hu) ha.nonempty ?_
    rw [List.filter_append, hgone, List.append_nil, hkept h]

/-- Two of three types, taken from a set of three and one of two. -/
theorem split_by_members_integer :
    let a : TypeSet := .ofList [.integer, .symbol, .unset]
    let b : TypeSet := .ofList [.unset, .integer]
    let c : TypeSet := .single .float
    a.intersect b = some ⟨[.integer, .unset]⟩ ∧ a.difference b = some ⟨[.symbol]⟩ ∧
      (∀ s r, a.intersect b = some s → a.difference b = some r → (s.union r).same a = true) ∧
      (a.union c).difference a = some c := by
  intro a b c
  have ha : a.WellFormed := wellFormed_ofList _
  obtain ⟨hi, hd, hparts, -⟩ := split_by_members ha (b := b) (wellFormed_ofList _) (by decide) (by decide)
  obtain ⟨-, -, -, happart⟩ := split_by_members ha (b := c) (wellFormed_ofList _) (by decide) (by decide)
  exact ⟨by rw [hi]; decide, by rw [hd]; decide, fun s r hs hr => (hparts s r hs hr).2, (happart (by decide)).1⟩

end Magik.TypeSet
