/-
  Magik.Proofs.Reasoning.Upkeep — beliefs that reasoning leaves alone.

  A node is aloof from an entry if nothing in it gives the entry a value and no condition
  in it is about the entry. Reasoning about such a node may do anything else: what was
  known before it of the types believed of the entry is known after it (`Reasons.upholds`).
  Knowledge has to be such that branches may be joined (`Standing`); that nothing is
  believed is one kind of it, that some type is covered another.
-/

import Magik.Proofs.Reasoning.Believing
import Magik.Proofs.Reasoning.Recording

namespace Magik

variable {w : World} {x : Nat}

open Node (Way)

/-- Restrictions that do not name an entry leave it as it was. -/
theorem World.find?_narrowed_of_not_mem {package : String} {base : Flow} {rs : List Restriction}
    (h : ∀ r ∈ rs, x ∉ r.entries) : (w.narrowed package base rs).believed.find? x = base.believed.find? x := by
  have hnone : (Restriction.combine rs (w.entryTypes package base)).find? x = none := by
    rw [Table.find?_eq_none_iff]
    intro hx
    obtain ⟨r, hr, hm⟩ := Restriction.mem_keys_combine hx
    exact h r hr hm
  rw [find?_believed_narrowed, hnone, Option.map_none, Option.none_or]

/-- A handler gives a value to nothing that is not in the scope of its body. -/
theorem World.find?_handlerFlow_of_ne {handler : Node} (h : ∀ body ∈ handler.children, ∀ s name, w.scopes.scopeOpenedBy? body.number = some s →
      w.scopes.entryIn? name s ≠ some x) (before : Flow) (binding : Option String) :
    (w.handlerFlow before binding handler).believed.find? x = before.believed.find? x := by
  unfold handlerFlow
  dsimp only
  split
  · rename_i entry hentry
    obtain ⟨s, hs, hbound⟩ := Option.bind_eq_some_iff.mp hentry
    obtain ⟨name, -, hin⟩ := Option.bind_eq_some_iff.mp hbound
    obtain ⟨body, hbody, ho⟩ := Option.bind_eq_some_iff.mp hs
    have hne : entry ≠ x := fun he => h body (List.mem_of_getElem? hbody) s name ho (he ▸ hin)
    simp [Flow.believe, Table.find?_insert, hne]
  · rfl

namespace Node

/-- The conditions that are tested in a node. -/
def conditions (n : Node) : List Node := n.withDescendants.filterMap tested?

theorem mem_conditions {n m c : Node} {as : List Node} (hw : Way n m as) (hc : m.tested? = some c) : c ∈ n.conditions :=
  List.mem_filterMap.mpr ⟨m, hw.mem_withDescendants, hc⟩

end Node

namespace World

variable {w : World} {package : String} {x : Nat} {Φ : Option TypeSet → Prop} {n : Node}

/-! ## Aloof nodes -/

section

variable (w : World) (package : String) (x : Nat)

/-- Nothing in the node gives the entry a value. -/
structure Ungiven (n : Node) : Prop where
  given {m c : Node} {as : List Node} : Way n m as → c ∈ m.given → w.scopes.entryOf? c.number ≠ some x
  caught {m : Node} {as : List Node} {names : List String} {before : Flow} {binding : Option String} : Way n m as →
    m.kind = .handler names → (w.handlerFlow before binding m).believed.find? x = before.believed.find? x
  noPackage {m : Node} {as : List Node} {name : String} : Way n m as → m.kind ≠ .package name

/-- Nor is a condition in the node about it. -/
structure Aloof (n : Node) : Prop extends w.Ungiven x n where
  tested {m c : Node} {as : List Node} : Way n m as → m.tested? = some c →
    ∀ k : Memory, k.package = package → x ∉ (w.restriction k c).entries

/-- Knowledge of what is believed that joined branches share if each of them has it. -/
def Standing (Φ : Option TypeSet → Prop) : Prop :=
  ∀ (inside : List Nat) (before : Flow) (live : List Flow), live ≠ [] → (∀ f ∈ live, Φ (f.believed.find? x)) →
    Φ ((w.mergeLive package inside before live).believed.find? x)

end

theorem Ungiven.below {c : Node} {as : List Node} (h : w.Ungiven x n) (hw : Way n c as) : w.Ungiven x c where
  given hm := h.given (hw.trans hm)
  caught hm := h.caught (hw.trans hm)
  noPackage hm := h.noPackage (hw.trans hm)

theorem Aloof.child {n c : Node} (h : w.Aloof package x n) (hc : c ∈ n.children) : w.Aloof package x c where
  toUngiven := h.toUngiven.below (.child .root hc)
  tested hw := h.tested (hw.under hc)

/-- Nothing is believed of the entry. -/
theorem standing_none : w.Standing package x (· = none) := by
  intro inside before live _ hl
  have hkeys : x ∉ (live.flatMap fun f => f.believed.keys).eraseDups := by
    intro hm
    obtain ⟨f, hf, hk⟩ := List.mem_flatMap.mp (List.mem_eraseDups.mp hm)
    exact Table.find?_eq_none_iff.mp (hl f hf) hk
  rw [World.find?_believed_mergeLive, if_neg hkeys]

/-! ## Reasoning by the rules -/

/-- What is known of the entry stays known. A definition inside a node starts with no
    beliefs at all, so within it that nothing is believed of the entry is what is known. -/
def upkeep (w : World) (package : String) (x : Nat) : Invariant w where
  types _ := True
  Known := { Φ : Option TypeSet → Prop // w.Standing package x Φ }
  fresh := ⟨(· = none), standing_none⟩
  flow Φ f := Φ.1 (f.believed.find? x)
  package := (· = package)
  restriction r := x ∉ r.entries
  node := w.Aloof package x
  closed := TypeSet.closed_true
  supplies := supplies_true w
  child h hc := h.child hc
  packaged h hk := absurd hk (h.noPackage .root)
  started := rfl
  exited h := h
  believed {Φ f n c entry s} h hc he hf := by
    have hne : entry ≠ x := fun hx => h.given .root hc (hx ▸ he)
    show Φ.1 ((f.believed.insert entry s).find? x)
    rw [Table.find?_insert, if_neg hne]
    exact hf
  caught {Φ _ _ _ _} h hk hf := (congrArg Φ.1 (h.caught .root hk)).mpr hf
  narrowed {Φ _ _ _} _ hf hr := (congrArg Φ.1 (find?_narrowed_of_not_mem hr)).mpr hf
  joined {Φ _ _ _ _} hp hl hf := by
    subst hp
    exact Φ.2 _ _ _ hl fun f hm => (hf f hm).2
  tested h hc hp := h.tested .root hc _ hp
  negated {r} h := (Restriction.entries_negate r).symm ▸ h

theorem holds_upkeep {m : Moment} (hΦ : w.Standing package x Φ) (hp : m.memory.package = package)
    (hf : Φ (m.flow.believed.find? x)) : (w.upkeep package x).Holds ⟨Φ, hΦ⟩ m :=
  ⟨⟨m.all_true.1, hf⟩, m.all_true.2, hp⟩

theorem Reasons.upholds {around : Around} {p : Reason Results} (h : Reasons w around n p) (ha : w.Aloof package x n)
    (hΦ : w.Standing package x Φ) (m : Moment) (hp : m.memory.package = package) (hf : Φ (m.flow.believed.find? x)) :
    Φ ((p m).2.flow.believed.find? x) :=
  (h.records (I := w.upkeep package x) (n.framed_true _) ha ⟨Φ, hΦ⟩ m (holds_upkeep hΦ hp hf)).2.flow.flow

end World

end Magik
