/-
  Magik.Proofs.Syntax.Arenas — what the arena says of the nodes of a tree.

  An arena holds a tree if each of its nodes is stored at its number, and there the number of
  the node above it as its parent (`Holds`). A new node changes nothing in the arena but the
  parents of its children (`getElem?_add`). So it is held if they were, and had no parents yet
  (`holds_add`). In a file that was read, going from parent to parent is then going the way up
  (`FormedFile.ancestors_of_way`).
-/

import Magik.Proofs.Syntax.Ways

namespace Magik

open Node (Way Built)

variable {n m : Node} {ns as : List Node} {i : Nat}

namespace Arena

variable {a b : Arena}

theorem size_adopt (a : Arena) (parent : Nat) (ns : List Node) : (a.adopt parent ns).size = a.size := by
  unfold adopt
  induction ns generalizing a with
  | nil => rfl
  | cons c ns ih => rw [List.foldl_cons, ih, Array.size_modify]

@[simp] theorem size_add (a : Arena) (n : Node) : (a.add n).size = a.size + 1 := by
  rw [add, Array.size_push, size_adopt]

theorem getElem?_adopt (a : Arena) (parent i : Nat) (ns : List Node) :
    (a.adopt parent ns)[i]? =
      a[i]?.map fun slot => if i ∈ ns.map Node.number then { slot with parent := some parent } else slot := by
  unfold adopt
  induction ns generalizing a with
  | nil => simp
  | cons c ns ih =>
    rw [List.foldl_cons, ih, Array.getElem?_modify]
    cases a[i]? with
    | none => simp
    | some slot =>
      by_cases hc : c.number = i
      · simp [hc]
      · simp [hc, Ne.symm hc]

theorem getElem?_add (a : Arena) (n : Node) (i : Nat) :
    (a.add n)[i]? = if i = a.size then some ⟨n, none⟩ else
      a[i]?.map fun slot => if i ∈ n.children.map Node.number then { slot with parent := some n.number } else slot := by
  rw [add, Array.getElem?_push, size_adopt, getElem?_adopt]

/-- A tree is stored, each node with the number of the one above it. -/
def Holds (a : Arena) (n : Node) : Prop :=
  ∀ m as, Way n m as → a[m.number]? = some ⟨m, as.head?.map Node.number⟩

theorem Holds.mono (h : a.Holds n) (hb : ∀ i ∈ n.numbers, b[i]? = a[i]?) : b.Holds n := fun m as hw =>
  (hb _ hw.number_mem).trans (h m as hw)

/-- Numbers that are not given to children keep their slots. -/
theorem getElem?_add_of_lt {low : Nat} (hb : Built low a.size n.children) (hl : low ≤ a.size)
    (hi : i < low) : (a.add n)[i]? = a[i]? := by
  have hnone : i ∉ n.children.map Node.number := by
    intro hm
    have := hb.1.2 i ((Node.map_number_sublist _).subset hm)
    omega
  rw [getElem?_add, if_neg (by omega)]
  simp [hnone]

theorem holds_add {low : Nat} {kind : Node.Kind} {span : Span} (h : ∀ n ∈ ns, a.Holds n) (hb : Built low a.size ns)
    (hl : low ≤ a.size) : (a.add ⟨a.size, kind, span, ns⟩).Holds ⟨a.size, kind, span, ns⟩ := by
  have hnodup : (⟨a.size, kind, span, ns⟩ : Node).numbers.Nodup := by
    simpa using (hb.1.node hl kind span).1
  intro m as hw
  rcases hw.cases_root with ⟨rfl, rfl⟩ | ⟨c, hc, bs, hbelow, rfl⟩
  · rw [getElem?_add, if_pos rfl]
    rfl
  · have hlt := (hb.1.2 _ (Node.numbers_subset hc _ hbelow.number_mem)).2
    rw [getElem?_add, if_neg (Nat.ne_of_lt hlt), h c hc m bs hbelow]
    cases hbelow with
    | root => simp [List.mem_map_of_mem hc]
    | @child p _ bs up hm =>
      -- it is below a child, so it is none
      have hnone : m.number ∉ ns.map Node.number := by
        intro hin
        obtain ⟨d, hd, he⟩ := List.mem_map.mp hin
        obtain ⟨-, has⟩ := (Way.child .root hd).unique hnodup hw he
        simp at has
      simp [hnone]

end Arena

namespace SyntaxTree

variable {tree : SyntaxTree}

/-- The tree is a formed file. Its nodes have different numbers, the file has the last one that was given, and
    the arena has them all. -/
structure FormedFile (tree : SyntaxTree) : Prop where
  formed : tree.root.Formed
  file : tree.root.kind = .file
  nodup : tree.root.numbers.Nodup
  last : tree.root.number + 1 = tree.size
  held : tree.arena.Holds tree.root

namespace FormedFile

theorem find?_of_way (h : tree.FormedFile) (hw : Way tree.root n as) : tree.find? n.number = some n := by
  rw [find?, h.held n as hw]
  rfl

theorem parent?_of_way (h : tree.FormedFile) (hw : Way tree.root n as) :
    tree.parent? n.number = as.head?.map Node.number := by
  rw [parent?, h.held n as hw]
  rfl

/-- From parent to parent one goes the way up. -/
theorem ancestors_of_way (h : tree.FormedFile) (hw : Way tree.root n as) : tree.ancestors n.number = as := by
  induction hw with
  | root =>
    rw [ancestors, h.parent?_of_way .root]
    rfl
  | @child p c as up hc ih =>
    obtain ⟨hlt, hslot⟩ := Array.getElem?_eq_some_iff.mp (h.held p as up)
    have hparent : tree.parent? c.number = some p.number := h.parent?_of_way (.child up hc)
    rw [ancestors, hparent]
    dsimp only
    rw [dif_pos ⟨(up.formed h.formed).smaller hc, hlt⟩, hslot, ih]

end FormedFile

end SyntaxTree

end Magik
