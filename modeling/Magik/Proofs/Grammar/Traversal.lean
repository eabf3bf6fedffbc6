/-
  Magik.Proofs.Grammar.Traversal — the traversal of a tree lists it in pre-order.

  All that is below a node is one stretch of the traversal, in which what is below each child
  is one stretch again (`Way.infix_descendants`, `sublist_descendants`). Numbers are enough to find
  the way: a loop that keeps a stack of them comes to its end, as no two nodes of a tree that
  was read have the same (`rounds_drain`).
-/

import Mathlib.Data.List.Flatten
import Magik.Proofs.Grammar.Tracing

namespace Magik

/-! ## Stretches of the traversal -/

namespace Node

variable {n m p c : Node} {as : List Node}

theorem Way.infix (h : Way n m as) : m.withDescendants <:+: n.withDescendants := by
  induction h with
  | root => exact List.infix_rfl
  | child _ hc ih => exact ((infix_drain hc).trans (List.suffix_cons _ _).isInfix).trans ih

theorem Way.infix_descendants (h : Way n m (p :: as)) : m.withDescendants <:+: n.descendants := by
  rcases h.cases_root with ⟨-, hnil⟩ | ⟨c, hc, bs, hw, -⟩
  · cases hnil
  · exact hw.infix.trans (infix_drain hc)

theorem mem_descendants_iff : m ∈ n.descendants ↔ ∃ p as, Way n m (p :: as) := by
  constructor
  · intro hm
    obtain ⟨c, hc, as, hw⟩ := exists_way_of_mem_drain _ hm
    obtain ⟨p, bs, he⟩ := List.exists_cons_of_ne_nil (List.append_ne_nil_of_right_ne_nil as (List.cons_ne_nil n []))
    exact ⟨p, bs, he ▸ hw.under hc⟩
  · rintro ⟨p, as, hw⟩
    exact hw.infix_descendants.subset (.head _)

theorem drain_eq_flatMap (ns : List Node) : drain ns = ns.flatMap withDescendants := by
  induction ns with
  | nil => simp [drain]
  | cons n ns ih => rw [← List.singleton_append, drain_append, drain_singleton, ih, List.singleton_append, List.flatMap_cons]

/-- All that is below a child comes before what is below a later one. -/
theorem sublist_descendants {d : Node} (h : [c, d].Sublist n.children) :
    (c.withDescendants ++ d.withDescendants).Sublist n.descendants := by
  have hpair := h.flatMap withDescendants
  rwa [← drain_eq_flatMap, ← drain_eq_flatMap, ← List.singleton_append, drain_append, drain_singleton, drain_singleton]
    at hpair

end Node

/-! ## A stack of numbers -/

/-- The numbers that were met, and a stack of those to come, the next one last. -/
structure Traversal where
  met : List Nat
  stack : List Nat

namespace SyntaxTree

open Node (Way drain)

/-- Takes the last number off the stack and puts the children of its node there, the first one last. -/
def round (t : SyntaxTree) (s : Traversal) : Option Traversal := do
  let number ← s.stack.getLast?
  let n ← t.find? number
  return ⟨s.met ++ [number], s.stack.dropLast ++ (n.children.map Node.number).reverse⟩

def rounds (t : SyntaxTree) : Nat → Traversal → Option Traversal
  | 0, s => some s
  | k + 1, s => (t.round s).bind (t.rounds k)

variable {t : SyntaxTree}

/-- A stack holds the numbers of trees, of which the first one is traversed next. -/
theorem rounds_drain (h : t.FormedFile) (ns : List Node) (hw : ∀ n ∈ ns, ∃ as, Way t.root n as) (met : List Nat) :
    t.rounds (drain ns).length ⟨met, (ns.map Node.number).reverse⟩ = some ⟨met ++ (drain ns).map Node.number, []⟩ := by
  fun_induction drain ns generalizing met with
  | case1 => simp [rounds]
  | case2 n stack ih =>
    obtain ⟨as, hwn⟩ := hw n (by simp)
    have hround : t.round ⟨met, ((n :: stack).map Node.number).reverse⟩ =
        some ⟨met ++ [n.number], ((n.children ++ stack).map Node.number).reverse⟩ := by
      simp [round, h.find?_of_way hwn]
    rw [List.length_cons, rounds, hround, Option.bind_some, ih]
    · simp
    · intro m hm
      rcases List.mem_append.mp hm with hm | hm
      · exact ⟨_, .child hwn hm⟩
      · exact hw m (.tail _ hm)

end SyntaxTree

namespace Grammar

open Node (Way)

/-- Whatever is read, what is below a node is listed in pre-order: all nodes that a way leads to from it, each once, with
    what is below a node right after it and what is below a child before what is below a later one. A loop over a stack
    of numbers meets the same nodes, in as many rounds, and then has nothing left to do. -/
theorem descendants_preorder (tokens : List Token) {n : Node} {as : List Node} (hw : Way (parse tokens).1.root n as) :
    (parse tokens).1.rounds n.descendants.length ⟨[], (n.children.map Node.number).reverse⟩ =
      some ⟨n.descendants.map Node.number, []⟩ ∧
    n :: n.descendants = n.preorder ∧
    (∀ m, m ∈ n.descendants ↔ ∃ p bs, Way n m (p :: bs)) ∧
    (n.descendants.map Node.number).Nodup ∧
    (∀ m ∈ n.descendants, m :: m.descendants <:+: n.descendants) ∧
    ∀ p ∈ n :: n.descendants, ∀ c d, [c, d].Sublist p.children →
      ((c :: c.descendants) ++ (d :: d.descendants)).Sublist n.descendants := by
  have h := parse_formedFile tokens
  refine ⟨SyntaxTree.rounds_drain h _ (fun c hc => ⟨_, .child hw hc⟩) [], n.withDescendants_eq_preorder,
    fun m => Node.mem_descendants_iff, ?_, fun m hm => ?_, fun p hp c d hcd => ?_⟩
  · rw [Node.descendants, Node.map_number_drain]
    exact Node.nodup_children (hw.nodup h.nodup)
  · obtain ⟨p, as, hm⟩ := Node.mem_descendants_iff.mp hm
    exact hm.infix_descendants
  · have hpn : p.descendants.Sublist n.descendants := by
      rcases List.mem_cons.mp hp with rfl | hp
      · exact .refl _
      · obtain ⟨q, as, hq⟩ := Node.mem_descendants_iff.mp hp
        exact (List.sublist_cons_self p _).trans hq.infix_descendants.sublist
    exact (Node.sublist_descendants hcd).trans hpn

/-- `f(x + 1, y)`. -/
def callWithSum : List Token :=
  [.name "f" 1 1, ⟨.leftParen, "(", 1, 2⟩, .name "x" 1 3, ⟨.plus, "+", 1, 5⟩, ⟨.integer 1, "1", 1, 7⟩,
    ⟨.comma, ",", 1, 8⟩, .name "y" 1 10, ⟨.rightParen, ")", 1, 11⟩, ⟨.endOfFile, "", 1, 12⟩]

/-- The sum is made after its operands and met before them. -/
theorem descendants_preorder_callWithSum :
    let tree := (parse callWithSum).1
    ∃ n as, Way tree.root n as ∧ n.kind = .call ∧ tree.rounds 5 ⟨[], [4, 3, 0]⟩ = some ⟨[0, 3, 1, 2, 4], []⟩ := by
  intro tree
  obtain ⟨n, hn, hk, hc, hd⟩ : ∃ n ∈ tree.nodes, n.kind = .call ∧ n.children.map Node.number = [0, 3, 4] ∧
      n.descendants.map Node.number = [0, 3, 1, 2, 4] := by decide +kernel
  obtain ⟨as, hw⟩ := SyntaxTree.mem_nodes_iff.mp hn
  have hlength : n.descendants.length = 5 := by simpa using congrArg List.length hd
  have h := (descendants_preorder callWithSum hw).1
  rw [hlength, hc, hd] at h
  exact ⟨n, as, hw, hk, h⟩

end Grammar

end Magik
