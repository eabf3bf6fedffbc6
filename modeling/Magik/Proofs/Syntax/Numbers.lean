/-
  Magik.Proofs.Syntax.Numbers — the numbers in a tree.

  `numbers` lists the numbers of a node and of all below it, by recursion on the tree;
  `map_number_drain` says that the traversal of a stack meets exactly these, and `preorder`
  lists the nodes themselves in the same way. `Fresh`
  says that the numbers of some trees were given between two moments, each once.
  `renumber` gives other numbers to a tree that stays the same otherwise, `unplaced` forgets
  where its nodes are. Whether two trees are the same, numbers and all, can be decided.
-/

import Magik.Syntax.Node

namespace Magik.Node

variable {c n : Node} {ns : List Node} {high k low : Nat}

mutual

/-- The numbers of a node and of the nodes below it. -/
def numbers : Node → List Nat
  | ⟨number, _, _, children⟩ => number :: numbersAll children

def numbersAll : List Node → List Nat
  | [] => []
  | n :: ns => n.numbers ++ numbersAll ns

end

theorem numbers_eq (n : Node) : n.numbers = n.number :: numbersAll n.children := by
  cases n
  simp [numbers]

@[simp] theorem numbersAll_nil : numbersAll [] = [] := by simp [numbersAll]

@[simp] theorem numbersAll_cons (n : Node) (ns : List Node) : numbersAll (n :: ns) = n.numbers ++ numbersAll ns := by
  simp [numbersAll]

@[simp] theorem numbersAll_append (a b : List Node) : numbersAll (a ++ b) = numbersAll a ++ numbersAll b := by
  induction a with
  | nil => simp
  | cons n ns ih => simp [ih]

theorem number_mem_numbers (n : Node) : n.number ∈ n.numbers := by simp [numbers_eq]

theorem numbers_subset (h : n ∈ ns) : ∀ k ∈ n.numbers, k ∈ numbersAll ns := by
  induction ns with
  | nil => cases h
  | cons m ms ih =>
    intro k hk
    rw [numbersAll_cons]
    rcases List.mem_cons.mp h with rfl | h
    · exact List.mem_append_left _ hk
    · exact List.mem_append_right _ (ih h k hk)

theorem mem_numbers_of_child (hc : c ∈ n.children) (hk : k ∈ c.numbers) : k ∈ n.numbers := by
  rw [numbers_eq]
  exact .tail _ (numbers_subset hc k hk)

theorem weight_lt_of_child (hc : c ∈ n.children) : c.weight < n.weight := by
  obtain ⟨a, b, he⟩ := List.append_of_mem hc
  rw [weight_eq n, he, weightAll_append, weightAll]
  omega

/-- A node can count on its children. -/
theorem induction_children {motive : Node → Prop} (node : ∀ n, (∀ c ∈ n.children, motive c) → motive n) (n : Node) :
    motive n :=
  node n fun c _ => induction_children node c
termination_by n.weight
decreasing_by exact weight_lt_of_child ‹_›

theorem exists_of_mem_numbersAll (h : k ∈ numbersAll ns) : ∃ n ∈ ns, k ∈ n.numbers := by
  induction ns with
  | nil => simp at h
  | cons m ms ih =>
    rw [numbersAll_cons, List.mem_append] at h
    rcases h with h | h
    · exact ⟨m, by simp, h⟩
    · obtain ⟨n, hn, hk⟩ := ih h
      exact ⟨n, .tail _ hn, hk⟩

/-- The traversal of a stack of trees meets their numbers in this order. -/
theorem map_number_drain (ns : List Node) : (drain ns).map Node.number = numbersAll ns := by
  fun_induction drain ns with
  | case1 => simp
  | case2 n stack ih => simp [ih, numbers_eq]

theorem drain_append (a b : List Node) : drain (a ++ b) = drain a ++ drain b := by
  fun_induction drain a with
  | case1 => rfl
  | case2 n stack ih => rw [List.cons_append, drain, List.cons_append, ← ih, List.append_assoc]

theorem drain_singleton (n : Node) : drain [n] = n.withDescendants := by
  rw [drain, List.append_nil]
  rfl

mutual

/-- A node, and after it what is below each of its children in turn. -/
def preorder : Node → List Node
  | ⟨number, kind, span, children⟩ => ⟨number, kind, span, children⟩ :: preorderAll children

def preorderAll : List Node → List Node
  | [] => []
  | n :: ns => n.preorder ++ preorderAll ns

end

theorem preorder_eq (n : Node) : n.preorder = n :: preorderAll n.children := by
  obtain ⟨number, kind, span, children⟩ := n
  simp [preorder]

theorem preorderAll_append (a b : List Node) : preorderAll (a ++ b) = preorderAll a ++ preorderAll b := by
  induction a with
  | nil => simp [preorderAll]
  | cons n ns ih => simp [preorderAll, ih]

/-- The traversal of a stack is that of its trees, one after the other. -/
theorem drain_eq_preorderAll (ns : List Node) : drain ns = preorderAll ns := by
  fun_induction drain ns with
  | case1 => simp [preorderAll]
  | case2 n stack ih => simp [ih, preorderAll, preorder_eq, preorderAll_append]

theorem withDescendants_eq_preorder (n : Node) : n.withDescendants = n.preorder := by
  simp [withDescendants, descendants, drain_eq_preorderAll, preorder_eq]

/-- What is below a tree is one stretch of the traversal. -/
theorem infix_drain (hn : n ∈ ns) : n.withDescendants <:+: drain ns := by
  obtain ⟨before, after, rfl⟩ := List.append_of_mem hn
  refine ⟨drain before, drain after, ?_⟩
  rw [← drain_singleton, ← drain_append, ← drain_append, List.append_assoc, List.singleton_append]

theorem mem_drain {k : Node} (hn : n ∈ ns) (hk : k ∈ n.withDescendants) : k ∈ drain ns :=
  (infix_drain hn).subset hk

/-- What is below a child is below the node. -/
theorem mem_withDescendants {k : Node} (hc : c ∈ n.children) (hk : k ∈ c.withDescendants) : k ∈ n.withDescendants :=
  .tail _ (mem_drain hc hk)

/-! ## Numbers given between two moments -/

/-- The numbers of the trees were given when the next number went from `low` to `high`,
    and none of them twice. -/
def Fresh (low high : Nat) (ns : List Node) : Prop :=
  (numbersAll ns).Nodup ∧ ∀ k ∈ numbersAll ns, low ≤ k ∧ k < high

theorem Fresh.nil (low high : Nat) : Fresh low high [] := by simp [Fresh]

theorem Fresh.append {middle : Nat} {a b : List Node} (ha : Fresh low middle a) (hb : Fresh middle high b)
    (hl : low ≤ middle) (hh : middle ≤ high) : Fresh low high (a ++ b) := by
  constructor
  · rw [numbersAll_append, List.nodup_append]
    refine ⟨ha.1, hb.1, fun x hx y hy => ?_⟩
    have := ha.2 x hx
    have := hb.2 y hy
    omega
  · intro k hk
    rw [numbersAll_append, List.mem_append] at hk
    rcases hk with hk | hk
    · have := ha.2 k hk
      omega
    · have := hb.2 k hk
      omega

/-- A node takes the next number. -/
theorem Fresh.node {children : List Node} (h : Fresh low high children) (hl : low ≤ high) (kind : Kind) (span : Span) :
    Fresh low (high + 1) [⟨high, kind, span, children⟩] := by
  simp only [Fresh, numbersAll_cons, numbersAll_nil, List.append_nil, numbers, List.nodup_cons]
  refine ⟨⟨fun hm => ?_, h.1⟩, fun k hk => ?_⟩
  · exact absurd (h.2 high hm).2 (Nat.lt_irrefl _)
  · rcases List.mem_cons.mp hk with rfl | hk
    · omega
    · have := h.2 k hk
      omega

/-! ## Other numbers -/

mutual

/-- The tree with other numbers. -/
def renumber (f : Nat → Nat) : Node → Node
  | ⟨number, kind, span, children⟩ => ⟨f number, kind, span, renumberAll f children⟩

def renumberAll (f : Nat → Nat) : List Node → List Node
  | [] => []
  | n :: ns => n.renumber f :: renumberAll f ns

end

theorem renumberAll_eq_map (f : Nat → Nat) (ns : List Node) : renumberAll f ns = ns.map (renumber f) := by
  induction ns with
  | nil => simp [renumberAll]
  | cons n ns ih => simp [renumberAll, ih]

theorem renumber_mk (f : Nat → Nat) (number : Nat) (kind : Kind) (span : Span) (children : List Node) :
    renumber f ⟨number, kind, span, children⟩ = ⟨f number, kind, span, children.map (renumber f)⟩ := by
  simp [renumber, renumberAll_eq_map]

@[simp] theorem span_renumber (f : Nat → Nat) (n : Node) : (n.renumber f).span = n.span := by
  cases n
  simp [renumber_mk]

@[simp] theorem number_renumber (f : Nat → Nat) (n : Node) : (n.renumber f).number = f n.number := by
  cases n
  simp [renumber_mk]

@[simp] theorem kind_renumber (f : Nat → Nat) (n : Node) : (n.renumber f).kind = n.kind := by
  cases n
  simp [renumber_mk]

mutual

theorem renumber_renumber (f g : Nat → Nat) : ∀ n : Node, (n.renumber f).renumber g = n.renumber (g ∘ f)
  | ⟨number, kind, span, children⟩ => by simp [renumber, renumberAll_renumberAll f g children]

theorem renumberAll_renumberAll (f g : Nat → Nat) :
    ∀ ns : List Node, renumberAll g (renumberAll f ns) = renumberAll (g ∘ f) ns
  | [] => by simp [renumberAll]
  | n :: ns => by simp [renumberAll, renumber_renumber f g n, renumberAll_renumberAll f g ns]

end

mutual

theorem renumber_id : ∀ n : Node, n.renumber (fun k => k) = n
  | ⟨number, kind, span, children⟩ => by simp [renumber, renumberAll_id children]

theorem renumberAll_id : ∀ ns : List Node, renumberAll (fun k => k) ns = ns
  | [] => by simp [renumberAll]
  | n :: ns => by simp [renumberAll, renumber_id n, renumberAll_id ns]

end

/-! ## Trees without places -/

mutual

/-- The tree without the places of its nodes. -/
def unplaced : Node → Node
  | ⟨number, kind, _, children⟩ => ⟨number, kind, .nowhere, unplacedAll children⟩

def unplacedAll : List Node → List Node
  | [] => []
  | n :: ns => n.unplaced :: unplacedAll ns

end

theorem unplacedAll_eq_map (ns : List Node) : unplacedAll ns = ns.map unplaced := by
  induction ns with
  | nil => simp [unplacedAll]
  | cons n ns ih => simp [unplacedAll, ih]

theorem unplaced_mk (number : Nat) (kind : Kind) (span : Span) (children : List Node) :
    unplaced ⟨number, kind, span, children⟩ = ⟨number, kind, .nowhere, children.map unplaced⟩ := by
  simp [unplaced, unplacedAll_eq_map]

/-! ## Equality -/

mutual

def decideEq : (a b : Node) → Decidable (a = b)
  | ⟨number, kind, span, children⟩, ⟨number', kind', span', children'⟩ =>
    have := decideEqAll children children'
    decidable_of_decidable_of_iff
      (show number = number' ∧ kind = kind' ∧ span = span' ∧ children = children' ↔ _ by simp)

def decideEqAll : (a b : List Node) → Decidable (a = b)
  | [], [] => isTrue rfl
  | [], _ :: _ => isFalse nofun
  | _ :: _, [] => isFalse nofun
  | n :: ns, m :: ms =>
    have := decideEq n m
    have := decideEqAll ns ms
    decidable_of_decidable_of_iff (show n = m ∧ ns = ms ↔ _ by simp)

end

instance : DecidableEq Node := decideEq

end Magik.Node

namespace Magik

def Slot.renumber (f : Nat → Nat) (slot : Slot) : Slot := ⟨slot.node.renumber f, slot.parent.map f⟩

theorem Slot.renumber_id : Slot.renumber (fun k => k) = id := by
  funext slot
  simp [renumber, Node.renumber_id]

def Slot.unplaced (slot : Slot) : Slot := { slot with node := slot.node.unplaced }

deriving instance DecidableEq for Slot, SyntaxTree

end Magik
