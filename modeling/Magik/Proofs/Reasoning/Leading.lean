/-
  Magik.Proofs.Reasoning.Leading — ways through a node, as reasoning goes them.

  A way brings an entry from the value it was assigned before a node to the value it was
  assigned last behind it (`Leads`). It goes through one branch of a conditional, and
  through the body of a try or a handler. A condition that is false, the body of a loop and
  the body of a try behind which a handler comes assign nothing, and what a condition is
  about is not known behind it.
-/

import Magik.Proofs.Narrowing.Naming
import Magik.Proofs.Reasoning.Keeping
import Magik.Proofs.Reasoning.Passing
import Magik.Proofs.Reasoning.Upkeep
import Magik.Proofs.Running.Paths

namespace Magik

open Node (Way numbersAll)

/-! ## Nodes -/

namespace Node

/-- The names that a node assigns to when its value is done. -/
def written (n : Node) : List Node :=
  match n.kind with
  | .assignment | .augmentedAssignment _ | .multipleAssignment | .declaration _ true => n.children.dropLast
  | _ => []

/-- The name that the handlers of a try know the error by. -/
def errorName? (n : Node) : Option String :=
  n.children.head?.bind fun v => match v.kind with
    | .attemptVariable name => some name
    | _ => none

theorem Layout.of_attempt {children : List Node} (h : Layout .attempt children) : ∃ (binding : Option Node) (body : Node)
    (handlers : List Node), children = binding.toList ++ body :: handlers ∧ body.kind = .body ∧
      (∀ v ∈ binding, ∃ name, v.kind = .attemptVariable name) ∧ ∀ m ∈ handlers, ∃ names, m.kind = .handler names := by
  cases h with
  | attempt h hb hh => exact ⟨_, _, _, rfl, hb, h, hh⟩
  | _ => contradiction

end Node

open Node (Enclosed)

namespace World

/-! ## Ways -/

/-- What is known is kept on a condition, else nothing is known. -/
def Kept (P : Prop) (s s' : Option Node) : Prop := s' = none ∨ s' = s ∧ P

/-- None of the conditions of branches is about the entry. -/
def Untested (w : World) (package : String) (x : Nat) (bs : List Node) : Prop :=
  ∀ b ∈ bs, ∀ t ∈ b.tested?, x ∉ w.namedBy package t

/-- The entry that a handler gives the error to. -/
def caught? (w : World) (binding : Option String) (handler : Node) : Option Nat :=
  ((handler.child? 0).bind fun body => w.scopes.scopeOpenedBy? body.number).bind fun id =>
    binding.bind fun name => w.scopes.entryIn? name id

mutual

/-- A way through a node: the value that the entry was assigned before it, and the one it
    was assigned last behind it, if they are known. -/
inductive Leads (w : World) (package : String) (x : Nat) : Option Node → Node → Option Node → Prop
  | assigned {s s' n target value} (hk : n.kind = .assignment) (hc : n.children = [target, value])
      (h : Leads w package x s value s') (ht : w.scopes.entryOf? target.number = some x) :
      Leads w package x s n (some value)
  | straight {s s₁ s' n} (hk : n.kind.isStraight) (hd : Running.departs w n = false)
      (h : LeadsEach w package x s n.children s₁)
      (hg : Kept (∀ g ∈ n.written, w.scopes.entryOf? g.number ≠ some x) s₁ s') : Leads w package x s n s'
  | declaration {s s' n modifier} (hk : n.kind = .declaration modifier false)
      (h : LeadsDeclared w package x s n.children s') : Leads w package x s n s'
  | rounds {s s' n label head body vars} (hk : n.kind = .forLoop label ∨ n.kind = .whileLoop label)
      (hc : n.children = vars ++ [head, body]) (h : Leads w package x s head s') : Leads w package x s n s'
  | plainLoop {s n label} (hk : n.kind = .plainLoop label) : Leads w package x s n s
  | definition {s n} (hk : n.kind.isDefinition) : Leads w package x s n s
  | conditional {s s' n} (hk : n.kind = .conditional) (h : LeadsBranches w package x s [] n.children s') :
      Leads w package x s n s'
  | attempted {s s' n body} (hk : n.kind = .attempt) (hb : body ∈ n.children) (hbk : body.kind = .body)
      (h : Leads w package x s body s') : Leads w package x s n s'
  | handled {s s₁ s' n handler names} (hk : n.kind = .attempt) (hh : handler ∈ n.children)
      (hhk : handler.kind = .handler names) (hx : Kept (w.caught? n.errorName? handler ≠ some x) s s₁)
      (h : Leads w package x s₁ handler s') : Leads w package x s n s'

/-- Nodes, one after the other. -/
inductive LeadsEach (w : World) (package : String) (x : Nat) : Option Node → List Node → Option Node → Prop
  | nil {s} : LeadsEach w package x s [] s
  | cons {s s₁ s' n ns} (h : Leads w package x s n s₁) (hs : LeadsEach w package x s₁ ns s') :
      LeadsEach w package x s (n :: ns) s'

/-- Declared variables, each with its value. -/
inductive LeadsDeclared (w : World) (package : String) (x : Nat) : Option Node → List Node → Option Node → Prop
  | nil {s} : LeadsDeclared w package x s [] s
  | bare {s s₁ s' v vs} (hc : v.children = []) (hx : Kept (w.scopes.entryOf? v.number ≠ some x) s s₁)
      (hs : LeadsDeclared w package x s₁ vs s') : LeadsDeclared w package x s (v :: vs) s'
  | valued {s s₁ s₂ s' v value vs} (hc : v.children = [value]) (h : Leads w package x s value s₁)
      (hx : Kept (w.scopes.entryOf? v.number ≠ some x) s₁ s₂) (hs : LeadsDeclared w package x s₂ vs s') :
      LeadsDeclared w package x s (v :: vs) s'
  | assigned {s s₁ s' v value vs} (hc : v.children = [value]) (h : Leads w package x s value s₁)
      (hx : w.scopes.entryOf? v.number = some x) (hs : LeadsDeclared w package x (some value) vs s') :
      LeadsDeclared w package x s (v :: vs) s'

/-- Branches of a conditional, after earlier ones whose conditions are false: the first one
    is taken, or its condition is false as well. -/
inductive LeadsBranches (w : World) (package : String) (x : Nat) :
    Option Node → List Node → List Node → Option Node → Prop
  | nil {s s' earlier} (h : Kept (w.Untested package x earlier) s s') : LeadsBranches w package x s earlier [] s'
  | taken {s s₁ s₂ s₃ s' earlier b condition body bs} (hb : b.children = [condition, body])
      (h₁ : Kept (w.Untested package x earlier) s s₁) (h : Leads w package x s₁ condition s₂)
      (h₃ : Kept (w.Untested package x (earlier ++ [b])) s₂ s₃) (h' : Leads w package x s₃ body s') :
      LeadsBranches w package x s earlier (b :: bs) s'
  | denied {s s' earlier b bs} (hk : b.kind = .branch) (h : LeadsBranches w package x s (earlier ++ [b]) bs s') :
      LeadsBranches w package x s earlier (b :: bs) s'
  | otherwise {s s₁ s' earlier b body bs} (hb : b.children = [body])
      (h₁ : Kept (w.Untested package x earlier) s s₁) (h : Leads w package x s₁ body s') :
      LeadsBranches w package x s earlier (b :: bs) s'

end

variable {w : World} {package : String} {x : Nat} {s s' s₁ : Option Node} {n v : Node} {ns : List Node} {P : Prop}

theorem Kept.mem (h : Kept P s s') (hv : v ∈ s') : v ∈ s := by
  rcases h with rfl | ⟨rfl, -⟩
  · cases hv
  · exact hv

theorem Kept.imp {Q : Prop} (h : Kept P s s') (hpq : P → Q) : Kept Q s s' := h.imp_right fun ⟨he, hp⟩ => ⟨he, hpq hp⟩

theorem below_of_child {c : Node} (hc : c ∈ ns) (h : ∃ d ∈ c.children, v ∈ d.withDescendants) :
    ∃ d ∈ ns, v ∈ d.withDescendants := by
  obtain ⟨d, hd, hv⟩ := h
  exact ⟨c, hc, Node.mem_withDescendants hd hv⟩

theorem below_cons (n : Node) (h : ∃ d ∈ ns, v ∈ d.withDescendants) : ∃ d ∈ n :: ns, v ∈ d.withDescendants := by
  obtain ⟨d, hd, hv⟩ := h
  exact ⟨d, .tail _ hd, hv⟩

mutual

/-- A value that is known behind a node was known before it, or stands in it. -/
theorem Leads.mem {s s' : Option Node} {n v : Node} (h : Leads w package x s n s') (hv : v ∈ s') :
    v ∈ s ∨ ∃ c ∈ n.children, v ∈ c.withDescendants := by
  match h with
  | .assigned _ hc _ _ =>
    cases hv
    exact .inr ⟨v, by simp [hc], Way.root.mem_withDescendants⟩
  | .straight _ _ h hg => exact h.mem (hg.mem hv)
  | .declaration _ h => exact h.mem hv
  | .rounds _ hc h => exact (h.mem hv).imp_right (below_of_child (by simp [hc]))
  | .plainLoop _ => exact .inl hv
  | .definition _ => exact .inl hv
  | .conditional _ h => exact h.mem hv
  | .attempted _ hb _ h => exact (h.mem hv).imp_right (below_of_child hb)
  | .handled _ hh _ hx h => exact (h.mem hv).imp hx.mem (below_of_child hh)

theorem LeadsEach.mem {s s' : Option Node} {ns : List Node} {v : Node} (h : LeadsEach w package x s ns s') (hv : v ∈ s') :
    v ∈ s ∨ ∃ c ∈ ns, v ∈ c.withDescendants := by
  match h with
  | .nil => exact .inl hv
  | .cons h hs =>
    rcases hs.mem hv with hm | hm
    · exact (h.mem hm).imp_right (below_of_child (by simp))
    · exact .inr (below_cons _ hm)

theorem LeadsDeclared.mem {s s' : Option Node} {ns : List Node} {v : Node} (h : LeadsDeclared w package x s ns s')
    (hv : v ∈ s') : v ∈ s ∨ ∃ c ∈ ns, v ∈ c.withDescendants := by
  match h with
  | .nil => exact .inl hv
  | .bare _ hx hs => exact (hs.mem hv).imp hx.mem (below_cons _)
  | @LeadsDeclared.valued _ _ _ _ _ _ _ u value _ hc h hx hs =>
    have hvalue : value ∈ u.children := by simp [hc]
    rcases hs.mem hv with hm | hm
    · exact (h.mem (hx.mem hm)).imp_right fun hb => below_of_child (by simp) (below_of_child hvalue hb)
    · exact .inr (below_cons _ hm)
  | @LeadsDeclared.assigned _ _ _ _ _ _ u value _ hc h hx hs =>
    have hvalue : value ∈ u.children := by simp [hc]
    rcases hs.mem hv with hm | hm
    · cases hm
      exact .inr (below_of_child (by simp) ⟨v, hvalue, Way.root.mem_withDescendants⟩)
    · exact .inr (below_cons _ hm)

theorem LeadsBranches.mem {s s' : Option Node} {earlier ns : List Node} {v : Node}
    (h : LeadsBranches w package x s earlier ns s') (hv : v ∈ s') : v ∈ s ∨ ∃ c ∈ ns, v ∈ c.withDescendants := by
  match h with
  | .nil h => exact .inl (h.mem hv)
  | @LeadsBranches.taken _ _ _ _ _ _ _ _ _ b condition body _ hb h₁ h h₃ h' =>
    have hcondition : condition ∈ b.children := by simp [hb]
    have hbody : body ∈ b.children := by simp [hb]
    rcases h'.mem hv with hm | hm
    · exact (h.mem (h₃.mem hm)).imp h₁.mem fun hc => below_of_child (by simp) (below_of_child hcondition hc)
    · exact .inr (below_of_child (by simp) (below_of_child hbody hm))
  | .denied _ h => exact (h.mem hv).imp_right (below_cons _)
  | @LeadsBranches.otherwise _ _ _ _ _ _ _ b body _ hb h₁ h =>
    have hbody : body ∈ b.children := by simp [hb]
    exact (h.mem hv).imp h₁.mem fun hc => below_of_child (by simp) (below_of_child hbody hc)

end

/-- Through a leaf nothing comes to be known. -/
theorem Leads.of_leaf (h : Leads w package x s n s') (hc : n.children = []) : Kept True s s' := by
  cases h with
  | assigned _ hc' => rw [hc] at hc'; cases hc'
  | straight _ _ h hg =>
    rw [hc] at h
    cases h
    exact hg.imp fun _ => trivial
  | declaration _ h =>
    rw [hc] at h
    cases h
    exact .inr ⟨rfl, trivial⟩
  | rounds _ hc' => simp [hc] at hc'
  | plainLoop | definition => exact .inr ⟨rfl, trivial⟩
  | conditional _ h =>
    rw [hc] at h
    cases h with
    | nil h => exact h.imp fun _ => trivial
  | attempted _ hb => simp [hc] at hb
  | handled _ hh => simp [hc] at hh

/-- Behind leaves, the other nodes. -/
theorem LeadsEach.of_leaves {ms : List Node} (h : LeadsEach w package x s (ns ++ ms) s') (hl : ∀ c ∈ ns, c.children = []) :
    ∃ s₁, Kept True s s₁ ∧ LeadsEach w package x s₁ ms s' := by
  induction ns generalizing s with
  | nil => exact ⟨s, .inr ⟨rfl, trivial⟩, h⟩
  | cons c ns ih =>
    cases h with
    | cons h hs =>
      obtain ⟨s₁, hk, hd⟩ := ih hs fun e he => hl e (.tail _ he)
      have hfirst := h.of_leaf (hl c (by simp))
      refine ⟨s₁, ?_, hd⟩
      rcases hk with rfl | ⟨rfl, -⟩
      · exact .inl rfl
      · exact hfirst

end World

end Magik
