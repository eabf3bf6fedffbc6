/-
  Magik.Proofs.Running.Body — bodies without loops and calls, and how they run.

  A run goes through a store indexed by entries: a name reads and writes the entry that
  the scopes give it. It notes each read of a name and the value that was there. What a
  body does after it has returned is not run.
-/

import Magik.Proofs.Running.Condition

namespace Magik.Running

variable {r : Course} {t : ScopeTree} {σ : Store} {c : Node} {p : Nat × Value}

/-! ## Reads -/

/-- Whether a connective is decided by its left operand. -/
def skips (operator : BinaryOperator) (left : Bool) : Bool :=
  match operator with
  | .andIf => !left
  | .orIf => left
  | _ => false

/-- The reads of a condition or an operand, in order. -/
def Course.reads (r : Course) (t : ScopeTree) (σ : Store) : Node → List (Nat × Value)
  | ⟨number, kind, _, children⟩ =>
    match kind, children with
    | .identifier _, _ => ((t.entryOf? number).map fun entry => (number, σ entry)).toList
    | .binary operator, [left, right] =>
      r.reads t σ left ++ if skips operator (r.truth t σ left) then [] else r.reads t σ right
    | .unary _, [operand] => r.reads t σ operand
    | _, _ => []

/-- A read is of the node itself, which is a name, or of a child. -/
theorem Course.reads_cases (h : p ∈ r.reads t σ c) :
    (p.1 = c.number ∧ ∃ name, c.kind = .identifier name) ∨ ∃ child ∈ c.children, p ∈ r.reads t σ child := by
  obtain ⟨number, kind, span, children⟩ := c
  unfold Course.reads at h
  split at h
  · simp only [Option.mem_toList, Option.map_eq_some_iff] at h
    obtain ⟨entry, -, rfl⟩ := h
    exact .inl ⟨rfl, _, rfl⟩
  · refine .inr ?_
    rcases List.mem_append.mp h with h | h
    · exact ⟨_, by simp, h⟩
    · split at h
      · cases h
      · exact ⟨_, by simp, h⟩
  · exact .inr ⟨_, by simp, h⟩
  · cases h

theorem Course.exists_name_of_reads (h : p ∈ r.reads t σ c) :
    ∃ k ∈ c.withDescendants, p.1 = k.number ∧ ∃ name, k.kind = .identifier name := by
  induction c using Node.induction_children with
  | node c ih =>
    rcases Course.reads_cases h with hc | ⟨child, hc, hp⟩
    · exact ⟨c, by simp [Node.withDescendants], hc⟩
    · obtain ⟨k, hk, hp⟩ := ih child hc hp
      exact ⟨k, Node.mem_withDescendants hc hk, hp⟩

theorem Course.mem_numbers_of_reads (h : p ∈ r.reads t σ c) : p.1 ∈ c.numbers := by
  obtain ⟨k, hk, hp, -⟩ := Course.exists_name_of_reads h
  have hin : k.number ∈ (Node.drain [c]).map Node.number := List.mem_map_of_mem (Node.drain_singleton c ▸ hk)
  simpa [Node.map_number_drain, hp] using hin

/-! ## Runs -/

/-- Where a run got to: the values there, whether it has returned, and what it read. -/
structure Outcome where
  store : Store
  returned : Bool
  reads : List (Nat × Value)

/-- More was read before. -/
def Outcome.after (reads : List (Nat × Value)) (o : Outcome) : Outcome := { o with reads := reads ++ o.reads }

/-- Gives a value to the entry of a name. -/
def Store.set (σ : Store) (entry : Option Nat) (v : Value) : Store := fun x => if entry = some x then v else σ x

def Value.unset : Value := ⟨.unset, 0, fun _ => rfl⟩

namespace Course

variable (r : Course) (t : ScopeTree)

/-- Declared names, each with its value or unset. -/
def declare (σ : Store) : List Node → Outcome
  | [] => ⟨σ, false, []⟩
  | ⟨number, _, _, [value]⟩ :: ns =>
    (declare (σ.set (t.entryOf? number) (r.value t σ value)) ns).after (r.reads t σ value)
  | ⟨number, _, _, _⟩ :: ns => declare (σ.set (t.entryOf? number) .unset) ns

mutual

/-- A statement or a body. -/
def exec (σ : Store) : Node → Outcome
  | ⟨number, kind, span, children⟩ =>
    match kind, children with
    | .assignment, [target, value] =>
      ⟨σ.set (t.entryOf? target.number) (r.value t σ value), false, r.reads t σ value⟩
    | .declaration _ _, names => r.declare t σ names
    | .returned, values => ⟨σ, true, values.flatMap (r.reads t σ)⟩
    | .block, statements => execAll σ statements
    | .body, statements => execAll σ statements
    | .conditional, branches => execBranches σ branches
    | kind, children => ⟨σ, false, r.reads t σ ⟨number, kind, span, children⟩⟩

/-- Statements in order, until one returns. -/
def execAll (σ : Store) : List Node → Outcome
  | [] => ⟨σ, false, []⟩
  | n :: ns =>
    let o := exec σ n
    if o.returned then o else (execAll o.store ns).after o.reads

/-- The first branch whose condition is true, or that has none. -/
def execBranches (σ : Store) : List Node → Outcome
  | [] => ⟨σ, false, []⟩
  | ⟨_, _, _, [condition, body]⟩ :: ns =>
    (if r.truth t σ condition then exec σ body else execBranches σ ns).after (r.reads t σ condition)
  | ⟨_, _, _, children⟩ :: _ => execAll σ children

end

end Course

/-! ## Bodies -/

/-- A declared name, with a name or a literal for its value or without one. -/
inductive Variable (t : ScopeTree) : Node → Prop
  | valued {number : Nat} {name : String} {span : Span} {value : Node} (hv : Operand t value) :
      Variable t ⟨number, .declared name, span, [value]⟩
  | bare {number : Nat} {name : String} {span : Span} : Variable t ⟨number, .declared name, span, []⟩

/-- A branch of a conditional: its condition compares, and the last has none if it is the `_else`. -/
inductive Branch (t : ScopeTree) : Node → Prop
  | tested {number : Nat} {span : Span} {condition body : Node} (hc : BuiltFrom (Comparison t) condition) :
      Branch t ⟨number, .branch, span, [condition, body]⟩
  | otherwise {number : Nat} {span : Span} {body : Node} : Branch t ⟨number, .otherwise, span, [body]⟩

/-- Statements and bodies, of any size and nesting, without loops and calls. -/
inductive Plain (t : ScopeTree) : Node → Prop
  | operand {n : Node} (h : Operand t n) : Plain t n
  | assignment {number target entry : Nat} {name : String} {span targetSpan : Span} {value : Node}
      (ht : t.entryOf? target = some entry) (hv : Operand t value) :
      Plain t ⟨number, .assignment, span, [⟨target, .identifier name, targetSpan, []⟩, value]⟩
  | locals {number : Nat} {span : Span} {names : List Node} (h : ∀ v ∈ names, Variable t v) :
      Plain t ⟨number, .declaration .localVariable false, span, names⟩
  | returned {number : Nat} {span : Span} {values : List Node} (h : ∀ v ∈ values, Operand t v) :
      Plain t ⟨number, .returned, span, values⟩
  | block {number : Nat} {span : Span} {statements : List Node} (h : ∀ s ∈ statements, Plain t s) :
      Plain t ⟨number, .block, span, statements⟩
  | body {number : Nat} {span : Span} {statements : List Node} (h : ∀ s ∈ statements, Plain t s) :
      Plain t ⟨number, .body, span, statements⟩
  | conditional {number : Nat} {span : Span} {branches : List Node} (hb : ∀ b ∈ branches, Branch t b)
      (h : ∀ b ∈ branches, ∀ body ∈ b.children.getLast?, Plain t body) :
      Plain t ⟨number, .conditional, span, branches⟩

end Magik.Running
