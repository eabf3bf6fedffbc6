/-
  Magik.Proofs.Running.Condition — conditions, and what they come to in a run.

  Types are nominal: a value is of one type, and of a type with one instance there is one
  value. What a run takes from outside is its course: the values of its literals, the types
  that its exemplars name and the answers to comparisons that nothing is known about.
-/

import Magik.Narrowing.Derive
import Magik.Reasoning.World
import Magik.Proofs.Syntax.Numbers
import Magik.Proofs.Types.Cover

namespace Magik

/-- The entry that a node names. -/
def ScopeTree.named? (t : ScopeTree) (n : Node) : Option Nat := n.identifierName?.bind fun _ => t.entryOf? n.number

/-- Operators whose answer says nothing about identity or type. -/
def BinaryOperator.isComparison : BinaryOperator → Bool
  | .equal | .notEqual | .less | .lessEqual | .greater | .greaterEqual => true
  | _ => false

namespace Running

/-! ## Values -/

/-- A value: the one of a number among those of its type. -/
structure Value where
  type : TypeName
  index : Nat
  only : type.isIdentity = true → index = 0
  deriving DecidableEq

theorem Value.eq_of_isIdentity {a b : Value} (ht : a.type = b.type) (hi : a.type.isIdentity = true) : a = b := by
  obtain ⟨s, i, hs⟩ := a
  obtain ⟨t, j, ht'⟩ := b
  cases ht
  have hij : i = j := (hs hi).trans (ht' hi).symm
  cases hij
  rfl

/-- The values of the entries. -/
abbrev Store := Nat → Value

/-- What a run takes from outside, by the numbers of nodes. -/
structure Course where
  literal : Nat → Value
  exemplar : Nat → TypeName
  answer : Nat → Bool

/-! ## Operands and truth -/

namespace Course

/-- The value of an operand: that of the entry it names, or of a literal. -/
def value (r : Course) (t : ScopeTree) (σ : Store) (n : Node) : Value := (t.named? n).elim (r.literal n.number) σ

/-- Whether a condition is true. -/
def truth (r : Course) (t : ScopeTree) (σ : Store) : Node → Bool
  | ⟨number, kind, _, children⟩ =>
    match kind, children with
    | .binary .identical, [left, right] => decide (r.value t σ left = r.value t σ right)
    | .binary .notIdentical, [left, right] => !decide (r.value t σ left = r.value t σ right)
    | .binary operator, [left, right] =>
      if operator.isLogical then
        if operator.isConjunction then r.truth t σ left && r.truth t σ right else r.truth t σ left || r.truth t σ right
      else r.answer number
    | .unary .not, [operand] => !r.truth t σ operand
    | .unary .tilde, [operand] => !r.truth t σ operand
    | .invocation _, [tested, exemplar] => decide ((r.value t σ tested).type = r.exemplar exemplar.number)
    | _, _ => r.answer number

end Course

/-! ## Conditions -/

/-- Names that stand for an entry, and literals. -/
inductive Operand (t : ScopeTree) : Node → Prop
  | name {number : Nat} {name : String} {span : Span} {entry : Nat} (h : t.entryOf? number = some entry) :
      Operand t ⟨number, .identifier name, span, []⟩
  | literal {number : Nat} {value : Literal} {span : Span} : Operand t ⟨number, .literal value, span, []⟩

/-- Tests of identity and other comparisons of two operands. -/
inductive Comparison (t : ScopeTree) : Node → Prop
  | identical {number : Nat} {span : Span} {left right : Node} (hl : Operand t left) (hr : Operand t right) :
      Comparison t ⟨number, .binary .identical, span, [left, right]⟩
  | notIdentical {number : Nat} {span : Span} {left right : Node} (hl : Operand t left) (hr : Operand t right) :
      Comparison t ⟨number, .binary .notIdentical, span, [left, right]⟩
  | compared {number : Nat} {span : Span} {operator : BinaryOperator} {left right : Node}
      (ho : operator.isComparison = true) (hl : Operand t left) (hr : Operand t right) :
      Comparison t ⟨number, .binary operator, span, [left, right]⟩

/-- Comparisons, and tests of the kind of an entry. -/
inductive Testing (t : ScopeTree) : Node → Prop
  | comparison {n : Node} (h : Comparison t n) : Testing t n
  | kind {number x exemplar entry : Nat} {method name named : String} {span xSpan exemplarSpan : Span}
      (hm : Evidence.isKindTest method = true) (hx : t.entryOf? x = some entry) :
      Testing t ⟨number, .invocation method, span,
        [⟨x, .identifier name, xSpan, []⟩, ⟨exemplar, .identifier named, exemplarSpan, []⟩]⟩

/-- What `_not`, `~` and the connectives build, to any depth. -/
inductive BuiltFrom (Atom : Node → Prop) : Node → Prop
  | atom {n : Node} (h : Atom n) : BuiltFrom Atom n
  | negated {number : Nat} {span : Span} {operator : UnaryOperator} {operand : Node}
      (ho : operator = .not ∨ operator = .tilde) (h : BuiltFrom Atom operand) :
      BuiltFrom Atom ⟨number, .unary operator, span, [operand]⟩
  | joined {number : Nat} {span : Span} {operator : BinaryOperator} {left right : Node}
      (ho : operator.isLogical = true) (hl : BuiltFrom Atom left) (hr : BuiltFrom Atom right) :
      BuiltFrom Atom ⟨number, .binary operator, span, [left, right]⟩

theorem BuiltFrom.mono {A B : Node → Prop} (hab : ∀ n, A n → B n) {c : Node} (h : BuiltFrom A c) : BuiltFrom B c := by
  induction h with
  | atom h => exact .atom (hab _ h)
  | negated ho _ ih => exact .negated ho ih
  | joined ho _ _ ihl ihr => exact .joined ho ihl ihr

/-! ## Tests -/

/-- What a name is tested against, by the number of its node. -/
inductive Test where
  | literal (number : Nat) (value : Literal)
  | exemplar (number : Nat)

namespace Test

variable {q : Test} {c : Node}

def number : Test → Nat
  | .literal number _ => number
  | .exemplar number => number

def isKind : Test → Bool
  | .literal .. => false
  | .exemplar _ => true

/-- All literals and exemplars in a condition. -/
def all : Node → List Test
  | ⟨number, kind, _, children⟩ =>
    match kind, children with
    | .literal value, _ => [.literal number value]
    | .binary _, [left, right] => all left ++ all right
    | .unary _, [operand] => all operand
    | .invocation _, [_, named] => [.exemplar named.number]
    | _, _ => []

/-- A test is against the node itself, against an exemplar among its children, or it is a
    test of a child. -/
theorem mem_all_cases (h : q ∈ all c) :
    (∃ value, c.kind = .literal value ∧ q = .literal c.number value) ∨ (∃ named ∈ c.children, q = .exemplar named.number) ∨
      ∃ child ∈ c.children, q ∈ all child := by
  obtain ⟨number, kind, span, children⟩ := c
  unfold all at h
  split at h
  · exact .inl ⟨_, rfl, List.mem_singleton.mp h⟩
  · refine .inr (.inr ?_)
    rcases List.mem_append.mp h with h | h
    · exact ⟨_, by simp, h⟩
    · exact ⟨_, by simp, h⟩
  · exact .inr (.inr ⟨_, by simp, h⟩)
  · exact .inr (.inl ⟨_, by simp, List.mem_singleton.mp h⟩)
  · cases h

theorem number_mem_numbers (h : q ∈ all c) : q.number ∈ c.numbers := by
  induction c using Node.induction_children with
  | node c ih =>
    rcases mem_all_cases h with ⟨value, -, rfl⟩ | ⟨named, hn, rfl⟩ | ⟨child, hc, hq⟩
    · exact c.number_mem_numbers
    · exact Node.mem_numbers_of_child hn named.number_mem_numbers
    · exact Node.mem_numbers_of_child hc (ih child hc hq)

/-- A literal that is tested against stands in the condition. -/
theorem exists_of_literal {number : Nat} {value : Literal} (h : .literal number value ∈ all c) :
    ∃ n ∈ c.withDescendants, n.number = number ∧ n.kind = .literal value := by
  induction c using Node.induction_children with
  | node c ih =>
    rcases mem_all_cases h with ⟨own, hk, he⟩ | ⟨_, _, he⟩ | ⟨child, hc, hq⟩
    · obtain ⟨rfl, rfl⟩ : number = c.number ∧ value = own := by simpa using he
      exact ⟨c, .head _, rfl, hk⟩
    · cases he
    · obtain ⟨n, hn, hnode⟩ := ih child hc hq
      exact ⟨n, Node.mem_withDescendants hc hn, hnode⟩

/-- Whether a value passes a test. -/
def Passes (r : Course) (v : Value) : Test → Prop
  | .literal number _ => v = r.literal number
  | .exemplar number => v.type = r.exemplar number

end Test

/-- The course of a run agrees with what is known of its literals and exemplars. -/
structure Course.Fits (r : Course) (e : Evidence) (frame : Frame) (c : Node) : Prop where
  literal {number : Nat} {value : Literal} : Test.literal number value ∈ Test.all c →
    e.valueTypes number = World.literalTypes frame value ∧ (World.literalTypes frame value).Covers (r.literal number).type
  exemplar {number : Nat} : Test.exemplar number ∈ Test.all c → e.valueTypes number = .single (r.exemplar number)

end Running

end Magik
