/-
  Magik.Narrowing.Derive — the restriction of a condition.

  Tests of a name against a value or another name, and tests of its kind, restrict the
  entry. Negation negates. The connectives join two tests where they can; every other
  condition says nothing about the names in it, exemplars aside, for these always stand
  for their own type.
-/

import Magik.Narrowing.Restriction
import Magik.Scope.Basic
import Magik.Syntax.Node

namespace Magik

/-- What is known when a condition is looked at. -/
structure Evidence where
  scopes : ScopeTree
  /-- The types of the value of a node. -/
  valueTypes : Nat → TypeSet
  /-- Whether a global name stands for an exemplar. -/
  isExemplar : String → Bool

namespace Evidence

/-- The entry that a node names. -/
def named? (e : Evidence) (n : Node) : Option Nat := n.identifierName?.bind fun _ => e.scopes.entryOf? n.number

/-- The entry that a node reads, unless it is an exemplar. -/
def readBy? (e : Evidence) (n : Node) : Option Nat :=
  (e.named? n).bind fun id =>
    if (e.scopes.entryAt? id).any fun entry => entry.kind = .global && e.isExemplar entry.name then none else some id

/-- The restriction of a condition that says nothing about what it reads. -/
def undeterminable (e : Evidence) (n : Node) : Restriction :=
  .undeterminable (Restriction.joinEntries [] (n.withDescendants.filterMap e.readBy?))

/-- An identity test. -/
def identity? (e : Evidence) (left right : Node) (holds : Bool) : Option Restriction :=
  match e.named? left, e.named? right with
  | some l, some r => some (.pair l r holds)
  | some l, none => some (.value l (e.valueTypes right.number) .identity holds)
  | none, some r => some (.value r (e.valueTypes left.number) .identity holds)
  | none, none => none

/-- A test of the kind of a value. -/
def kind? (e : Evidence) : List Node → Option Restriction
  | [tested, exemplar] =>
    (e.named? tested).map fun entry => .value entry (e.valueTypes exemplar.number) .kindOf true
  | _ => none

def isKindTest (method : String) : Bool := method = "is_kind_of?" || method = "is_class_of?"

def isUndeterminable : Restriction → Bool
  | .undeterminable _ => true
  | _ => false

/-- The restriction of a condition. -/
def derive (e : Evidence) : Node → Restriction
  | ⟨number, kind, span, children⟩ =>
    let nothing := e.undeterminable ⟨number, kind, span, children⟩
    match kind, children with
    | .binary .identical, [left, right] => (e.identity? left right true).getD nothing
    | .binary .notIdentical, [left, right] => (e.identity? left right false).getD nothing
    | .binary operator, [left, right] =>
      if operator.isLogical then
        let both := (e.derive left).compose (!operator.isConjunction) (e.derive right)
        if isUndeterminable both then nothing else both
      else nothing
    | .unary .not, [operand] => (e.derive operand).negate
    | .unary .tilde, [operand] => (e.derive operand).negate
    | .invocation name, _ => if isKindTest name then (e.kind? children).getD nothing else nothing
    | _, _ => nothing

end Evidence

end Magik
