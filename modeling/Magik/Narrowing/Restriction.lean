/-
  Magik.Narrowing.Restriction — what a condition says about the entries in it, and what
  that does to the types believed of them.

  A condition gives one restriction. Where it is true the restriction applies, where it is
  false its negation. The restrictions that hold at a place are folded into one narrowing
  per entry, all of them seen against the same types, before anything is written.
-/

import Magik.Table
import Magik.Types.TypeSet

namespace Magik

/-- How a value is tested against types. -/
inductive TypeTest where
  /-- Being identical to an instance. -/
  | identity
  /-- Being an instance. -/
  | kindOf
  deriving DecidableEq, Repr

inductive Restriction where
  /-- An entry is tested against types. -/
  | value (entry : Nat) (types : TypeSet) (test : TypeTest) (holds : Bool)
  /-- Two entries are tested for identity. -/
  | pair (left right : Nat) (holds : Bool)
  /-- Nothing can be said about these entries. -/
  | undeterminable (entries : List Nat)
  deriving DecidableEq, Repr

/-- What happens to the types of one entry. -/
inductive Narrowing where
  | replace (types : TypeSet)
  | remove (types : TypeSet)
  | unknown
  deriving DecidableEq, Repr

namespace Narrowing

/-- One narrowing of an entry after another. -/
def andThen : Narrowing → Narrowing → Narrowing
  | .unknown, _ => .unknown
  | _, .unknown => .unknown
  | .replace a, .replace b =>
    match a.intersect b with
    | some both => .replace both
    | none => .unknown
  | .remove a, .remove b => .remove (a.union b)
  | .replace kept, .remove removed => .replace ((kept.difference removed).getD kept)
  | .remove removed, .replace kept => .replace ((kept.difference removed).getD kept)

/-- The types left of the current ones. -/
def apply : Narrowing → TypeSet → TypeSet
  | .replace types, _ => types
  | .remove types, current => (current.difference types).getD current
  | .unknown, _ => .undefined

end Narrowing

namespace Restriction

def negate : Restriction → Restriction
  | .value entry types test holds => .value entry types test !holds
  | .pair left right holds => .pair left right !holds
  | .undeterminable entries => .undeterminable entries

theorem negate_negate (r : Restriction) : r.negate.negate = r := by
  cases r <;> simp [negate]

def entries : Restriction → List Nat
  | .value entry _ _ _ => [entry]
  | .pair left right _ => [left, right]
  | .undeterminable entries => entries

/-- Types of which each has one instance. -/
def allIdentity (types : TypeSet) : Bool := types.members.all TypeName.isIdentity

/-- The type of exactly one value. -/
def isSingleton (types : TypeSet) : Bool := types.size == 1 && allIdentity types

/-- What a restriction does to each entry, given the types currently believed. A value
    that is not identical to an instance may still be of its type, unless there is but
    one. -/
def narrowings (current : Nat → TypeSet) : Restriction → List (Nat × Narrowing)
  | .value entry types _ true => [(entry, .replace types)]
  | .value entry types .kindOf false => [(entry, .remove types)]
  | .value entry types .identity false => if allIdentity types then [(entry, .remove types)] else []
  | .pair left right true =>
    let both := ((current left).intersect (current right)).elim .unknown Narrowing.replace
    [(left, both), (right, both)]
  | .pair left right false =>
    let fromLeft := if isSingleton (current right) then [(left, Narrowing.remove (current right))] else []
    let fromRight := if isSingleton (current left) then [(right, Narrowing.remove (current left))] else []
    if fromLeft = [] ∧ fromRight = [] then [(left, .unknown), (right, .unknown)] else fromLeft ++ fromRight
  | .undeterminable entries => entries.map fun entry => (entry, .unknown)

/-- The elements of the second list that the first lacks, after those of the first. -/
def joinEntries (a b : List Nat) : List Nat :=
  b.foldl (fun es e => if e ∈ es then es else es ++ [e]) a

def eitherTest : TypeTest → TypeTest → TypeTest
  | .identity, .identity => .identity
  | _, _ => .kindOf

/-- The restriction of a disjunction, or of a conjunction. Two tests of one entry become
    one if both hold in a disjunction or both fail in a conjunction. -/
def compose (disjunction : Bool) (a b : Restriction) : Restriction :=
  match a, b with
  | .value left leftTypes leftTest leftHolds, .value right rightTypes rightTest rightHolds =>
    if left = right ∧ leftHolds = disjunction ∧ rightHolds = disjunction then
      .value left (leftTypes.union rightTypes) (eitherTest leftTest rightTest) disjunction
    else .undeterminable (joinEntries [left] [right])
  | _, _ => .undeterminable (joinEntries a.entries b.entries)

/-- Folds one more narrowing of an entry into a table; the entry moves to its end. -/
def fold (combined : Table Nat Narrowing) (step : Nat × Narrowing) : Table Nat Narrowing :=
  let narrowing := ((combined.find? step.1).map (·.andThen step.2)).getD step.2
  (combined.erase step.1).insert step.1 narrowing

/-- The narrowings of several restrictions, one per entry. -/
def combine (restrictions : List Restriction) (current : Nat → TypeSet) : Table Nat Narrowing :=
  (restrictions.flatMap (narrowings current)).foldl fold .empty

end Restriction

end Magik
