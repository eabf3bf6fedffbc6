/-
  Magik.Types.TypeSet — the types a value may have.

  A set lists its members once, in the order they came. A set of which nothing is
  known is exactly the one member `undefined`: no other set has that member, and no
  set is empty. Two sets with the same members are the same, whatever their order.
-/

import Magik.Types.TypeName

namespace Magik

structure TypeSet where
  members : List TypeName
  deriving DecidableEq, Repr

namespace TypeSet

/-- The first occurrence of each element. -/
def distinct : List TypeName → List TypeName
  | [] => []
  | t :: ts => t :: (distinct ts).filter (· ≠ t)

def undefined : TypeSet := ⟨[.undefined]⟩

instance : Inhabited TypeSet := ⟨undefined⟩

/-- The set of the listed types: undefined if the list is empty or has that member. -/
def ofList (ts : List TypeName) : TypeSet :=
  if ts = [] ∨ .undefined ∈ ts then undefined else ⟨distinct ts⟩

def single (t : TypeName) : TypeSet := ofList [t]

def unset : TypeSet := single .unset

/-- Reads types separated by bars; blank parts count for nothing. -/
def ofChars (defaultPackage : Option String) (cs : List Char) : TypeSet :=
  ofList (((Text.pieces '|' cs).filter fun part => Text.trim part ≠ []).map (TypeName.ofChars defaultPackage))

def parse (text : String) (defaultPackage : Option String) : TypeSet := ofChars defaultPackage text.toList

def contains (s : TypeSet) (t : TypeName) : Bool := t ∈ s.members

def isUndefined (s : TypeSet) : Bool := s.contains .undefined

def size (s : TypeSet) : Nat := s.members.length

/-- Whether `t` is the one member. -/
def isExactly (s : TypeSet) (t : TypeName) : Bool := s.size == 1 && s.contains t

/-- Whether two sets have the same members. -/
def same (a b : TypeSet) : Bool := a.size == b.size && a.members.all b.contains

def text (s : TypeSet) : String := "|".intercalate (s.members.map TypeName.text)

def union (a b : TypeSet) : TypeSet :=
  if a.isUndefined || b.isUndefined then undefined else ofList (a.members ++ b.members)

/-- The members both have, in the first's order; none if there are none. An undefined
    set gives way to the other. -/
def intersect (a b : TypeSet) : Option TypeSet :=
  if a.isUndefined then some b
  else if b.isUndefined then some a
  else
    match a.members.filter b.contains with
    | [] => none
    | shared => some ⟨shared⟩

/-- The first's members that the second lacks; none if that changes nothing or leaves
    nothing, or if one of them is undefined. -/
def difference (a b : TypeSet) : Option TypeSet :=
  if a.isUndefined || b.isUndefined then none
  else
    let left := a.members.filter fun t => !b.contains t
    if left.length = a.size ∨ left = [] then none else some ⟨left⟩

/-- The set with the stand-in for the receiver replaced by the receiver's types. -/
def withReceiver (s receiver : TypeSet) : TypeSet :=
  if s.contains .receiver then
    ofList (s.members.flatMap fun t => if t = .receiver then receiver.members else [t])
  else s

/-! ## What the operations keep -/

@[simp] theorem mem_distinct (t : TypeName) (ts : List TypeName) : t ∈ distinct ts ↔ t ∈ ts := by
  induction ts with
  | nil => simp [distinct]
  | cons u us ih =>
    by_cases h : t = u
    · simp [distinct, h]
    · simp [distinct, h, ih]

theorem nodup_distinct (ts : List TypeName) : (distinct ts).Nodup := by
  induction ts with
  | nil => simp [distinct]
  | cons u us ih =>
    rw [distinct, List.nodup_cons]
    refine ⟨by simp, ?_⟩
    exact List.Nodup.sublist List.filter_sublist ih

theorem distinct_of_nodup {ts : List TypeName} (h : ts.Nodup) : distinct ts = ts := by
  induction ts with
  | nil => rfl
  | cons t ts ih =>
    obtain ⟨ht, hts⟩ := List.nodup_cons.mp h
    rw [distinct, ih hts, List.filter_eq_self.mpr]
    intro u hu
    simpa using fun he : u = t => ht (he ▸ hu)

end TypeSet

end Magik
