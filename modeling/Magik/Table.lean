/-
  Magik.Table — finite maps that remember the order in which keys came.

  Writing a key that is there replaces its value in place; a new key goes to the end.
  `find?` is the view: `find?_insert` and `find?_erase` say what each operation does to
  it, and nothing else needs to look inside.
-/

namespace Magik

structure Table (α β : Type) where
  pairs : List (α × β)
  deriving Repr

namespace Table

variable {α β : Type} [DecidableEq α]

def empty : Table α β := ⟨[]⟩

instance : Inhabited (Table α β) := ⟨empty⟩

def findIn (k : α) : List (α × β) → Option β
  | [] => none
  | (k', v) :: rest => if k' = k then some v else findIn k rest

def insertIn (k : α) (v : β) : List (α × β) → List (α × β)
  | [] => [(k, v)]
  | (k', v') :: rest => if k' = k then (k', v) :: rest else (k', v') :: insertIn k v rest

def find? (t : Table α β) (k : α) : Option β := findIn k t.pairs

def contains (t : Table α β) (k : α) : Bool := (t.find? k).isSome

def insert (t : Table α β) (k : α) (v : β) : Table α β := ⟨insertIn k v t.pairs⟩

def erase (t : Table α β) (k : α) : Table α β := ⟨t.pairs.filter fun p => p.1 ≠ k⟩

/-- Writes all pairs of the second table over the first. -/
def insertAll (t u : Table α β) : Table α β := u.pairs.foldl (fun t p => t.insert p.1 p.2) t

def keys (t : Table α β) : List α := t.pairs.map (·.1)

def values (t : Table α β) : List β := t.pairs.map (·.2)

def size (t : Table α β) : Nat := t.pairs.length

/-! ## The view -/

theorem findIn_insertIn (k j : α) (v : β) (ps : List (α × β)) :
    findIn j (insertIn k v ps) = if k = j then some v else findIn j ps := by
  induction ps with
  | nil => rfl
  | cons p ps ih =>
    obtain ⟨k', v'⟩ := p
    by_cases hk : k' = k
    · subst hk
      by_cases hj : k' = j <;> simp [insertIn, findIn, hj]
    · by_cases hj : k' = j
      · subst hj
        have hkj : ¬ k = k' := fun h => hk h.symm
        simp [insertIn, findIn, hk, hkj]
      · simp [insertIn, findIn, hk, hj, ih]

@[simp] theorem find?_empty (k : α) : (empty : Table α β).find? k = none := rfl

theorem find?_insert (t : Table α β) (k j : α) (v : β) :
    (t.insert k v).find? j = if k = j then some v else t.find? j :=
  findIn_insertIn k j v t.pairs

@[simp] theorem find?_insert_self (t : Table α β) (k : α) (v : β) : (t.insert k v).find? k = some v := by
  simp [find?_insert]

/-- Of two values for a key the second one counts. -/
theorem insert_insert (t : Table α β) (k : α) (v w : β) : (t.insert k v).insert k w = t.insert k w := by
  obtain ⟨ps⟩ := t
  simp only [insert, mk.injEq]
  induction ps with
  | nil => simp [insertIn]
  | cons p ps ih =>
    obtain ⟨k', v'⟩ := p
    by_cases hk : k' = k <;> simp [insertIn, hk, ih]

theorem findIn_filter_ne (k j : α) (ps : List (α × β)) :
    findIn j (ps.filter fun p => p.1 ≠ k) = if k = j then none else findIn j ps := by
  induction ps with
  | nil => simp [findIn]
  | cons p ps ih =>
    obtain ⟨k', v'⟩ := p
    by_cases hk : k' = k
    · subst hk
      by_cases hj : k' = j
      · simpa [List.filter_cons, hj] using ih
      · simpa [List.filter_cons, findIn, hj] using ih
    · by_cases hj : k' = j
      · subst hj
        have hkj : ¬ k = k' := fun h => hk h.symm
        simp [findIn, hk, hkj]
      · simpa [List.filter_cons, findIn, hk, hj] using ih

theorem find?_erase (t : Table α β) (k j : α) :
    (t.erase k).find? j = if k = j then none else t.find? j :=
  findIn_filter_ne k j t.pairs

theorem exists_mem_of_findIn {k : α} {v : β} {ps : List (α × β)} (h : findIn k ps = some v) :
    (k, v) ∈ ps := by
  induction ps with
  | nil => cases h
  | cons p ps ih =>
    obtain ⟨k', v'⟩ := p
    simp only [findIn] at h
    split at h
    · rename_i hk
      cases h
      simp [hk]
    · exact List.mem_cons_of_mem _ (ih h)

/-- Erasing a key that is there leaves a smaller table. -/
theorem size_erase_lt {t : Table α β} {k : α} {v : β} (h : t.find? k = some v) : (t.erase k).size < t.size := by
  have hm : (k, v) ∈ t.pairs := exists_mem_of_findIn h
  simp only [size, erase]
  exact List.length_filter_lt_length_iff_exists.mpr ⟨(k, v), hm, by simp⟩

end Table

end Magik
