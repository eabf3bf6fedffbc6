/-
  Magik.Proofs.Syntax.Spans — spans and the order of places.

  A place is a line and a column, ordered by the line first. A span reaches from its first
  place to its last; a position lies in it when it is between the two (`contains_iff`), and
  the union of two spans is the smallest around both, unless one of them is nowhere.
-/

import Mathlib.Data.Prod.Lex
import Magik.Span

namespace Magik

variable {column column' line line' : Nat}

/-- A line and a column. -/
abbrev Place : Type := Nat ×ₗ Nat

def Place.of (line column : Nat) : Place := toLex (line, column)

theorem Place.le_iff : Place.of line column ≤ Place.of line' column' ↔ line < line' ∨ line = line' ∧ column ≤ column' :=
  Prod.Lex.toLex_le_toLex

theorem Place.lt_iff : Place.of line column < Place.of line' column' ↔ line < line' ∨ line = line' ∧ column < column' :=
  Prod.Lex.toLex_lt_toLex

namespace Span

variable {column line : Nat}

def first (s : Span) : Place := .of s.line s.column

def last (s : Span) : Place := .of s.endLine s.endColumn

theorem contains_iff {s : Span} : s.contains line column ↔ s.first ≤ .of line column ∧ .of line column ≤ s.last := by
  simp only [contains, first, last, Place.le_iff, Bool.and_eq_true, Bool.not_eq_true', Bool.and_eq_false_iff,
    decide_eq_true_eq, decide_eq_false_iff_not, beq_eq_false_iff_ne]
  omega

theorem atOrBefore_iff {line' column' : Nat} :
    atOrBefore line column line' column' ↔ Place.of line column ≤ .of line' column' := by
  simp only [atOrBefore, Place.le_iff, Bool.or_eq_true, Bool.and_eq_true, decide_eq_true_eq, beq_iff_eq]

/-- The span lies between two places. -/
structure Within (low high : Place) (s : Span) : Prop where
  somewhere : s.line ≠ 0
  low : low ≤ s.first
  ordered : s.first ≤ s.last
  high : s.last ≤ high

/-- All of the span is in the other. -/
structure Inside (s t : Span) : Prop where
  first : t.first ≤ s.first
  last : s.last ≤ t.last

section

variable {a b : Span} (ha : a.line ≠ 0) (hb : b.line ≠ 0)

include ha hb

theorem first_union : (a.union b).first = min a.first b.first := by
  unfold union
  rw [if_neg ha, if_neg hb]
  by_cases h : atOrBefore a.line a.column b.line b.column
  · have hle : a.first ≤ b.first := atOrBefore_iff.mp h
    rw [min_eq_left hle]
    simp only [h, if_true]
    rfl
  · have hle : b.first ≤ a.first := le_of_not_ge fun hle => h (atOrBefore_iff.mpr hle)
    rw [min_eq_right hle]
    simp only [h]
    rfl

theorem last_union : (a.union b).last = max a.last b.last := by
  unfold union
  rw [if_neg ha, if_neg hb]
  by_cases h : atOrBefore b.endLine b.endColumn a.endLine a.endColumn
  · have hle : b.last ≤ a.last := atOrBefore_iff.mp h
    rw [max_eq_left hle]
    simp only [h, if_true]
    rfl
  · have hle : a.last ≤ b.last := le_of_not_ge fun hle => h (atOrBefore_iff.mpr hle)
    rw [max_eq_right hle]
    simp only [h]
    rfl

theorem inside_union_left : a.Inside (a.union b) :=
  ⟨(first_union ha hb).trans_le (min_le_left _ _), (le_max_left _ _).trans_eq (last_union ha hb).symm⟩

theorem inside_union_right : b.Inside (a.union b) :=
  ⟨(first_union ha hb).trans_le (min_le_right _ _), (le_max_right _ _).trans_eq (last_union ha hb).symm⟩

/-- What begins no earlier than the one span and ends no later than the other. -/
theorem inside_union {c : Span} (hfirst : a.first ≤ c.first) (hlast : c.last ≤ b.last) : c.Inside (a.union b) :=
  ⟨(inside_union_left ha hb).first.trans hfirst, hlast.trans (inside_union_right ha hb).last⟩

end

variable {a b c : Span} {low high : Place} {spans : List Span}

theorem Inside.refl (a : Span) : a.Inside a := ⟨le_refl _, le_refl _⟩

theorem Inside.trans (h : a.Inside b) (h' : b.Inside c) : a.Inside c := ⟨h'.first.trans h.first, h.last.trans h'.last⟩

theorem Within.union (ha : a.Within low high) (hb : b.Within low high) : (a.union b).Within low high := by
  have hfirst := first_union ha.somewhere hb.somewhere
  have hlast := last_union ha.somewhere hb.somewhere
  have hin := inside_union_left ha.somewhere hb.somewhere
  refine ⟨?_, ?_, (hin.first.trans ha.ordered).trans hin.last, ?_⟩
  · unfold Span.union
    rw [if_neg ha.somewhere, if_neg hb.somewhere]
    dsimp only
    split
    · exact ha.somewhere
    · exact hb.somewhere
  · rw [hfirst]
    exact le_min ha.low hb.low
  · rw [hlast]
    exact max_le ha.high hb.high

theorem Within.around (ha : a.Within low high) (hs : ∀ s ∈ spans, s.Within low high) :
    (a.around spans).Within low high := by
  induction spans generalizing a with
  | nil => exact ha
  | cons s spans ih => exact ih (ha.union (hs s (by simp))) fun t ht => hs t (.tail _ ht)

/-- The start and all that follow it are in the span around them. -/
theorem inside_around (ha : a.Within low high) (hs : ∀ s ∈ spans, s.Within low high) :
    ∀ s ∈ a :: spans, s.Inside (a.around spans) := by
  induction spans generalizing a with
  | nil =>
    intro s hs
    rw [List.mem_singleton.mp hs]
    exact Inside.refl a
  | cons t spans ih =>
    have ht := hs t (by simp)
    have ih := ih (ha.union ht) fun u hu => hs u (.tail _ hu)
    have hunion := ih (a.union t) (by simp)
    intro s hmem
    rcases List.mem_cons.mp hmem with rfl | hmem
    · exact (inside_union_left ha.somewhere ht.somewhere).trans hunion
    rcases List.mem_cons.mp hmem with rfl | hmem
    · exact (inside_union_right ha.somewhere ht.somewhere).trans hunion
    · exact ih s (.tail _ hmem)

theorem inside_around_nowhere (hs : ∀ s ∈ spans, s.Within low high) : ∀ s ∈ spans, s.Inside (nowhere.around spans) := by
  cases spans with
  | nil => simp
  | cons a spans =>
    have hstart : nowhere.around (a :: spans) = a.around spans := by simp [Span.around]
    rw [hstart]
    exact inside_around (hs a (by simp)) fun s hmem => hs s (.tail _ hmem)

end Span

end Magik
