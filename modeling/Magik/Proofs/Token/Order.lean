/-
  Magik.Proofs.Token.Order — each token ends before the next begins.

  A carriage return takes no column, so a token with one inside seems to reach further than
  it does. Without, the text of a token moves the place on by at least its length
  (`le_placeIn`), and what is between tokens never moves it back.
-/

import Mathlib.Data.List.Induction
import Magik.Proofs.Syntax.Spans
import Magik.Proofs.Token.Division

namespace Magik.Token

variable {before text : List Char} {tokens : List Token} {source : String}

/-- The place after a text. -/
def placeIn (text : List Char) : Place := .of (lineAfter text) (columnAfter text)

/-- All of the token is before the other. -/
def Precedes (t u : Token) : Prop := t.span.last < u.span.first

theorem placeIn_snoc (text : List Char) (c : Char) :
    placeIn (text ++ [c]) =
      if c = '\n' then .of (lineAfter text + 1) 1
      else if c = '\r' then placeIn text
      else .of (lineAfter text) (columnAfter text + 1) := by
  have hplace : placeIn (text ++ [c]) = .of ((placeAfter text).advance c).line ((placeAfter text).advance c).column := by
    rw [advance_place]
    rfl
  rw [hplace, Position.advance]
  split
  · rfl
  · split <;> rfl

theorem placeIn_mono (text more : List Char) : placeIn text ≤ placeIn (text ++ more) := by
  induction more using List.reverseRecOn with
  | nil => simp
  | append_singleton more c ih =>
    refine ih.trans ?_
    rw [← List.append_assoc, placeIn_snoc]
    unfold placeIn
    split
    · exact Place.le_iff.mpr (.inl (Nat.lt_succ_self _))
    · split
      · exact le_refl _
      · exact Place.le_iff.mpr (.inr ⟨rfl, Nat.le_succ _⟩)

/-- A text without carriage returns moves the place on by its length, or to another line. -/
theorem le_placeIn (before : List Char) (hr : '\r' ∉ text) :
    Place.of (lineAfter before) (columnAfter before + text.length) ≤ placeIn (before ++ text) := by
  induction text using List.reverseRecOn with
  | nil => simp [placeIn]
  | append_singleton text c ih =>
    rw [List.mem_append, not_or, List.mem_singleton] at hr
    have ih := ih hr.1
    rw [← List.append_assoc, placeIn_snoc, List.length_append, List.length_singleton]
    rw [placeIn, Place.le_iff] at ih
    split
    · rw [Place.le_iff]
      omega
    · rw [if_neg (fun h => hr.2 h.symm), Place.le_iff]
      omega

theorem inOrder_of_divided (h : Divided before text tokens) (hr : ∀ t ∈ tokens, '\r' ∉ t.lexeme.toList) :
    tokens.Pairwise Precedes ∧ ∀ t ∈ tokens, placeIn before ≤ t.span.first := by
  induction h with
  | @last before gap hg =>
    refine ⟨List.pairwise_singleton _ _, fun t ht => ?_⟩
    rw [List.mem_singleton.mp ht]
    exact placeIn_mono before gap
  | @token before gap lexeme rest kind tokens hk hne hg h ih =>
    obtain ⟨hordered, hbound⟩ := ih fun t ht => hr t (.tail _ ht)
    have hgap := placeIn_mono before gap
    have hlexeme : '\r' ∉ lexeme := by simpa using hr _ (.head _)
    have hend := le_placeIn (before ++ gap) hlexeme
    refine ⟨List.pairwise_cons.mpr ⟨fun u hu => ?_, hordered⟩, fun u hu => ?_⟩
    · have hpos := List.length_pos_iff.mpr hne
      refine lt_of_lt_of_le ?_ (hend.trans (hbound u hu))
      refine Place.lt_iff.mpr (.inr ⟨rfl, ?_⟩)
      rw [Token.span, String.length_ofList]
      dsimp only
      omega
    · rcases List.mem_cons.mp hu with rfl | hu
      · exact hgap
      · exact (hgap.trans (placeIn_mono (before ++ gap) lexeme)).trans (hbound u hu)

theorem line_ne_zero_of_divided (h : Divided before text tokens) : ∀ t ∈ tokens, t.line ≠ 0 := by
  have hline (text : List Char) : lineAfter text ≠ 0 := by simp [lineAfter]
  induction h with
  | last => simpa using hline _
  | token _ _ _ _ ih => exact List.forall_mem_cons.mpr ⟨hline _, ih⟩

theorem line_ne_zero_of_scan (h : scan source = .ok tokens) : ∀ t ∈ tokens, t.line ≠ 0 :=
  line_ne_zero_of_divided (show Divided [] source.toList tokens from divided_scanFrom h)

theorem inOrder_of_scan (h : scan source = .ok tokens) (hr : ∀ t ∈ tokens, '\r' ∉ t.lexeme.toList) :
    tokens.Pairwise Precedes :=
  (inOrder_of_divided (show Divided [] source.toList tokens from divided_scanFrom h) hr).1

end Magik.Token
