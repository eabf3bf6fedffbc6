/-
  Magik.Proofs.Server.Hovering — what is shown at a position is about a range around it.

  The search for a node goes down through nodes that contain the position (`contains_innermost`).
  A span that is somewhere becomes a range with the same places in it, unless a number of its end
  has more than 32 bits (`covers_ofSpan`). Every node is somewhere (`Trace.somewhere`): its span
  begins with a token or with one of its parts, however much of it is malformed.
-/

import Magik.Proofs.Grammar.Innermost
import Magik.Server.Hover
import Mathlib.Algebra.Group.Nat.Defs

namespace Magik

variable {a : Span}

theorem Span.union_somewhere (h : a.line ≠ 0) (b : Span) : (a.union b).line ≠ 0 := by
  unfold union
  rw [if_neg h]
  split
  · exact h
  · dsimp only
    split <;> assumption

theorem Span.around_somewhere (h : a.line ≠ 0) (spans : List Span) : (a.around spans).line ≠ 0 :=
  List.foldlRecOn (motive := fun s : Span => s.line ≠ 0) _ _ h fun _ hs b _ => union_somewhere hs b

theorem Node.contains_innermost {line column : Nat} {n : Node} (h : n.span.contains line column) :
    (innermost line column n).span.contains line column := by
  induction n using Node.induction_children with
  | node n ih =>
    rw [innermost_eq]
    cases hm : innermostIn line column n.children with
    | none => exact h
    | some m =>
      obtain ⟨c, hc, hin, rfl⟩ := exists_of_innermostIn hm
      exact ih c hc hin

/-! ## Every node is somewhere -/

namespace Grammar

variable {ns : List Node}

open Node (Way)

/-- The node and all below it are somewhere. -/
def Located (n : Node) : Prop := ∀ m as, Way n m as → m.span.line ≠ 0

theorem Located.node {number : Nat} {kind : Node.Kind} {span : Span} (h : span.line ≠ 0) (hns : ∀ n ∈ ns, Located n) :
    ∀ n ∈ [(⟨number, kind, span, ns⟩ : Node)], Located n := by
  rintro n hn m as hw
  obtain rfl := List.mem_singleton.mp hn
  rcases hw.cases_root with ⟨rfl, -⟩ | ⟨c, hc, bs, hw, -⟩
  · exact h
  · exact hns c hc m bs hw

theorem Located.somewhere {n : Node} (h : Located n) : n.span.line ≠ 0 := h n [] .root

theorem Trace.somewhere {s t : State} (h : Trace s ns t) (hs : ∀ w ∈ s.rest, w.token.line ≠ 0) : ∀ n ∈ ns, Located n := by
  have later {s t : State} (hs : ∀ w ∈ s.rest, w.token.line ≠ 0) (ho : Onward s t) : ∀ w ∈ t.rest, w.token.line ≠ 0 :=
    fun w hw => hs w (ho.suffix.subset hw)
  have first {s : State} {w : Word} {ws : List Word} (hs : ∀ w ∈ s.rest, w.token.line ≠ 0) (hr : s.rest = w :: ws) :
      w.token.span.line ≠ 0 := hs w (by simp [hr])
  induction h with
  | refl | pass | tell | drop => simp
  | append h h' _ ih ih' => exact List.forall_mem_append.mpr ⟨ih hs, ih' (later hs h.onward)⟩
  | apart h hr hw h' ih ih' =>
    exact List.forall_mem_append.mpr ⟨ih hs, ih' (later hs (h.onward.trans (.pass hr hw)))⟩
  | spanning hr h hl hk _ ih | malformed hr h hl _ ih => exact .node (Span.union_somewhere (first hs hr) _) (ih hs)
  | handler hr hw h _ ih => exact .node (Span.union_somewhere (first hs hr) _) (ih (later hs (.pass hr hw)))
  | leading hf hb hr hw h hk _ ih ih' =>
    have hleft := ih hs _ (.head _)
    exact .node (Span.union_somewhere hleft.somewhere _)
      (List.forall_mem_cons.mpr ⟨hleft, ih' (later hs (hf.onward.trans (.pass hr hw)))⟩)
  | joining hl hb hr hw h hb' hk _ ih ih' =>
    have hleft := ih hs _ (.head _)
    exact .node (Span.union_somewhere hleft.somewhere _)
      (List.forall_mem_cons.mpr ⟨hleft, ih' (later hs (hl.onward.trans (.pass hr hw)))⟩)
  | prefixing hr hw h hb hk _ ih =>
    exact .node (Span.union_somewhere (first hs hr) _) (ih (later hs (.pass hr hw)))
  | listing h hb hl _ ih =>
    obtain ⟨last, hlast, hbefore⟩ := h.onward.exists_last hl
    exact .node (Span.around_somewhere (hbefore ▸ hs last hlast) _) (ih hs)
  | @body s t w ws ns hr h hb _ ih =>
    refine .node ?_ (ih hs)
    unfold Parse.bodySpan
    split
    · rename_i n last hn _
      exact Span.union_somewhere (ih hs n (List.mem_of_mem_head? hn)).somewhere _
    · exact first hs hr

end Grammar

/-! ## Ranges -/

namespace Server

/-- The position is in the range, the end of which is outside. -/
def Range.Covers (r : Range) (p : Position) : Prop :=
  Place.of r.start.line r.start.character ≤ .of p.line p.character ∧
    Place.of p.line p.character < .of r.stop.line r.stop.character

theorem word_le (n : Nat) : word n ≤ n := Nat.mod_le _ _

theorem word_of_lt {n : Nat} (h : n < 2 ^ 32) : word n = n := Nat.mod_eq_of_lt h

/-- Of a span that contains the position only the end matters: numbers of its start that are too large become smaller. -/
theorem covers_ofSpan {s : Span} {p : Position} (hs : s.line ≠ 0) (hp : s.contains (p.line + 1) (p.character + 1))
    (hline : s.endLine < 2 ^ 32) (hcolumn : s.endColumn < 2 ^ 32) : (Range.ofSpan s).Covers p := by
  obtain ⟨hfirst, hlast⟩ := Span.contains_iff.mp hp
  rw [Span.first, Place.le_iff] at hfirst
  rw [Span.last, Place.le_iff] at hlast
  have hstop : Place.of p.line p.character < .of (word (s.endLine - 1)) (word s.endColumn) := by
    rw [word_of_lt hcolumn, word_of_lt (by omega), Place.lt_iff]
    omega
  have hstart : Place.of (word (s.line - 1)) (word (s.column - 1)) ≤ .of p.line p.character := by
    have := word_le (s.column - 1)
    rw [word_of_lt (n := s.line - 1) (by omega), Place.le_iff]
    omega
  have hordered := hstart.trans_lt hstop
  rw [Place.lt_iff] at hordered
  have hkeeps : Range.ofSpan s = ⟨⟨word (s.line - 1), word (s.column - 1)⟩, ⟨word (s.endLine - 1), word s.endColumn⟩⟩ := by
    unfold Range.ofSpan
    exact if_neg (by dsimp only; omega)
  rw [hkeeps]
  exact ⟨hstart, hstop⟩

variable {id : Nat} {definitions : Definitions} {options : AnalysisOptions} {source : String} {a : Analysis}

/-- A node at a position is somewhere and contains it. -/
theorem nodeAt_contains (ha : Analysis.ofText id definitions options source = .ok a) {line column : Nat} {n : Node}
    (hn : a.tree.nodeAt? line column = some n) : n.span.line ≠ 0 ∧ n.span.contains line column := by
  unfold Analysis.ofText at ha
  split at ha
  · rename_i tokens hscan
    cases ha
    obtain ⟨items, t, hbears, hparse⟩ := Grammar.parse_traced tokens
    have hitems : (Analysis.ofTokens id definitions options tokens).tree.root.children = items := by
      rw [Analysis.ofTokens, hparse]
    have hlocated : ∀ c ∈ items, Grammar.Located c :=
      hbears.trace.somewhere fun w hw =>
        Token.line_ne_zero_of_scan hscan _ ((Grammar.attachDocs_sublist [] tokens).subset (List.mem_map_of_mem hw))
    obtain ⟨c, hc, hin, rfl⟩ := Node.exists_of_innermostIn hn
    obtain ⟨bs, hw⟩ := Node.way_innermost line column c
    exact ⟨hlocated c (hitems ▸ hc) _ _ hw, Node.contains_innermost hin⟩
  · cases ha

/-- Whatever is shown at a position of a source, malformed or not, is shown for a range that the position is in. -/
theorem hover_range_covers (ha : Analysis.ofText id definitions options source = .ok a) {p : Position} {text : String}
    {span : Span} (h : hoverAt a p = some (text, span)) (hline : span.endLine < 2 ^ 32) (hcolumn : span.endColumn < 2 ^ 32) :
    (Range.ofSpan span).Covers p := by
  obtain ⟨n, hn, hshown⟩ := Option.bind_eq_some_iff.mp h
  obtain ⟨_, -, hpair⟩ := Option.map_eq_some_iff.mp hshown
  obtain rfl : n.span = span := congrArg Prod.snd hpair
  obtain ⟨hs, hp⟩ := nodeAt_contains ha hn
  exact covers_ofSpan hs hp hline hcolumn

/-- A block over three lines, in which a value is missing. -/
def brokenBlock : String := "_block\n1 +\n_endblock"

def brokenBlockTokens : List Token :=
  [.word .kwBlock 1 1, ⟨.integer 1, "1", 2, 1⟩, ⟨.plus, "+", 2, 3⟩, .word .kwEndBlock 3 1,
    ⟨.endOfFile, "", 3, 10⟩]

/-- Behind the end of its second line the block is shown, for all of its lines. -/
theorem hover_range_covers_brokenBlock :
    let a := Analysis.ofTokens 0 .empty .standard brokenBlockTokens
    Analysis.ofText 0 .empty .standard brokenBlock = .ok a ∧ hoverAt a ⟨1, 9⟩ = some ("block: ``", ⟨1, 1, 3, 9⟩) ∧
      (Range.ofSpan ⟨1, 1, 3, 9⟩).Covers ⟨1, 9⟩ := by
  intro a
  have hscan : Token.scan brokenBlock = .ok brokenBlockTokens := by decide +kernel
  have ha : Analysis.ofText 0 .empty .standard brokenBlock = .ok a := by rw [Analysis.ofText, hscan]
  have hhover : hoverAt a ⟨1, 9⟩ = some ("block: ``", ⟨1, 1, 3, 9⟩) := by decide +kernel
  exact ⟨ha, hhover, hover_range_covers ha hhover (by decide) (by decide)⟩

end Server

end Magik
