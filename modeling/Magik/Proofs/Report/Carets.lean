/-
  Magik.Proofs.Report.Carets — what the carets of an excerpt stand under.

  `marks` is the line of carets as it should be: a caret under each character that is shown of
  the part of the line that the span covers. A tab is shown four columns wide (`length_shown`).
  The blanks in front of the carets take this into account, their number does not: if the span
  ends on the line it is counted in characters, else the characters in front are taken off the
  width of the whole line.
-/

import Magik.SourceText
import Mathlib.Data.List.Basic

namespace Magik.Report

/-- The span starts in the line, and ends there, not before its start, or on a later line. -/
structure StartsIn (span : Span) (line : List Char) : Prop where
  pos : 1 ≤ span.column
  le : span.column ≤ line.length
  ends : span.endLine = span.line ∧ span.column ≤ span.endColumn ∧ span.endColumn ≤ line.length ∨ span.line < span.endLine

/-- What is in front of the span on the line where it starts. -/
def ahead (span : Span) (line : List Char) : List Char := line.take (span.column - 1)

/-- What the span covers of the line where it starts. -/
def covered (span : Span) (line : List Char) : List Char :=
  (if span.endLine = span.line then line.take span.endColumn else line).drop (span.column - 1)

/-- Carets under all that is shown of what the span covers. -/
def marks (span : Span) (line : List Char) : List Char :=
  (shown (ahead span line)).map (fun _ => ' ') ++ (shown (covered span line)).map fun _ => '^'

variable {span : Span} {line : List Char}

theorem shown_append (front back : List Char) : shown (front ++ back) = shown front ++ shown back := List.flatMap_append

theorem length_shown (cs : List Char) : (shown cs).length = cs.length + 3 * cs.count '\t' := by
  induction cs with
  | nil => rfl
  | cons c cs ih =>
    have hcons : shown (c :: cs) = shown [c] ++ shown cs := shown_append [c] cs
    rw [hcons, List.length_append, ih, List.length_cons]
    by_cases hc : c = '\t'
    · simp only [shown, hc, List.flatMap_singleton, if_true, List.length_replicate, List.count_cons_self]
      omega
    · simp only [shown, hc, List.flatMap_singleton, if_false, List.length_singleton, List.count_cons_of_ne hc]
      omega

theorem indentTo_eq (span : Span) (line : List Char) : indentTo span.column line = (shown (ahead span line)).map fun _ => ' ' := by
  rw [indentTo, shown, List.map_flatMap]
  refine congrArg (List.flatMap · _) (funext fun c => ?_)
  by_cases hc : c = '\t' <;> simp [shownWidth, hc]

/-- On one line the carets are as many as the characters that the span covers. -/
theorem caretCount_same (hin : StartsIn span line) (h : span.endLine = span.line) :
    caretCount span line = (covered span line).length := by
  obtain ⟨hpos, -, ⟨-, hle, hend⟩ | hlater⟩ := hin
  · rw [caretCount, covered, if_pos h, if_pos h, List.length_drop, List.length_take]
    omega
  · omega

/-- Up to the end of the line they are too many by what the tabs in front add to its width. -/
theorem caretCount_later (hin : StartsIn span line) (h : span.endLine ≠ span.line) :
    caretCount span line = (shown (covered span line)).length + 3 * (ahead span line).count '\t' := by
  have hsplit : (shown line).length = (shown (ahead span line)).length + (shown (covered span line)).length := by
    rw [covered, if_neg h, ← List.length_append, ← shown_append, ahead, List.take_append_drop]
  have hahead : (ahead span line).length = span.column - 1 := by
    rw [ahead, List.length_take]
    have := hin.le
    omega
  have hpart : (covered span line).length = line.length - (span.column - 1) := by rw [covered, if_neg h, List.length_drop]
  rw [length_shown (ahead span line), hahead] at hsplit
  have hwide := length_shown (covered span line)
  have := hin.pos
  have := hin.le
  rw [caretCount, if_neg h]
  omega

/-- The tabs that the number of carets is wrong about. -/
def missed (span : Span) (line : List Char) : List Char :=
  if span.endLine = span.line then covered span line else ahead span line

theorem caretCount_eq_iff (hin : StartsIn span line) :
    caretCount span line = (shown (covered span line)).length ↔ '\t' ∉ missed span line := by
  rw [← List.count_eq_zero, missed]
  split
  · rename_i h
    rw [caretCount_same hin h, length_shown]
    omega
  · rename_i h
    rw [caretCount_later hin h]
    omega

theorem caretLine_eq_iff (hin : StartsIn span line) : caretLine span line = marks span line ↔ '\t' ∉ missed span line := by
  rw [← caretCount_eq_iff hin, caretLine, marks, indentTo_eq, List.append_cancel_left_eq, List.map_const', List.replicate_inj]
  simp

/-- Carets never reach past the end of the line if they stand where they should. -/
theorem length_marks_le (hin : StartsIn span line) : (marks span line).length ≤ (shown line).length := by
  have hcovered : ∃ after, line = ahead span line ++ covered span line ++ after := by
    unfold ahead covered
    split
    · rename_i h
      obtain ⟨-, -, ⟨-, hle, -⟩ | hlater⟩ := hin
      · refine ⟨line.drop span.endColumn, ?_⟩
        have htake : line.take (span.column - 1) = (line.take span.endColumn).take (span.column - 1) := by
          rw [List.take_take, Nat.min_eq_left (by omega)]
        rw [htake, List.take_append_drop, List.take_append_drop]
      · omega
    · exact ⟨[], by rw [List.take_append_drop, List.append_nil]⟩
  obtain ⟨after, hline⟩ := hcovered
  have hshown := congrArg (fun cs => (shown cs).length) hline
  simp only [shown_append, List.length_append] at hshown
  rw [marks, List.length_append, List.length_map, List.length_map]
  omega

/-- Below a line, the carets of a span that starts in it stand exactly under what is shown of the part that it covers
    unless there is a tab in this part, or, if the span ends on a later line, in front of it. For each such tab three
    carets are missing, or three stand behind the end of the line. -/
theorem excerpt_marks_span {source : SourceText} {text : String} (hline : source.line? span.line = some text)
    (hin : StartsIn span text.toList) :
    (excerpt source span = [margin ++ String.ofList (shown text.toList), margin ++ String.ofList (marks span text.toList)] ↔
      '\t' ∉ missed span text.toList) ∧
    (marks span text.toList).length ≤ (shown text.toList).length ∧
    (span.endLine = span.line →
      (caretLine span text.toList).length + 3 * (missed span text.toList).count '\t' = (marks span text.toList).length) ∧
    (span.endLine ≠ span.line →
      (caretLine span text.toList).length = (shown text.toList).length + 3 * (missed span text.toList).count '\t') := by
  have hexcerpt : excerpt source span =
      [margin ++ String.ofList (shown text.toList), margin ++ String.ofList (caretLine span text.toList)] := by
    rw [excerpt, hline]
  refine ⟨?_, length_marks_le hin, fun h => ?_, fun h => ?_⟩
  · rw [hexcerpt, ← caretLine_eq_iff hin]
    constructor
    · intro he
      have hlast : String.ofList (caretLine span text.toList) = String.ofList (marks span text.toList) := by simpa using he
      exact String.ofList_injective hlast
    · intro he
      rw [he]
  · rw [missed, if_pos h, caretLine, marks, indentTo_eq]
    simp only [List.length_append, List.length_replicate, List.length_map]
    rw [caretCount_same hin h, length_shown (covered _ _)]
    omega
  · have hwhole : text.toList = ahead span text.toList ++ covered span text.toList := by
      rw [ahead, covered, if_neg h, List.take_append_drop]
    have hshown := congrArg (fun cs => (shown cs).length) hwhole
    simp only [shown_append, List.length_append] at hshown
    rw [missed, if_neg h, caretLine, indentTo_eq, List.length_append, List.length_replicate, List.length_map,
      caretCount_later hin h]
    omega

/-- A target that no value can be given, from behind a tab to the second line. -/
def brokenSum : SourceText := ⟨"in.magik", "\t1 +\n2 << 3\n"⟩

/-- Three characters are marked on the first line, but there are three carets more. -/
theorem excerpt_overruns_brokenSum :
    let span : Span := ⟨1, 2, 2, 1⟩
    brokenSum.line? span.line = some "\t1 +" ∧ StartsIn span "\t1 +".toList ∧
    excerpt brokenSum span ≠ [margin ++ "    1 +", margin ++ "    ^^^"] ∧
    (marks span "\t1 +".toList).length = 7 ∧ (caretLine span "\t1 +".toList).length = 10 := by
  intro span
  have hline : brokenSum.line? span.line = some "\t1 +" := by decide +kernel
  have hin : StartsIn span "\t1 +".toList := ⟨by decide, by decide, Or.inr (by decide)⟩
  obtain ⟨hmarks, -, -, hlater⟩ := excerpt_marks_span hline hin
  refine ⟨hline, hin, fun he => ?_, by decide, (hlater (by decide)).trans (by decide)⟩
  exact hmarks.mp (he.trans (by decide +kernel)) (by decide)

end Magik.Report
