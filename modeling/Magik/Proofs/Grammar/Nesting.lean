/-
  Magik.Proofs.Grammar.Nesting — a file that is read without complaint is well nested.

  What each parser passes without reporting anything is nested, and a file is read to its
  end. Doc comments open and close nothing, so the same holds of the tokens.
-/

import Magik.Proofs.Grammar.Isolation
import Magik.Proofs.Grammar.Tracing

namespace Magik.Grammar

/-- Doc comments open and close nothing. -/
theorem closesAll_attachDocs (stack : List Enclosure) (lines : List String) (tokens : List Token) :
    closesAll stack ((attachDocs lines tokens).map fun w => w.token.kind) = closesAll stack (tokens.map Token.kind) := by
  induction tokens generalizing stack lines with
  | nil => rfl
  | cons t ts ih =>
    rw [attachDocs, List.map_cons]
    split
    · rename_i text hk
      rw [hk]
      exact ih stack (lines ++ [text])
    · rw [List.map_cons, closesAll, closesAll]
      simp only [ih]

/-- A file without pragmas of which nothing is reported is well nested: its construct keywords and brackets
    pair up inside one another, each divider stands directly in a construct of its own, and each `$` outside
    of all. -/
theorem nested_of_clean_parse {tokens : List Token} (h : EndsOnce tokens)
    (hp : ∀ t ∈ tokens, t.kind ≠ .keyword .kwPragma) (hc : (parse tokens).2 = []) :
    Nested none (tokens.map Token.kind) := by
  obtain ⟨root, s, last, hfile, hrest, hlast⟩ := file_found h
  obtain ⟨items, u, hitems, -, -, rfl⟩ := file_eq_found hfile
  have hclean : u.errors = (State.start tokens).errors := by
    have hnone : u.diagnostics = [] := by simpa [parse, hfile, State.give] using hc
    simp [State.errors, State.start, hnone]
  have hwords : ∀ w ∈ (State.start tokens).rest, w.token.kind ≠ .keyword .kwPragma := fun w hw =>
    hp w.token ((attachDocs_sublist [] tokens).subset (List.mem_map_of_mem hw))
  have hread := Leaves.fileItems (m := 0) (s := .start tokens) .refl
  rw [show Parse.fileItems (.start tokens) = .found items u from hitems] at hread
  obtain ⟨passed, hpassed, hnested⟩ := (hread.2.2.1.nests hwords).nested hclean
  have hend : bracketing last.token.kind = .ordinary := by
    obtain ⟨ts, e, rfl, he, -⟩ := h
    rw [List.getLast?_concat] at hlast
    rw [← Option.some.inj hlast, he]
    rfl
  have hall : Nested none ((State.start tokens).rest.map fun w => w.token.kind) := by
    rw [hpassed, show u.rest = [last] from hrest, List.map_append]
    exact hnested.append (.ordinary hend .nil)
  rw [nested_iff] at hall ⊢
  rwa [← closesAll_attachDocs [] [] tokens]

/-- A method with a conditional, a loop in its last branch, and a `$` after it. -/
theorem nested_branch_and_loop :
    let tokens : List Token := [.word .kwMethod 1 1, .name "a" 1 9, ⟨.dot, ".", 1, 10⟩,
      .name "b" 1 11, ⟨.leftParen, "(", 1, 12⟩, ⟨.rightParen, ")", 1, 13⟩, .word .kwIf 2 1,
      .name "c" 2 5, .word .kwThen 2 7, ⟨.leftParen, "(", 3, 1⟩, .name "d" 3 2,
      ⟨.rightParen, ")", 3, 3⟩, .word .kwElse 4 1, .word .kwLoop 5 1,
      .word .kwLeave 5 7, .word .kwEndLoop 5 14, .word .kwEndIf 6 1,
      .word .kwEndMethod 7 1, ⟨.dollar, "$", 8, 1⟩, ⟨.endOfFile, "", 9, 1⟩]
    EndsOnce tokens ∧ (∀ t ∈ tokens, t.kind ≠ .keyword .kwPragma) ∧ (parse tokens).2 = [] ∧
      Nested none (tokens.map Token.kind) := by
  intro tokens
  have hends : EndsOnce tokens := ⟨tokens.dropLast, ⟨.endOfFile, "", 9, 1⟩, rfl, rfl, by decide⟩
  have hpragma : ∀ t ∈ tokens, t.kind ≠ .keyword .kwPragma := by decide
  have hclean : (parse tokens).2 = [] := by decide +kernel
  exact ⟨hends, hpragma, hclean, nested_of_clean_parse hends hpragma hclean⟩

end Magik.Grammar
