/-
  Magik.Proofs.Grammar.Reports — what cannot be read is reported.

  A node for malformed words is made where a parser has given up, and a parser that gives
  up has reported a problem. By induction on the trace, so has the whole file, whatever is
  inside what (`Trace.accounted`). The exception is a pragma that the file ends in: it is
  given up without a word.
-/

import Mathlib.Control.Monad.Basic
import Magik.Analysis
import Magik.Proofs.Grammar.Totality
import Magik.Proofs.Grammar.Tracing
import Magik.Proofs.Syntax.Ways

namespace Magik.Grammar

variable {e : Word} {ws : List Word} {s t : State} {ns : List Node}

/-! ## Pragmas without an end -/

/-- However far one goes among the words, no more parentheses are closed than opened. -/
def NeverCloses (words : List Word) : Prop :=
  ∀ inside, inside <+: words →
    inside.countP (fun w => w.token.kind = .rightParen) ≤ inside.countP fun w => w.token.kind = .leftParen

/-- The node reaches from a pragma, whose parenthesis is not closed before the file ends, to a later word. -/
def CoversOpenPragma (words : List Word) (n : Node) : Prop :=
  ∃ front opening paren rest last, words = front ++ opening :: paren :: rest ∧
    opening.token.kind = .keyword .kwPragma ∧ paren.token.kind = .leftParen ∧ NeverCloses rest ∧
    last ∈ opening :: paren :: rest ∧ n.span = opening.token.span.union last.token.span

/-- Inside so many parentheses, as far as the file goes, there are fewer that close than that. -/
theorem lt_of_pragmaRest {inside : List Word} {depth : Nat} (hc : Closes e ws) (h : Parse.pragmaRest depth ws = none)
    (hd : 0 < depth) (hi : inside <+: ws) :
    inside.countP (fun w => w.token.kind = .rightParen) <
      depth + inside.countP fun w => w.token.kind = .leftParen := by
  induction hc generalizing depth inside with
  | last he =>
    rcases List.prefix_cons_iff.mp hi with rfl | ⟨rest, rfl, hrest⟩
    · simpa using hd
    · rw [List.prefix_nil.mp hrest]
      simpa [he] using hd
  | @more w ws hw hc ih =>
    rcases List.prefix_cons_iff.mp hi with rfl | ⟨rest, rfl, hrest⟩
    · simpa using hd
    rw [Parse.pragmaRest] at h
    split at h
    · exact absurd ‹_› hw
    · rename_i hk
      have hmore := ih (by simpa using h) (Nat.lt_succ_of_lt hd) hrest
      simp only [List.countP_cons, hk]
      grind
    · rename_i hk
      split at h
      · cases h
      · have hmore := ih (by simpa using h) (by omega) hrest
        simp only [List.countP_cons, hk]
        grind
    · have hmore := ih (by simpa using h) hd hrest
      simp only [List.countP_cons]
      grind

/-! ## Malformed words -/

/-- The node reaches from the first of the words to another, and the words begin with a pragma without an end. -/
def Unended (words : List Word) (n : Node) : Prop :=
  OpenPragma words ∧ ∃ first rest last, words = first :: rest ∧ last ∈ words ∧
    n.span = first.token.span.union last.token.span

/-- For each node of malformed words, something has been reported between the states, unless it is a
    pragma without an end. -/
def Accounted (s : State) (ns : List Node) (t : State) : Prop :=
  ∀ n ∈ Node.drain ns, n.kind = .syntaxError → s.errors < t.errors ∨ ∃ words, words <:+ s.rest ∧ Unended words n

namespace Accounted

variable {s s' t t' : State} {ns ms : List Node}

theorem nil : Accounted s [] t := by simp [Accounted, Node.drain]

theorem wider (h : Accounted s' ns t') (hr : s'.rest <:+ s.rest) (hs : s.errors ≤ s'.errors) (ht : t'.errors ≤ t.errors) :
    Accounted s ns t := by
  intro n hn hk
  rcases h n hn hk with hlt | ⟨words, hw, hu⟩
  · exact .inl (by omega)
  · exact .inr ⟨words, hw.trans hr, hu⟩

theorem append (h : Accounted s ns t) (h' : Accounted s ms t) : Accounted s (ns ++ ms) t := by
  intro n hn
  rw [Node.drain_append, List.mem_append] at hn
  exact hn.elim (h n) (h' n)

/-- A node that is not malformed itself. -/
theorem node (h : Accounted s ns t) {kind : Node.Kind} (hk : kind ≠ .syntaxError) (number : Nat) (span : Span) :
    Accounted s [⟨number, kind, span, ns⟩] t := by
  intro n hn
  rw [Node.drain, List.append_nil, List.mem_cons] at hn
  rcases hn with rfl | hn
  · exact fun he => absurd he hk
  · exact h n hn

end Accounted

/-- Two parts with a word between them. -/
theorem Accounted.apart {u : State} {w : Word} {ms : List Node} (hs : Accounted s ns t)
    (hs' : Accounted (t.pass w ws) ms u) (h : Trace s ns t) (hr : t.rest = w :: ws) (hw : w.token.kind ≠ .endOfFile)
    (h' : Trace (t.pass w ws) ms u) : Accounted s (ns ++ ms) u := by
  have hpassed := h.on (.pass hr hw)
  exact (hs.wider (List.suffix_refl _) (Nat.le_refl _) h'.errors_le).append
    (hs'.wider hpassed.onward.suffix hpassed.errors_le (Nat.le_refl _))

theorem Trace.accounted (h : Trace s ns t) : Accounted s ns t := by
  induction h with
  | refl => exact .nil
  | pass hr hw => exact .nil
  | tell problem span => exact .nil
  | drop h ih => exact .nil
  | append h h' _ ih ih' =>
    exact (ih.wider (List.suffix_refl _) (Nat.le_refl _) h'.errors_le).append
      (ih'.wider h.onward.suffix h.errors_le (Nat.le_refl _))
  | apart h hr hw h' ih ih' => exact ih.apart ih' h hr hw h'
  | spanning hr h hl hk _ ih => exact ih.node (ne_syntaxError_of_isPlain hk) _ _
  | handler hr hw h _ ih =>
    have hpassed := Trace.pass hr hw
    exact (ih.wider hpassed.onward.suffix hpassed.errors_le (Nat.le_refl _)).node (by simp) _ _
  | @malformed s t w ws hr h hl hs ih =>
    intro n hn _
    rw [Node.drain, List.append_nil, Node.drain, List.mem_singleton] at hn
    subst hn
    refine hs.imp_right fun hopen => ?_
    obtain ⟨last, hlast, hbefore⟩ := h.onward.exists_last hl
    exact ⟨s.rest, List.suffix_refl _, hopen, w, ws, last, hr, hlast, by rw [hbefore]⟩
  | leading hf hb hr hw h hk _ ih ih' => exact (ih.apart ih' hf hr hw h).node (ne_syntaxError_of_isPlain hk) _ _
  | joining hl hb hr hw h hb' hk _ ih ih' => exact (ih.apart ih' hl hr hw h).node (ne_syntaxError_of_isPlain hk) _ _
  | prefixing hr hw h hb hk _ ih =>
    have hpassed := Trace.pass hr hw
    exact (ih.wider hpassed.onward.suffix hpassed.errors_le (Nat.le_refl _)).node (ne_syntaxError_of_isPlain hk) _ _
  | listing h hb hl _ ih | body hr h hb _ ih => exact ih.node (by simp) _ _

/-! ## Files -/

theorem hasErrors_iff (s : State) : Diagnostic.hasErrors s.diagnostics ↔ 0 < s.errors := by
  simp [Diagnostic.hasErrors, State.errors, List.countP_pos_iff]

/-- The problems of a file are among those of its analysis. -/
theorem hasErrors_diagnosticsOf {source : String} {tokens : List Token} (h : Token.scan source = .ok tokens)
    (he : Diagnostic.hasErrors (parse tokens).2) (definitions : Definitions) (options : AnalysisOptions) :
    Diagnostic.hasErrors (Analysis.diagnosticsOf definitions options source) := by
  simp only [Diagnostic.hasErrors] at he ⊢
  simp [Analysis.diagnosticsOf, Analysis.ofText, Analysis.ofTokens, h, he]

theorem CoversOpenPragma.of_unended {all words : List Word} {n : Node} (hc : Closes e all) (hs : words <:+ all)
    (h : Unended words n) : CoversOpenPragma all n := by
  obtain ⟨⟨opening, paren, rest, rfl, ho, hp, hnone⟩, _, _, last, he, hlast, hspan⟩ := h
  cases he
  obtain ⟨front, rfl⟩ := hs
  have hrest : Closes e rest := by
    have hall := hc.of_suffix (List.suffix_append front _) (by simp)
    exact (hall.tail (by simp [ho])).tail (by simp [hp])
  refine ⟨front, opening, paren, rest, last, rfl, ho, hp, fun inside hi => ?_, hlast, hspan⟩
  have hlt := lt_of_pragmaRest hrest hnone Nat.one_pos hi
  omega

/-- Malformed words are not passed over in silence: where a file has a node for them, an error is reported,
    and so is one for the file as a whole. The only exception is a pragma that the file ends in. -/
theorem malformed_reported {source : String} {tokens : List Token} (h : Token.scan source = .ok tokens) {n : Node}
    (hn : n ∈ (parse tokens).1.nodes) (hk : n.kind = .syntaxError) :
    Diagnostic.hasErrors (parse tokens).2 ∧
        (∀ definitions options, Diagnostic.hasErrors (Analysis.diagnosticsOf definitions options source)) ∨
      CoversOpenPragma (attachDocs [] tokens) n := by
  obtain ⟨items, s, hs, hparse⟩ := parse_traced tokens
  obtain ⟨last, -, hc⟩ := (endsOnce_of_scan h).closes_start
  have hitem : n ∈ Node.drain (parse tokens).1.root.children := by
    rcases List.mem_cons.mp hn with rfl | hn
    · rw [(parse_formedFile tokens).file] at hk
      cases hk
    · exact hn
  rw [hparse] at hitem
  rcases hs.trace.accounted n hitem hk with hlt | ⟨words, hw, hu⟩
  · left
    have herrors : Diagnostic.hasErrors (parse tokens).2 := by
      rw [hparse, hasErrors_iff]
      exact Nat.zero_lt_of_lt hlt
    exact ⟨herrors, hasErrors_diagnosticsOf h herrors⟩
  · exact Or.inr (.of_unended hc hw hu)

/-- The shortest such pragma: nothing is reported. -/
theorem malformed_reported_lone_pragma :
    let tokens : List Token := [.word .kwPragma 1 1, ⟨.leftParen, "(", 1, 8⟩, ⟨.endOfFile, "", 1, 9⟩]
    let n : Node := ⟨0, .syntaxError, ⟨1, 1, 1, 8⟩, []⟩
    Token.scan "_pragma(" = .ok tokens ∧ n ∈ (parse tokens).1.nodes ∧ (parse tokens).2 = [] ∧
      CoversOpenPragma (attachDocs [] tokens) n := by
  intro tokens n
  have hscan : Token.scan "_pragma(" = .ok tokens := by decide +kernel
  have hn : n ∈ (parse tokens).1.nodes := by decide +kernel
  have hsilent : (parse tokens).2 = [] := by decide +kernel
  refine ⟨hscan, hn, hsilent, (malformed_reported hscan hn rfl).resolve_left ?_⟩
  rw [hsilent]
  simp [Diagnostic.hasErrors]

end Magik.Grammar
