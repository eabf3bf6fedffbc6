/-
  Magik.Proofs.Grammar.LineStarts — of the layout only the starts of lines matter.

  Two lists with the same kinds and texts have the same parse, but for the places, if their
  lines go forward and the same tokens stand on the line of the token before them, doc
  comments aside (`parse_of_relaid`). How far apart lines are, the columns, and the lines of
  the doc comments say nothing.
-/

import Magik.Proofs.Grammar.Lockstep

namespace Magik

def Token.Kind.isDoc : Token.Kind → Bool
  | .docComment _ => true
  | _ => false

theorem Token.Kind.isDoc_eq_false {k : Token.Kind} (h : ∀ text, k ≠ .docComment text) : k.isDoc = false := by
  cases k <;> simp_all [isDoc]

namespace Grammar

variable {tokens tokens' : List Token} {p q : Nat × Nat} {l l' : List Nat}

/-! ## Lines that start together -/

/-- Whether a line is the one before it. -/
def stays (lines : List Nat) : List Bool := List.zipWith (· == ·) lines lines.tail

/-- Two places in both layouts: the first is not after the second, and they are on one line
    in both or in neither. -/
structure Orderly (p q : Nat × Nat) : Prop where
  left : p.1 ≤ q.1
  right : p.2 ≤ q.2
  same : p.1 = q.1 ↔ p.2 = q.2

theorem Orderly.lt_iff (h : Orderly p q) : p.1 < q.1 ↔ p.2 < q.2 := by
  have := h.left; have := h.right; have := h.same
  omega

theorem Orderly.gt_iff (h : Orderly p q) : q.1 < p.1 ↔ q.2 < p.2 := by
  have := h.left; have := h.right
  omega

instance : IsTrans (Nat × Nat) Orderly where
  trans _ _ _ h h' := ⟨Nat.le_trans h.left h'.left, Nat.le_trans h.right h'.right, by
    have := h.left; have := h'.left; have := h.right; have := h'.right; have := h.same; have := h'.same
    omega⟩

theorem pairwise_orderly (h : l.Pairwise (· ≤ ·)) (h' : l'.Pairwise (· ≤ ·)) (hs : stays l = stays l') :
    (l.zip l').Pairwise Orderly := by
  refine List.IsChain.pairwise ?_
  induction l generalizing l' with
  | nil => exact .nil
  | cons a l ih =>
    cases l' with
    | nil => exact .nil
    | cons a' l' =>
      cases l with
      | nil => exact .singleton _
      | cons b l =>
        cases l' with
        | nil => exact .singleton _
        | cons b' l' =>
          obtain ⟨hab, hs⟩ : (a == b) = (a' == b') ∧ stays (b :: l) = stays (b' :: l') := by simpa [stays] using hs
          refine .cons_cons ⟨?_, ?_, ?_⟩ (ih h.of_cons h'.of_cons hs)
          · exact List.rel_of_pairwise_cons h (by simp)
          · exact List.rel_of_pairwise_cons h' (by simp)
          · simpa using Bool.eq_iff_iff.mp hab

/-- Lines that go forward and start together are in the same order. -/
theorem lt_iff_of_mem_zip (h : l.Pairwise (· ≤ ·)) (h' : l'.Pairwise (· ≤ ·)) (hs : stays l = stays l')
    (hp : p ∈ l.zip l') (hq : q ∈ l.zip l') : p.1 < q.1 ↔ p.2 < q.2 := by
  have ho := pairwise_orderly h h' hs
  exact List.Pairwise.forall_of_forall_of_flip (R := fun p q => p.1 < q.1 ↔ p.2 < q.2) (by simp)
    (ho.imp fun h => h.lt_iff) (ho.imp fun h => h.gt_iff) hp hq

/-! ## Lists that are laid out differently -/

/-- The lines of the tokens, doc comments aside. -/
def wordLines (tokens : List Token) : List Nat := (tokens.filter (!·.kind.isDoc)).map (·.line)

/-- The same tokens, laid out with the same starts of lines. -/
structure Relaid (tokens tokens' : List Token) : Prop where
  same : tokens.map (fun t => (t.kind, t.lexeme)) = tokens'.map fun t => (t.kind, t.lexeme)
  forward : (wordLines tokens).Pairwise (· ≤ ·)
  forward' : (wordLines tokens').Pairwise (· ≤ ·)
  starts : stays (wordLines tokens) = stays (wordLines tokens')

theorem Relaid.symm (h : Relaid tokens tokens') : Relaid tokens' tokens :=
  ⟨h.same.symm, h.forward', h.forward, h.starts.symm⟩

theorem splits_attachDocs {f : Fork} (hf : f.Same) (hplaced : f.placed = false) (hname : ∀ name, f.name name)
    (h : tokens.map (fun t => (t.kind, t.lexeme)) = tokens'.map fun t => (t.kind, t.lexeme))
    (hl : ∀ p ∈ (wordLines tokens).zip (wordLines tokens'), f.line p.1 p.2) (doc : List String) :
    f.Splits (attachDocs doc tokens) (attachDocs doc tokens') := by
  induction tokens generalizing tokens' doc with
  | nil =>
    cases tokens' with
    | nil => exact .done hf
    | cons => simp at h
  | cons t tokens ih =>
    cases tokens' with
    | nil => simp at h
    | cons t' tokens' =>
      obtain ⟨⟨hk, ht⟩, h⟩ : (t.kind = t'.kind ∧ t.lexeme = t'.lexeme) ∧ _ := by simpa using h
      rw [attachDocs, attachDocs, ← hk]
      split
      next text hdoc =>
        refine ih h (fun p hp => hl p ?_) _
        simpa [wordLines, ← hk, hdoc, Token.Kind.isDoc] using hp
      next hplain =>
        have hisDoc : t.kind.isDoc = false := Token.Kind.isDoc_eq_false hplain
        have hzip : (wordLines (t :: tokens)).zip (wordLines (t' :: tokens')) =
            (t.line, t'.line) :: (wordLines tokens).zip (wordLines tokens') := by
          simp [wordLines, ← hk, hisDoc]
        rw [hzip] at hl
        refine .word ⟨hk, ht, hl (t.line, t'.line) (by simp), fun _ => hname _, by simp [hplaced]⟩ rfl (fun _ => hf)
          (fun _ => hf) (ih h (fun p hp => hl p ?_) _)
        exact .tail _ hp

/-- The lines of the words correspond, and are in the same order. -/
theorem Relaid.splits (h : Relaid tokens tokens') (origin : Nat) :
    (Fork.layouts (fun a b => (a, b) ∈ (wordLines tokens).zip (wordLines tokens'))
      (fun ha hb => lt_iff_of_mem_zip h.forward h.forward' h.starts ha hb) (fun _ => True) origin).Splits
      (attachDocs [] tokens) (attachDocs [] tokens') :=
  splits_attachDocs (by exact rfl) rfl (fun _ => trivial) h.same (fun _ hp => hp) []

/-- Lists with the same tokens and the same starts of lines are parsed to the same tree, but
    for the places of its nodes, with the same reports, but for their places. On the way the same
    nodes are made, and the same become parents of others, also those that are not in the tree. -/
theorem parse_of_relaid {tokens tokens' : List Token} (h : Relaid tokens tokens') :
    (parse tokens).1.root.unplaced = (parse tokens').1.root.unplaced ∧
      (parse tokens).1.arena.map Slot.unplaced = (parse tokens').1.arena.map Slot.unplaced ∧
      (parse tokens).2.map Diagnostic.said = (parse tokens').2.map Diagnostic.said := by
  rcases parse_layouts (h.splits _) with ⟨e', he'⟩ | ⟨-, hroot, -, hrest⟩
  · -- then the first run has a fault, too
    rcases parse_layouts (h.symm.splits _) with ⟨e, he⟩ | ⟨hno, -⟩
    · simp [parse, he, he']
    · exact absurd he' (hno e')
  · exact ⟨hroot, hrest⟩

/-- A method with a doc line, an assignment of nothing, and a name with a parenthesis below it. -/
def closeTokens : List Token :=
  [.word .kwMethod 1 1, .name "a" 1 9, ⟨.dot, ".", 1, 10⟩, .name "b" 1 11,
    ⟨.docComment "note", "## note", 2, 1⟩,
    .name "x" 3 1, ⟨.chevron, "<<", 3, 3⟩, ⟨.rightParen, ")", 3, 6⟩,
    .name "f" 4 1,
    ⟨.leftParen, "(", 5, 1⟩, ⟨.integer 1, "1", 5, 2⟩, ⟨.rightParen, ")", 5, 3⟩,
    .word .kwEndMethod 6 1,
    ⟨.endOfFile, "", 7, 1⟩]

/-- The same with empty lines, other columns, and the doc line beside the head. -/
def wideTokens : List Token :=
  [.word .kwMethod 3 1, .name "a" 3 12, ⟨.dot, ".", 3, 14⟩, .name "b" 3 16,
    ⟨.docComment "note", "## note", 3, 20⟩,
    .name "x" 5 5, ⟨.chevron, "<<", 5, 6⟩, ⟨.rightParen, ")", 5, 8⟩,
    .name "f" 6 5,
    ⟨.leftParen, "(", 10, 9⟩, ⟨.integer 1, "1", 10, 12⟩, ⟨.rightParen, ")", 10, 13⟩,
    .word .kwEndMethod 11 2,
    ⟨.endOfFile, "", 13, 4⟩]

theorem parse_wideTokens : Relaid closeTokens wideTokens ∧
    (parse closeTokens).1.root.unplaced = (parse wideTokens).1.root.unplaced ∧
      (parse closeTokens).1.arena.map Slot.unplaced = (parse wideTokens).1.arena.map Slot.unplaced ∧
      (parse closeTokens).2.map Diagnostic.said = (parse wideTokens).2.map Diagnostic.said := by
  have hr : Relaid closeTokens wideTokens := ⟨by decide, by decide, by decide, by decide⟩
  exact ⟨hr, parse_of_relaid hr⟩

end Grammar

end Magik
