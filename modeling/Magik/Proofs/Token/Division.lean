/-
  Magik.Proofs.Token.Division — a source is the texts of its tokens and the gaps between
  them.

  `Divided` follows the scan through a text: a gap, the text of a token, and so on up to a
  last gap. Where a token stands can be read off the text in front of it (`lineAfter`,
  `columnAfter`); the scan keeps count instead, and comes to the same (`after_place`).
-/

import Mathlib.Control.Monad.Basic
import Magik.Proofs.Grammar.Totality

namespace Magik.Token

variable {tokens : List Token} {before : List Char}

/-! ## Places -/

/-- The line of what comes after a text. -/
def lineAfter (text : List Char) : Nat := 1 + text.count '\n'

/-- The column of what comes after a text: carriage returns take none. -/
def columnAfter (text : List Char) : Nat := 1 + (text.reverse.takeWhile (· ≠ '\n')).countP (· ≠ '\r')

def placeAfter (text : List Char) : Position := ⟨lineAfter text, columnAfter text⟩

theorem advance_place (text : List Char) (c : Char) : (placeAfter text).advance c = placeAfter (text ++ [c]) := by
  unfold placeAfter Position.advance lineAfter columnAfter
  rw [List.count_append, List.count_singleton, List.reverse_append, List.reverse_singleton, List.singleton_append]
  by_cases hn : c = '\n'
  · simp [hn, Nat.add_assoc]
  · by_cases hr : c = '\r'
    · simp [hr]
    · simp [hn, hr, Nat.add_assoc]

theorem after_place (before text : List Char) : (placeAfter before).after text = placeAfter (before ++ text) := by
  induction text generalizing before with
  | nil => simp [Position.after]
  | cons c text ih =>
    have ih := ih (before ++ [c])
    rw [← advance_place, List.append_assoc, List.singleton_append] at ih
    exact ih

/-! ## Gaps -/

/-- A text that can stand in front of another without being part of a token: blanks, and
    comments with one mark, each up to where its line ends. -/
inductive Gap : List Char → List Char → Prop
  | nil {next : List Char} : Gap [] next
  | blank {c : Char} {gap next : List Char} (hc : c = ' ' ∨ c = '\t' ∨ c = '\r' ∨ c = '\n') (h : Gap gap next) :
      Gap (c :: gap) next
  | comment {text gap next : List Char} (hmark : text.head? ≠ some '#') (hline : ∀ c ∈ text, c ≠ '\r' ∧ c ≠ '\n')
      (hend : ∀ c ∈ (gap ++ next).head?, c = '\r' ∨ c = '\n') (h : Gap gap next) : Gap ('#' :: text ++ gap) next

theorem isGap_iff (c : Char) : isGap c = true ↔ c = ' ' ∨ c = '\t' ∨ c = '\r' ∨ c = '\n' := by
  simp [isGap, or_assoc]

theorem isLineEnd_iff (c : Char) : isLineEnd c = true ↔ c = '\r' ∨ c = '\n' := by
  simp [isLineEnd, or_comm]

/-! ## Divisions -/

/-- What comes after a text is divided into tokens, each after a gap. -/
inductive Divided : List Char → List Char → List Token → Prop
  | last {before gap : List Char} (h : Gap gap []) :
      Divided before gap [⟨.endOfFile, "", lineAfter (before ++ gap), columnAfter (before ++ gap)⟩]
  | token {before gap lexeme rest : List Char} {kind : Kind} {tokens : List Token} (hk : kind ≠ .endOfFile)
      (hne : lexeme ≠ []) (hg : Gap gap (lexeme ++ rest)) (h : Divided (before ++ gap ++ lexeme) rest tokens) :
      Divided before (gap ++ (lexeme ++ rest))
        (⟨kind, String.ofList lexeme, lineAfter (before ++ gap), columnAfter (before ++ gap)⟩ :: tokens)

namespace Divided

variable {before text : List Char} {tokens : List Token}

/-- A text that can be put in front of every gap here becomes part of the first one. -/
theorem prepend {front : List Char} (h : Divided (before ++ front) text tokens)
    (hf : ∀ gap next, gap ++ next = text → Gap gap next → Gap (front ++ gap) next) :
    Divided before (front ++ text) tokens := by
  generalize hb : before ++ front = before' at h
  cases h with
  | last hg =>
    subst hb
    rw [List.append_assoc]
    exact .last (hf text [] (by simp) hg)
  | token hk hne hg h =>
    subst hb
    rw [List.append_assoc before] at h ⊢
    rw [← List.append_assoc front]
    exact .token hk hne (hf _ _ rfl hg) h

theorem blank {c : Char} (hc : isGap c) (h : Divided (before ++ [c]) text tokens) : Divided before (c :: text) tokens :=
  h.prepend fun _ _ _ hg => .blank ((isGap_iff c).mp hc) hg

theorem comment {words : List Char} (hmark : words.head? ≠ some '#') (hline : ∀ c ∈ words, isLineEnd c = false)
    (hend : ∀ c ∈ text.head?, isLineEnd c = true) (h : Divided (before ++ '#' :: words) text tokens) :
    Divided before ('#' :: words ++ text) tokens := by
  refine prepend h fun gap next he hg => .comment hmark (fun c hc => ?_) (fun c hc => ?_) hg
  · simpa [isLineEnd, and_comm] using hline c hc
  · rw [he] at hc
    exact (isLineEnd_iff c).mp (hend c hc)

/-- A token right here, with no gap in front. -/
theorem now {kind : Kind} {lexeme rest : List Char} (hk : kind ≠ .endOfFile) (hne : lexeme ≠ [])
    (h : Divided (before ++ lexeme) rest tokens) :
    Divided before (lexeme ++ rest)
      (⟨kind, String.ofList lexeme, lineAfter before, columnAfter before⟩ :: tokens) := by
  have h' : Divided (before ++ [] ++ lexeme) rest tokens := by rwa [List.append_nil]
  simpa using token hk hne .nil h'

end Divided

/-- The first character of a text where a run of others has been dropped. -/
theorem head?_dropWhile_isLineEnd (text : List Char) :
    ∀ c ∈ (text.dropWhile fun d => !isLineEnd d).head?, isLineEnd c = true := by
  intro c hc
  have h := List.head?_dropWhile_not (fun d => !isLineEnd d) text
  rw [Option.mem_def.mp hc] at h
  simpa using h

theorem head?_takeWhile_ne {p : Char → Bool} {text : List Char} {c : Char} (h : text.head? ≠ some c) :
    (text.takeWhile p).head? ≠ some c := by
  cases text with
  | nil => simp
  | cons d text =>
    rw [List.takeWhile_cons]
    split
    · exact h
    · simp

/-- The scan divides what is left of a text, if it goes through. -/
theorem divided_scanFrom {text : List Char} (h : scanFrom (placeAfter before) text = .ok tokens) :
    Divided before text tokens := by
  generalize hp : placeAfter before = place at h
  fun_induction scanFrom place text generalizing before tokens with
  | case1 place =>
    subst hp
    cases h
    have hend : Divided before [] [⟨.endOfFile, "", lineAfter (before ++ []), columnAfter (before ++ [])⟩] := .last .nil
    rwa [List.append_nil] at hend
  | case2 place c rest hc ih =>
    subst hp
    exact .blank hc (ih (advance_place before c).symm h)
  | case3 place rest words next =>
    rename_i ih
    subst hp
    obtain ⟨ts, hts, rfl⟩ := Grammar.exists_of_map_cons h
    have hkind : Kind.docComment (commentText words) ≠ .endOfFile := by simp
    have hd := Divided.now hkind (by simp [words]) (ih (after_place before words).symm hts)
    rwa [List.cons_append, List.takeWhile_append_dropWhile] at hd
  | case4 place rest words next hm =>
    rename_i ih
    subst hp
    have hline : ∀ c ∈ rest.takeWhile fun d => !isLineEnd d, isLineEnd c = false := fun c hc => by
      simpa using List.all_eq_true.mp List.all_takeWhile c hc
    have hd := Divided.comment (head?_takeWhile_ne hm) hline
      (head?_dropWhile_isLineEnd rest) (ih (after_place before words).symm h)
    rwa [List.cons_append, List.takeWhile_append_dropWhile] at hd
  | case5 place c rest hg hc problem hp => cases h
  | case6 place c rest hg hc kind n hk lexeme =>
    rename_i ih
    subst hp
    obtain ⟨ts, hts, rfl⟩ := Grammar.exists_of_map_cons h
    have hd := Divided.now (Grammar.emitted_scanToken hk).notEnd (by simp [lexeme]) (ih (after_place before lexeme).symm hts)
    rwa [List.cons_append, List.take_append_drop] at hd

/-! ## Pieces -/

/-- A token and the gap in front of it. -/
structure Piece where
  gap : List Char
  token : Token

def Piece.text (p : Piece) : List Char := p.gap ++ p.token.lexeme.toList

/-- The text that pieces make up. -/
def textOf (pieces : List Piece) : List Char := pieces.flatMap Piece.text

/-- The piece stands between two texts: its gap is one in front of what follows, and its
    token says where it begins. -/
structure Piece.Stands (p : Piece) (before after : List Char) : Prop where
  kind : p.token.kind ≠ .endOfFile
  lexeme : p.token.lexeme ≠ ""
  gap : Gap p.gap (p.token.lexeme.toList ++ after)
  line : p.token.line = lineAfter (before ++ p.gap)
  column : p.token.column = columnAfter (before ++ p.gap)

theorem Divided.exists_pieces {text : List Char} (h : Divided before text tokens) :
    ∃ pieces last, text = textOf pieces ++ last ∧ Gap last [] ∧
      tokens = pieces.map Piece.token ++ [⟨.endOfFile, "", lineAfter (before ++ text), columnAfter (before ++ text)⟩] ∧
      ∀ left p right, pieces = left ++ p :: right → p.Stands (before ++ textOf left) (textOf right ++ last) := by
  induction h with
  | @last before gap hg => exact ⟨[], gap, rfl, hg, rfl, by simp⟩
  | @token before gap lexeme rest kind tokens hk hne hg h ih =>
    obtain ⟨pieces, last, rfl, hlast, rfl, hstands⟩ := ih
    refine ⟨⟨gap, ⟨kind, String.ofList lexeme, lineAfter (before ++ gap), columnAfter (before ++ gap)⟩⟩ :: pieces, last,
      by simp [textOf, Piece.text], hlast, by simp, fun left p right he => ?_⟩
    cases left with
    | nil =>
      obtain ⟨rfl, rfl⟩ := List.cons.inj he
      exact ⟨hk, by simpa using hne, by simpa using hg, by simp [textOf], by simp [textOf]⟩
    | cons q left =>
      obtain ⟨rfl, rfl⟩ := List.cons.inj he
      have hs := hstands left p right rfl
      simpa [textOf, Piece.text] using hs

/-- A source that can be scanned is the texts of its tokens in order, with gaps before,
    between and after them. Each token tells the line and the column it begins at, counted
    over the text in front of it, and the end of the file those of the end of the text. -/
theorem scan_divides_source {source : String} {tokens : List Token} (h : scan source = .ok tokens) :
    ∃ pieces last, source.toList = textOf pieces ++ last ∧ Gap last [] ∧
      tokens = pieces.map Piece.token ++ [⟨.endOfFile, "", lineAfter source.toList, columnAfter source.toList⟩] ∧
      ∀ left p right, pieces = left ++ p :: right → p.Stands (textOf left) (textOf right ++ last) :=
  (show Divided [] source.toList tokens from divided_scanFrom h).exists_pieces

/-- A comment, a carriage return, a line feed that is a token's own, and a doc comment. -/
def mixedSource : String := "a # b\r\n\t%\n ##c"

def mixedTokens : List Token :=
  [⟨.identifier, "a", 1, 1⟩, ⟨.character '\n', "%\n", 2, 2⟩, ⟨.docComment "c", "##c", 3, 2⟩, ⟨.endOfFile, "", 3, 5⟩]

theorem scan_divides_mixed_source :
    scan mixedSource = .ok mixedTokens ∧
      ∃ pieces last, mixedSource.toList = textOf pieces ++ last ∧ Gap last [] ∧
        mixedTokens = pieces.map Piece.token ++
          [⟨.endOfFile, "", lineAfter mixedSource.toList, columnAfter mixedSource.toList⟩] ∧
        ∀ left p right, pieces = left ++ p :: right → p.Stands (textOf left) (textOf right ++ last) := by
  have hscan : scan mixedSource = .ok mixedTokens := by decide +kernel
  exact ⟨hscan, scan_divides_source hscan⟩

end Magik.Token
