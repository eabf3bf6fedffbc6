/-
  Magik.Proofs.Grammar.Totality — reading a file never gets stuck.

  Every list of tokens that ends once is read to its end: no parser looks past the list,
  goes round without moving, or reads an inner expression where it stands; these are the
  faults, and a run has none. Sources are scanned into such lists (`endsOnce_of_scan`).
-/

import Magik.Proofs.Grammar.Tracing
import Magik.Token.Lexer

namespace Magik.Grammar

variable {tokens : List Token} {rest : List Char} {n : Nat} {first : Char} {place : Token.Position} {text : List Char}

/-! ## Lists that end -/

/-- The last token is the end of the file, and no token before it is. -/
def EndsOnce (tokens : List Token) : Prop :=
  ∃ ts e, tokens = ts ++ [e] ∧ e.kind = .endOfFile ∧ ∀ t ∈ ts, t.kind ≠ .endOfFile

theorem attachDocs_sublist (lines : List String) (tokens : List Token) :
    ((attachDocs lines tokens).map Word.token).Sublist tokens := by
  induction tokens generalizing lines with
  | nil => exact .slnil
  | cons t tokens ih =>
    rw [attachDocs]
    split
    · exact (ih _).cons t
    · exact (ih _).cons_cons t

/-- Attaching the doc lines keeps the end where it is. -/
theorem closes_attachDocs (lines : List String) {ts : List Token} {e : Token} (he : e.kind = .endOfFile)
    (hts : ∀ t ∈ ts, t.kind ≠ .endOfFile) : ∃ last : Word, last.token = e ∧ Closes last (attachDocs lines (ts ++ [e])) := by
  induction ts generalizing lines with
  | nil => exact ⟨⟨e, lines⟩, rfl, by simpa [attachDocs, he] using Closes.last he⟩
  | cons t ts ih =>
    have ht := hts t (by simp)
    have ih lines := ih lines fun u hu => hts u (.tail _ hu)
    rw [List.cons_append, attachDocs]
    split
    · exact ih _
    · obtain ⟨last, hl, hc⟩ := ih []
      exact ⟨last, hl, .more ht hc⟩

theorem EndsOnce.closes_start (h : EndsOnce tokens) :
    ∃ last : Word, tokens.getLast? = some last.token ∧ Closes last (State.start tokens).rest := by
  obtain ⟨ts, e, rfl, he, hts⟩ := h
  obtain ⟨last, rfl, hc⟩ := closes_attachDocs [] he hts
  exact ⟨last, by simp, hc⟩

/-! ## What the scanner emits -/

theorem scanAugmented_cases {plain augmented kind : Token.Kind}
    (h : Token.scanAugmented plain augmented rest = .ok (kind, n)) : kind = plain ∨ kind = augmented := by
  unfold Token.scanAugmented at h
  split at h
  · exact .inr (by cases h; rfl)
  · exact .inl (by cases h; rfl)

/-- What can be told of the kind of a token by its first character. -/
structure Emitted (first : Char) (kind : Token.Kind) : Prop where
  notEnd : kind ≠ .endOfFile
  integer : ∀ v, kind = .integer v → v ≤ Token.largestInteger
  identifier : kind = .identifier → (Text.isLetter first || first = '!') = true

theorem emitted_scanNumber {kind : Token.Kind} (h : Token.scanNumber first rest = .ok (kind, n)) :
    Emitted first kind := by
  unfold Token.scanNumber Token.scanDecimal Token.scanRadix at h
  constructor <;> grind

theorem emitted_scanToken {kind : Token.Kind} (h : Token.scanToken first rest = .ok (kind, n)) : Emitted first kind := by
  unfold Token.scanToken Token.scanString Token.scanSymbol Token.scanCharacter Token.scanKeyword
    Token.scanIdentifier at h
  split at h
  case h_25 =>
    split at h
    · exact emitted_scanNumber h
    · constructor <;> grind
  all_goals constructor <;> grind [scanAugmented_cases]

theorem exists_of_map_cons {E : Type} {t : Token} {next : Except E (List Token)} (h : next.map (t :: ·) = .ok tokens) :
    ∃ ts, next = .ok ts ∧ tokens = t :: ts := by
  cases next with
  | error => cases h
  | ok ts =>
    cases h
    exact ⟨ts, rfl, rfl⟩

/-- The tokens of a text, its end aside: doc comments, and what starts with another character. -/
inductive Scanned : Token → Prop
  | docComment {words : List Char} {line column : Nat} (hmark : words.head? = some '#')
      (hline : ∀ c ∈ words, Token.isLineEnd c = false) :
      Scanned ⟨.docComment (Token.commentText ('#' :: words)), String.ofList ('#' :: words), line, column⟩
  | other {c : Char} {rest : List Char} {kind : Token.Kind} {n line column : Nat} (hgap : Token.isGap c ≠ true)
      (hmark : c ≠ '#') (h : Token.scanToken c rest = .ok (kind, n)) :
      Scanned ⟨kind, String.ofList (c :: rest.take n), line, column⟩

theorem scanned_of_scanFrom (h : Token.scanFrom place text = .ok tokens) :
    ∃ ts line column, tokens = ts ++ [⟨.endOfFile, "", line, column⟩] ∧ ∀ t ∈ ts, Scanned t := by
  fun_induction Token.scanFrom place text generalizing tokens with
  | case1 place =>
    cases h
    exact ⟨[], _, _, rfl, by simp⟩
  | case2 place c rest hc ih => exact ih h
  | case3 place rest words next hm =>
    rename_i ih
    have hhead : (rest.takeWhile fun d => !Token.isLineEnd d).head? = some '#' := by
      cases rest with
      | nil => cases hm
      | cons d rest =>
        cases hm
        rfl
    obtain ⟨_, hts, rfl⟩ := exists_of_map_cons h
    obtain ⟨ts, line, column, rfl, hscanned⟩ := ih hts
    refine ⟨_ :: ts, line, column, rfl, List.forall_mem_cons.mpr ⟨.docComment hhead fun c hc => ?_, hscanned⟩⟩
    simpa using List.all_eq_true.mp List.all_takeWhile c hc
  | case4 place rest =>
    rename_i ih
    exact ih h
  | case5 place c rest hg hc problem hp => cases h
  | case6 place c rest hg hc kind n hk =>
    rename_i ih
    obtain ⟨_, hts, rfl⟩ := exists_of_map_cons h
    obtain ⟨ts, line, column, rfl, hscanned⟩ := ih hts
    exact ⟨_ :: ts, line, column, rfl, List.forall_mem_cons.mpr ⟨.other hg hc hk, hscanned⟩⟩

/-- What holds of the end, of doc comments and of all that is scanned holds of each token. -/
theorem forall_of_scanFrom {P : Token → Prop} (hend : ∀ line column, P ⟨.endOfFile, "", line, column⟩)
    (hdoc : ∀ text lexeme line column, P ⟨.docComment text, lexeme, line, column⟩)
    (htoken : ∀ first rest kind n line column, Token.scanToken first rest = .ok (kind, n) →
      P ⟨kind, String.ofList (first :: rest.take n), line, column⟩)
    (h : Token.scanFrom place text = .ok tokens) : ∀ t ∈ tokens, P t := by
  obtain ⟨ts, line, column, rfl, hts⟩ := scanned_of_scanFrom h
  refine List.forall_mem_append.mpr ⟨fun t ht => ?_, by simpa using hend _ _⟩
  cases hts t ht with
  | docComment => exact hdoc _ _ _ _
  | other _ _ h => exact htoken _ _ _ _ _ _ h

theorem endsOnce_of_scan {source : String} (h : Token.scan source = .ok tokens) : EndsOnce tokens := by
  obtain ⟨ts, line, column, rfl, hts⟩ := scanned_of_scanFrom h
  refine ⟨ts, _, rfl, rfl, fun t ht => ?_⟩
  cases hts t ht with
  | docComment => simp
  | other _ _ h => exact (emitted_scanToken h).notEnd

/-! ## Never giving up -/

/-- A parser that does not give up from any state. -/
def Steady {α : Type} (p : Parse α) : Prop := ∀ s s', p s ≠ .gaveUp s'

namespace Steady

variable {α β σ : Type} {p : Parse α}

theorem pure (a : α) : Steady (Pure.pure a) := by
  intro s s'
  simp [Parse.pure_apply]

theorem bind {f : α → Parse β} (hp : Steady p) (hf : ∀ a, Steady (f a)) : Steady (p >>= f) := by
  intro s s'
  rw [Parse.bind_apply]
  cases hr : p s with
  | found a t => exact hf a t s'
  | gaveUp t => exact absurd hr (hp s t)
  | fault f => simp

theorem ite {c : Prop} [Decidable c] {q : Parse α} (hp : Steady p) (hq : Steady q) : Steady (if c then p else q) := by
  split
  · exact hp
  · exact hq

theorem attempt (p : Parse α) : Steady (Parse.attempt p) := by
  intro s s'
  unfold Parse.attempt
  cases p s <;> simp

theorem loop {round : σ → Parse (Parse.Round σ α)} (h : ∀ x, Steady (round x)) (x : σ) :
    Steady (Parse.loop round x) := by
  intro s s'
  fun_induction Parse.loop round x s with
  | case1 x s y t hr hl ih => exact ih
  | case2 | case3 | case5 => simp
  | case4 x s t hr => exact absurd hr (h x s t)

theorem current : Steady Parse.current := by
  intro s s'
  unfold Parse.current
  split <;> simp

theorem kind : Steady Parse.kind := current.bind fun _ => pure _

theorem remaining : Steady Parse.remaining := by
  intro s s'
  simp [Parse.remaining]

theorem upcoming : Steady Parse.upcoming := by
  intro s s'
  unfold Parse.upcoming
  split
  · simp
  · split <;> simp

theorem advance : Steady Parse.advance := by
  intro s s'
  unfold Parse.advance
  split
  · simp
  · split <;> simp

theorem skip (n : Nat) : Steady (Parse.skip n) := by
  induction n with
  | zero => exact pure ()
  | succ n ih => exact advance.bind fun _ => ih

theorem node (kind : Node.Kind) (span : Span) (children : List Node) : Steady (Parse.node kind span children) := by
  intro s s'
  simp [Parse.node]

theorem nodeFrom (kind : Node.Kind) (start : Span) (children : List Node) :
    Steady (Parse.nodeFrom kind start children) := by
  intro s s'
  simp [Parse.nodeFrom, Parse.previousSpan, Parse.previous, Parse.node, Parse.bind_apply, Parse.pure_apply]

theorem syntaxError (start : List Word) : Steady (Parse.syntaxError start) := by
  unfold Parse.syntaxError
  split
  · intro s s'
    simp
  · exact remaining.bind fun _ => ite (nodeFrom _ _ _) (node _ _ _)

/-- Recovery always ends somewhere. -/
theorem skipItem (start : List Word) : Steady (Parse.skipItem start) := by
  refine (remaining.bind fun _ => ite (skip 1) (pure _)).bind fun _ => ?_
  exact (loop (fun _ => kind.bind fun _ => ite (pure _) ((skip 1).bind fun _ => pure _)) ()).bind fun _ => syntaxError _

theorem addItem (items : List Node) : Steady (Parse.addItem items) := by
  refine upcoming.bind fun start => (attempt _).bind fun item => ?_
  split
  · exact pure _
  · exact pure _
  · exact (skipItem start).bind fun _ => pure _

theorem fileRound (items : List Node) : Steady (Parse.fileRound items) :=
  kind.bind fun _ => ite (pure _) (ite ((skip 1).bind fun _ => pure _) ((addItem items).bind fun _ => pure _))

theorem file : Steady Parse.file := (loop fileRound []).bind fun _ => node _ _ _

end Steady

/-! ## Moving on -/

/-- The second state is further on in the same list. -/
def Further (s s' : State) : Prop := ∃ passed, passed ≠ [] ∧ s.rest = passed ++ s'.rest

/-- From the state the parser has no fault, and what it finds is further on. -/
def MovesOn {α : Type} (p : Parse α) (s : State) : Prop :=
  (∀ f, p s ≠ .fault f) ∧ ∀ a s', p s = .found a s' → Further s s'

/-- From the state the round has no fault, and another round begins further on. -/
def RoundMovesOn {σ α : Type} (round : Parse (Parse.Round σ α)) (s : State) : Prop :=
  (∀ f, round s ≠ .fault f) ∧ ∀ x s', round s = .found (.again x) s' → Further s s'

theorem Onward.further {s s' : State} (h : Onward s s') (hl : s'.rest.length < s.rest.length) : Further s s' := by
  obtain ⟨passed, hr, -⟩ := h
  refine ⟨passed, ?_, hr⟩
  rintro rfl
  simp [hr] at hl

namespace Leaves

variable {α σ : Type} {e : Word} {s : State} {Q : α → State → Prop} {p : Parse α}

theorem ne_fault (h : Leaves s (s.rest.length + 1) p s Q) (hs : Closes e s.rest) (f : Fault) : p s ≠ .fault f := by
  intro hf
  have h := h .refl
  simp only [hf] at h
  exact Nat.not_succ_le_self _ (h ⟨e, hs⟩)

theorem movesOn (h : Leaves s (s.rest.length + 1) p s Q) (hs : Closes e s.rest)
    (hQ : ∀ a t, Q a t → t.rest.length < s.rest.length) : MovesOn p s := by
  refine ⟨h.ne_fault hs, fun a t hp => ?_⟩
  have h := h .refl
  simp only [hp] at h
  exact h.1.onward.further (hQ a t h.2.2)

theorem roundMovesOn {round : Parse (Parse.Round σ α)} {Inv : σ → State → Prop}
    (h : Leaves s (s.rest.length + 1) round s (RoundLeaves Inv Q s)) (hs : Closes e s.rest) : RoundMovesOn round s := by
  refine ⟨h.ne_fault hs, fun x t hr => ?_⟩
  have h := h .refl
  simp only [hr] at h
  exact h.1.onward.further h.2.2.2

end Leaves

theorem Closes.of_suffix {e : Word} {ws rest : List Word} (h : Closes e ws) (hr : rest <:+ ws) (hne : rest ≠ []) :
    Closes e rest := by
  induction h with
  | last he =>
    rcases List.suffix_cons_iff.mp hr with rfl | hr
    · exact .last he
    · exact absurd (List.suffix_nil.mp hr) hne
  | more hw hc ih =>
    rcases List.suffix_cons_iff.mp hr with rfl | hr
    · exact .more hw hc
    · exact ih hr

theorem file_found (h : EndsOnce tokens) :
    ∃ root s last, Parse.file (.start tokens) = .found root s ∧ s.rest = [last] ∧ tokens.getLast? = some last.token := by
  obtain ⟨last, hlast, hc⟩ := h.closes_start
  have hread : Leaves _ ((State.start tokens).rest.length + 1) Parse.fileItems (.start tokens) _ := Leaves.fileItems
  cases hr : Parse.fileItems (.start tokens) with
  | found items t =>
    have hread := hread .refl
    simp only [hr] at hread
    obtain ⟨htrace, -, -, w, ws, hrest, hw⟩ := hread
    obtain ⟨rfl, rfl⟩ := (hrest ▸ htrace.onward.closes hc).eq_last hw
    exact ⟨_, t.give .file (Span.nowhere.around (items.map Node.span)) items, w,
      Parse.bind_found hr, hrest, hlast⟩
  | gaveUp t => exact absurd (by simp [Parse.file, Parse.bind_apply, hr]) (Steady.file (.start tokens) t)
  | fault f => exact absurd hr (hread.ne_fault hc f)

/-- Each list of tokens that ends once, and that is each list the scanner emits, is read
    without a fault, up to its last token. Wherever the cursor stands in such a list, each
    round that is followed by another moves it, and so does each statement or expression. -/
theorem parse_total :
    (∀ source tokens, Token.scan source = .ok tokens → EndsOnce tokens) ∧
      ∀ tokens, EndsOnce tokens →
        (∃ root s last, Parse.file (.start tokens) = .found root s ∧ parse tokens = (⟨root, s.arena⟩, s.diagnostics) ∧
          s.rest = [last] ∧ tokens.getLast? = some last.token) ∧
        ∀ s : State, s.rest <:+ (State.start tokens).rest → s.rest ≠ [] →
          (∀ items, RoundMovesOn (Parse.fileRound items) s) ∧
          (∀ statements, RoundMovesOn (Parse.bodyRound Parse.expression statements) s) ∧
          (∀ place, RoundMovesOn (Parse.statementRound place) s) ∧
          RoundMovesOn (Parse.itemRound ()) s ∧
          MovesOn (Parse.statement Parse.expression) s ∧
          ∀ precedence, MovesOn (Parse.expression precedence) s := by
  refine ⟨fun _ _ => endsOnce_of_scan, fun tokens h => ?_⟩
  constructor
  · obtain ⟨root, s, last, hr, hs, hlast⟩ := file_found h
    exact ⟨root, s, last, hr, by simp [parse, hr], hs, hlast⟩
  · intro s hs hne
    obtain ⟨last, -, hc⟩ := h.closes_start
    have hs := hc.of_suffix hs hne
    exact ⟨fun _ => Leaves.fileRound.roundMovesOn hs,
      fun _ => (Leaves.bodyRound Leaves.reads_expression none).roundMovesOn hs,
      fun place => (Leaves.statementRound place).roundMovesOn hs, Leaves.itemRound.roundMovesOn hs,
      (Leaves.statement Leaves.reads_expression none).movesOn hs fun _ _ h => h.moved,
      fun precedence => (Leaves.reads_expression precedence s none).movesOn hs fun _ _ h => h.moved⟩

/-- A method that breaks off in its parameters, a stray keyword, and the end. -/
theorem parse_total_broken_method :
    let tokens : List Token := [.word .kwMethod 1 1, .name "a" 1 9, ⟨.dot, ".", 1, 10⟩,
      .name "b" 1 11, ⟨.leftParen, "(", 1, 12⟩, .word .kwEndIf 2 1, ⟨.endOfFile, "", 3, 1⟩]
    EndsOnce tokens ∧ ∃ root s last, Parse.file (.start tokens) = .found root s ∧
      parse tokens = (⟨root, s.arena⟩, s.diagnostics) ∧ s.rest = [last] ∧ tokens.getLast? = some last.token := by
  intro tokens
  have h : EndsOnce tokens := ⟨tokens.dropLast, ⟨.endOfFile, "", 3, 1⟩, rfl, rfl, by decide⟩
  exact ⟨h, (parse_total.2 tokens h).1⟩

end Magik.Grammar
