/-
  Magik.Proofs.Grammar.Isolation — a `$` divides a file into parts that are read apart.

  Whatever is wrong before a `$` is over there: what comes after it is read as if the file
  began with it, and what comes before as if the file ended. The first part is read
  abreast with itself as a file of its own, up to the `$`; after the `$`, the second.
-/

import Magik.Proofs.Grammar.Lockstep
import Magik.Proofs.Grammar.Totality

namespace Magik.Grammar

open Agree (Behind Rounds)

variable {s : State} {items : List Node} {t : State} {items' : List Node} {w : Word} {ws : List Word} {f : Fork}
  {stop : Token}

/-! ## Rounds -/

theorem bind_again_ne_done {α σ τ : Type} {p : Parse α} {g : α → σ} {y : τ} :
    (p >>= fun x => pure (Parse.Round.again (g x))) s ≠ .found (.done y) t := by
  rw [Parse.bind_apply]
  cases p s <;> simp [Parse.pure_apply]

/-- A round is the last only at the end of the file. -/
theorem fileRound_eq_done (hr : s.rest = w :: ws) (h : Parse.fileRound items s = .found (.done items') t) :
    w.token.kind = .endOfFile := by
  refine Classical.byContradiction fun he => ?_
  simp only [Parse.fileRound, Parse.kind, Parse.current, hr, Parse.bind_apply,
    Parse.pure_apply, he, if_false] at h
  split at h
  · exact bind_again_ne_done h
  · exact bind_again_ne_done h

theorem loop_fileRound_at_end (h : s.rest = w :: ws) (hw : w.token.kind = .endOfFile) :
    Parse.loop Parse.fileRound items s = .found items s := by
  rw [Parse.loop]
  simp [Parse.fileRound, Parse.bind_apply, Parse.kind, Parse.current, Parse.pure_apply, h, hw]

theorem loop_fileRound_at_dollar (h : s.rest = w :: ws) (hw : w.token.kind = .dollar) :
    Parse.loop Parse.fileRound items s =
      Parse.loop Parse.fileRound items { s with previous := some w.token, rest := ws } := by
  conv => lhs; rw [Parse.loop]
  simp [Parse.fileRound, Parse.bind_apply, Parse.kind, Parse.current, Parse.pure_apply, h, hw, Parse.skip, Parse.advance]

/-- What the second run finds when it ends, the first has found too, and goes on from there. -/
theorem loop_fileRound_abreast {found : List Node} {s₁ s₂ t₂ : State} (before : List Node) (hs : Abreast f s₁ s₂)
    (hi : Behind f before items items') (h : Parse.loop Parse.fileRound items' s₂ = .found found t₂) :
    ∃ found' t₁ w ws, Behind f before found' found ∧ Abreast f t₁ t₂ ∧ t₂.rest = w :: ws ∧ w.token.kind = .endOfFile ∧
      Parse.loop Parse.fileRound items s₁ = Parse.loop Parse.fileRound found' t₁ := by
  -- on what is left to the second run
  induction hn : s₂.rest.length using Nat.strongRecOn generalizing items items' s₁ s₂ with
  | _ n ih =>
    rcases hs.rest.cases with ⟨-, -, hr⟩ | ⟨_, w, _, ws, _, hr, _⟩
    · rw [Parse.loop] at h
      simp [Parse.fileRound, Parse.bind_apply, Parse.kind, Parse.current, hr] at h
    by_cases hw : w.token.kind = .endOfFile
    · rw [loop_fileRound_at_end hr hw] at h
      cases h
      exact ⟨items, s₁, w, ws, hi, hs, hr, hw, rfl⟩
    · have hround := Agree.fileRound hs (fun v r hv he => by cases hr.symm.trans hv; exact absurd he hw) hi
      unfold AgreeAt at hround
      rw [Parse.loop] at h ⊢
      cases h₂ : Parse.fileRound items' s₂ with
      | gaveUp t => simp [h₂] at h
      | fault e => simp [h₂] at h
      | found r₂ u₂ =>
        cases h₁ : Parse.fileRound items s₁ with
        | gaveUp t | fault e => simp [h₁, h₂] at hround
        | found r₁ u₁ =>
          simp only [h₁, h₂] at hround h ⊢
          obtain ⟨ha, hr'⟩ := hround
          cases r₂ with
          | done _ => exact absurd (fileRound_eq_done hr h₂) hw
          | again y =>
            cases r₁ with
            | done _ => exact hr'.elim
            | again x =>
              have hl₁ := hs.rest.length
              have hl₂ := ha.abreast.rest.length
              by_cases hl : u₂.rest.length < s₂.rest.length
              · have hl' : u₁.rest.length < s₁.rest.length := by omega
                simp only [hl, hl', if_true] at h ⊢
                exact ih u₂.rest.length (by omega) ha.abreast hr' h rfl
              · simp [hl] at h

/-- Items in the same places are the same, numbers aside. -/
theorem Twins.renumbered {ns ns' : List Node} (h : Twins f ns ns') (hp : f.placed = true) :
    ns.map (Node.renumber fun _ => 0) = ns'.map (Node.renumber fun _ => 0) := by
  have hseen : f.seen = id := by
    funext n
    simp [Fork.seen, hp]
  have he : ns = ns'.map (Node.renumber (· + f.shift)) := by simpa [hseen] using h.seen
  rw [he, List.map_map]
  simp [Function.comp_def, Node.renumber_renumber]

/-! ## Files -/

/-- Doc lines are attached within a part: the word after it has those at the end of the
    part, and what follows that word has its own. -/
theorem attachDocs_append (lines : List String) (ts : List Token) :
    ∃ words after, (∀ w ∈ words, w.token ∈ ts) ∧ ∀ t rest, (∀ text, t.kind ≠ .docComment text) →
      attachDocs lines (ts ++ t :: rest) = words ++ ⟨t, after⟩ :: attachDocs [] rest := by
  induction ts generalizing lines with
  | nil =>
    refine ⟨[], lines, by simp, fun t rest ht => ?_⟩
    rw [List.nil_append, attachDocs]
    split
    · exact absurd ‹_› (ht _)
    · rfl
  | cons u ts ih =>
    by_cases hu : ∃ text, u.kind = .docComment text
    · obtain ⟨text, hu⟩ := hu
      obtain ⟨words, after, hw, h⟩ := ih (lines ++ [text])
      refine ⟨words, after, fun w hm => .tail _ (hw w hm), fun t rest ht => ?_⟩
      rw [List.cons_append, attachDocs]
      simp only [hu]
      exact h t rest ht
    · obtain ⟨words, after, hw, h⟩ := ih []
      refine ⟨⟨u, lines⟩ :: words, after, ?_, fun t rest ht => ?_⟩
      · rintro w hm
        rcases List.mem_cons.mp hm with rfl | hm
        · exact .head _
        · exact .tail _ (hw w hm)
      · rw [List.cons_append, attachDocs, h t rest ht]
        split
        · exact absurd ⟨_, ‹_›⟩ hu
        · rfl

theorem Fork.splits_append {words l₁ l₂ : List Word} (h : ∀ w ∈ words, f.SameToken w.token w.token ∧
      w.token.kind ≠ .endOfFile ∧ (w.token.kind = .keyword .kwPragma → f.Same)) (hl : f.Splits l₁ l₂) :
    f.Splits (words ++ l₁) (words ++ l₂) := by
  induction words with
  | nil => exact hl
  | cons w words ih =>
    obtain ⟨hw, he, hp⟩ := h w (.head _)
    exact .word hw rfl (fun hk => absurd hk he) hp (ih fun v hv => h v (.tail _ hv))

/-- A file that was read is its items. -/
theorem file_eq_found {root : Node} (h : Parse.file s = .found root t) :
    ∃ items u, Parse.loop Parse.fileRound [] s = .found items u ∧ root.kind = .file ∧ root.children = items ∧
      t = u.give .file (Span.nowhere.around (items.map Node.span)) items := by
  rw [Parse.file, Parse.bind_apply] at h
  cases hr : Parse.fileItems s with
  | gaveUp u => simp [hr] at h
  | fault e => simp [hr] at h
  | found items u =>
    simp only [hr, Parse.node] at h
    cases h
    exact ⟨items, u, hr, rfl, rfl, rfl⟩

/-- The items of a file, numbers aside. -/
def itemsOf (tokens : List Token) : List Node := (parse tokens).1.root.children.map (Node.renumber fun _ => 0)

/-- What is read of a list that ends once. -/
theorem EndsOnce.parse_eq {tokens : List Token} (h : EndsOnce tokens) :
    ∃ items u, Parse.loop Parse.fileRound [] (.start tokens) = .found items u ∧
      itemsOf tokens = items.map (Node.renumber fun _ => 0) ∧ (parse tokens).2 = u.diagnostics := by
  obtain ⟨root, s, last, hr, -⟩ := file_found h
  obtain ⟨items, u, hl, -, hc, hs⟩ := file_eq_found hr
  exact ⟨items, u, hl, by simp [itemsOf, parse, hr, hc], by simp [parse, hr, hs, State.give]⟩

theorem EndsOnce.append_end {ts : List Token} {e : Token} (hts : ∀ t ∈ ts, t.kind ≠ .endOfFile)
    (he : e.kind = .endOfFile) : EndsOnce (ts ++ [e]) :=
  ⟨ts, e, rfl, he, hts⟩

/-- What a run does up to a `$`: it reads the items of the part before as a file of its
    own, and goes on with those. -/
theorem loop_up_to_dollar {A : List Token} {dollar : Token} (rest : List Token) (hA : ∀ t ∈ A, t.kind ≠ .endOfFile)
    (hpragma : ∀ t ∈ A, t.kind ≠ .keyword .kwPragma) (hd : dollar.kind = .dollar) (hs : stop.kind = .endOfFile)
    (hline : stop.line = dollar.line) (hcolumn : stop.column = dollar.column) :
    ∃ items t, items.map (Node.renumber fun _ => 0) = itemsOf (A ++ [stop]) ∧
      t.diagnostics.length = (parse (A ++ [stop])).2.length ∧ t.rest = attachDocs [] rest ∧
      Parse.loop Parse.fileRound [] (.start (A ++ dollar :: rest)) = Parse.loop Parse.fileRound items t := by
  obtain ⟨words, after, hw, hdocs⟩ := attachDocs_append [] A
  let p : Parting := ⟨⟨dollar, after⟩, attachDocs [] rest, ⟨stop, after⟩, hd, hs, rfl, hline.symm, hcolumn.symm⟩
  let f : Fork :=
    { parting := some p, placed := true, line := Eq, name := fun _ => True, shift := 0, before := []
      origin := words.length + 1, lt_iff := by rintro _ _ _ _ rfl rfl; rfl
      parting_line := by rintro _ ⟨⟩; exact hline.symm }
  have h₁ : (State.start (A ++ dollar :: rest)).rest = words ++ p.stop :: p.more := hdocs _ _ (by simp [hd])
  have h₂ : (State.start (A ++ [stop])).rest = words ++ [p.last] := hdocs _ _ (by simp [hs])
  have hsplit : f.Splits (words ++ p.stop :: p.more) (words ++ [p.last]) :=
    Fork.splits_append (fun w hm => ⟨⟨rfl, rfl, rfl, fun _ => trivial, fun _ => rfl⟩, hA _ (hw w hm),
      fun hk => absurd hk (hpragma _ (hw w hm))⟩) (.part rfl)
  have hstart : Abreast f (.start (A ++ dollar :: rest)) (.start (A ++ [stop])) :=
    ⟨by rw [h₁, h₂]; exact hsplit, rfl, fun _ => rfl, ⟨[], rfl, .nil⟩, by simp [h₂, f], fun h => absurd h (by simp [h₂, f])⟩
  obtain ⟨found, u, hfound, hitems, hdiag⟩ := (EndsOnce.append_end hA hs).parse_eq
  obtain ⟨found', t, w, ws, ⟨ms, hf, hms⟩, ht, hr, he, hloop⟩ := loop_fileRound_abreast [] hstart ⟨[], rfl, .nil⟩ hfound
  have htr : t.rest = p.stop :: p.more := Fork.Splits.eq_last (hr ▸ ht.rest) rfl he
  refine ⟨found', { t with previous := some dollar, rest := attachDocs [] rest }, ?_, ?_, rfl, ?_⟩
  · rw [hitems, hf, List.nil_append, hms.renumbered rfl]
  · obtain ⟨new, hnew, hreports⟩ := ht.reported
    rw [hdiag, ← hreports.length_eq, hnew]
    simp [f]
  · exact hloop.trans (loop_fileRound_at_dollar htr hd)

/-- What a run does after a `$`: it reads the rest as a file of its own. -/
theorem loop_after_dollar {B : List Token} (items : List Node) (hB : ∀ t ∈ B, t.kind ≠ .endOfFile)
    (hs : stop.kind = .endOfFile) (hr : s.rest = attachDocs [] (B ++ [stop])) :
    ∃ items' t, items'.map (Node.renumber fun _ => 0) = itemsOf (B ++ [stop]) ∧
      t.diagnostics = s.diagnostics ++ (parse (B ++ [stop])).2 ∧
      Parse.loop Parse.fileRound items s = .found (items ++ items') t := by
  obtain ⟨words, after, hw, hdocs⟩ := attachDocs_append [] B
  let f : Fork :=
    { parting := none, placed := true, line := Eq, name := fun _ => True, shift := s.next, before := s.diagnostics
      origin := words.length + 1, lt_iff := by rintro _ _ _ _ rfl rfl; rfl, parting_line := by simp }
  have hword (w : Word) : f.SameToken w.token w.token := ⟨rfl, rfl, rfl, fun _ => trivial, fun _ => rfl⟩
  have h₂ : (State.start (B ++ [stop])).rest = words ++ [⟨stop, after⟩] := hdocs _ _ (by simp [hs])
  have hsplit : f.Splits (words ++ [⟨stop, after⟩]) (words ++ [⟨stop, after⟩]) :=
    Fork.splits_append (fun w hm => ⟨hword w, hB _ (hw w hm), fun _ => rfl⟩)
      (.word (hword _) rfl (fun _ => rfl) (fun _ => rfl) (.done rfl))
  have hstart : Abreast f s (.start (B ++ [stop])) :=
    ⟨by rw [hr, h₂, hdocs _ _ (by simp [hs])]; exact hsplit, by simp [State.start, State.next, f],
      by simp [State.start, State.next, f], ⟨[], by simp [f], .nil⟩,
      by simp [h₂, f], fun h => absurd h (by simp [h₂, f])⟩
  obtain ⟨found, u, hfound, hitems, hdiag⟩ := (EndsOnce.append_end hB hs).parse_eq
  obtain ⟨_, t, w, ws, ⟨ms, rfl, hms⟩, ht, htr, he, hloop⟩ :=
    loop_fileRound_abreast items hstart ⟨[], (List.append_nil _).symm, .nil⟩ hfound
  refine ⟨ms, t, by rw [hitems, hms.renumbered rfl], ?_, ?_⟩
  · obtain ⟨new, hnew, hreports⟩ := ht.reported
    have : new = u.diagnostics := by simpa using hreports.imp fun _ _ h => (h rfl).2 rfl
    rw [hdiag, hnew, this]
  · rcases ht.rest.cases with ⟨-, -, hnil⟩ | ⟨v, v', r₁, r₂, h₁, h₂, hv⟩
    · simp [htr] at hnil
    · cases htr.symm.trans h₂
      rw [hloop, loop_fileRound_at_end h₁ ((hv.alike.same rfl).kind.trans he)]

/-- A `$` divides a file: its items are those of the part before, read as if the file ended
    at the `$`, and then those of the part after, read as a file of its own. The part
    after has the same diagnostics, behind as many as the part before has alone. -/
theorem parse_divided_by_dollar {A B : List Token} {dollar stop eof : Token} (hA : ∀ t ∈ A, t.kind ≠ .endOfFile)
    (hpragma : ∀ t ∈ A, t.kind ≠ .keyword .kwPragma) (hB : ∀ t ∈ B, t.kind ≠ .endOfFile)
    (hd : dollar.kind = .dollar) (he : eof.kind = .endOfFile) (hs : stop.kind = .endOfFile)
    (hline : stop.line = dollar.line) (hcolumn : stop.column = dollar.column) :
    itemsOf (A ++ [dollar] ++ B ++ [eof]) = itemsOf (A ++ [stop]) ++ itemsOf (B ++ [eof]) ∧
      ∃ reported, (parse (A ++ [dollar] ++ B ++ [eof])).2 = reported ++ (parse (B ++ [eof])).2 ∧
        reported.length = (parse (A ++ [stop])).2.length := by
  have hwhole : ∀ t ∈ A ++ [dollar] ++ B, t.kind ≠ .endOfFile := by
    simp only [List.mem_append, List.mem_singleton]
    rintro t ((h | rfl) | h)
    · exact hA t h
    · simp [hd]
    · exact hB t h
  obtain ⟨items, u, hfound, hitems, hdiag⟩ := (EndsOnce.append_end hwhole he).parse_eq
  obtain ⟨first, s, hfirst, hcount, hr, hupto⟩ := loop_up_to_dollar (B ++ [eof]) hA hpragma hd hs hline hcolumn
  obtain ⟨second, t, hsecond, hdiag', hafter⟩ := loop_after_dollar first hB he hr
  have hlist : A ++ [dollar] ++ B ++ [eof] = A ++ dollar :: (B ++ [eof]) := by simp
  rw [hlist] at hfound
  rw [hupto, hafter] at hfound
  cases hfound
  refine ⟨?_, s.diagnostics, ?_, hcount⟩
  · rw [hitems, List.map_append, hfirst, hsecond]
  · rw [hdiag, hdiag']

/-- A method that breaks off in its parameters, and after the `$` a stray parenthesis and a
    name. -/
theorem parse_divided_by_dollar_broken_method :
    let broken : List Token := [.word .kwMethod 1 1, .name "a" 1 9, ⟨.dot, ".", 1, 10⟩,
      .name "b" 1 11, ⟨.leftParen, "(", 1, 12⟩]
    let after : List Token := [⟨.rightParen, ")", 3, 1⟩, .name "c" 4 1]
    let eof : Token := ⟨.endOfFile, "", 5, 1⟩
    itemsOf (broken ++ [⟨.dollar, "$", 2, 1⟩] ++ after ++ [eof]) =
        itemsOf (broken ++ [⟨.endOfFile, "", 2, 1⟩]) ++ itemsOf (after ++ [eof]) ∧
      ∃ reported, (parse (broken ++ [⟨.dollar, "$", 2, 1⟩] ++ after ++ [eof])).2 = reported ++ (parse (after ++ [eof])).2 ∧
        reported.length = (parse (broken ++ [⟨.endOfFile, "", 2, 1⟩])).2.length :=
  parse_divided_by_dollar (by decide) (by decide) (by decide) rfl rfl rfl rfl rfl

end Magik.Grammar
