/-
  Magik.Proofs.Grammar.Traces — what a parser does, as a relation.

  `Trace s ns s'`: on the way from the state `s` to the state `s'` the trees `ns` are made,
  one after the other. The relation forgets which construct is read, and keeps which words
  are passed before a tree is made, where its span comes from, and that its parts are laid
  out for its kind. What holds of all trees then takes one case for each way to make a
  node, not one for each construct: that they are formed and have new numbers (`Trace.built`),
  and that the arena has them and nothing older is changed (`Trace.kept`).

  `Leaves b n p s Q`: where a trace leads from `b` to `s`, the parser `p` prolongs it, and `Q` holds
  of what it finds and of the state after it. What is made since `b` may become part of what `p`
  makes. A parser that gives up has reported a problem first. In a file that ends it has no
  fault where less than `n` words are left.
-/

import Magik.Proofs.Grammar.Ahead
import Magik.Proofs.Syntax.Arenas

namespace Magik

theorem Span.union_self (a : Span) : a.union a = a := by
  unfold union
  by_cases h : a.line = 0 <;> simp [h]

namespace Grammar

open Node (Built Layout)

def IsHandler (n : Node) : Prop := ∃ names, n.kind = .handler names

/-- A body without statements, which is only a place. -/
def IsVacant (n : Node) : Prop := n.kind = .body ∧ n.children = []

/-- Neither a body nor a handler, and not malformed. -/
def isPlain : Node.Kind → Bool
  | .body | .handler _ | .syntaxError => false
  | _ => true

theorem ne_body_of_isPlain {kind : Node.Kind} (h : isPlain kind) : kind ≠ .body := by
  rintro rfl
  cases h

theorem ne_syntaxError_of_isPlain {kind : Node.Kind} (h : isPlain kind) : kind ≠ .syntaxError := by
  rintro rfl
  cases h

/-! ## Steps -/

namespace State

variable (s : State) (w : Word) (ws : List Word)

/-- The state after a word, with the words that follow it. -/
def pass : State := { s with previous := some w.token, rest := ws }

/-- The state after a node was made. -/
def give (kind : Node.Kind) (span : Span) (ns : List Node) : State :=
  { s with arena := s.arena.add ⟨s.next, kind, span, ns⟩ }

def tell (problem : Problem) (span : Span) : State :=
  { s with diagnostics := s.diagnostics ++ [.error problem.message (some span)] }

/-- The span of the token before the cursor. -/
def before : Span := (s.previous.map Token.span).getD .nowhere

/-- The file ends somewhere ahead. -/
def Closed : Prop := ∃ e, Closes e s.rest

/-- How many errors have been reported. -/
def errors : Nat := s.diagnostics.countP fun d => d.level = .error

@[simp] theorem pass_rest : (s.pass w ws).rest = ws := rfl

@[simp] theorem pass_before : (s.pass w ws).before = w.token.span := rfl

@[simp] theorem pass_errors : (s.pass w ws).errors = s.errors := rfl

variable (problem : Problem) (span : Span) (kind : Node.Kind) (ns : List Node)

@[simp] theorem give_rest : (s.give kind span ns).rest = s.rest := rfl

@[simp] theorem give_errors : (s.give kind span ns).errors = s.errors := rfl

@[simp] theorem give_next : (s.give kind span ns).next = s.next + 1 := s.arena.size_add _

@[simp] theorem tell_rest : (s.tell problem span).rest = s.rest := rfl

@[simp] theorem tell_errors : (s.tell problem span).errors = s.errors + 1 := by
  simp [tell, errors, Diagnostic.error]

end State

/-- The second state comes after the first, or is the same but for what has been made and reported: some
    words have been passed, the last of which is before the cursor. -/
def Onward (s t : State) : Prop :=
  ∃ passed, s.rest = passed ++ t.rest ∧ t.previous = (passed.getLast?.map Word.token).or s.previous ∧
    ∀ w ∈ passed, w.token.kind ≠ .endOfFile

namespace Onward

variable {s t u : State}

theorem refl (s : State) : Onward s s := ⟨[], rfl, rfl, by simp⟩

theorem pass {w : Word} {ws : List Word} (hr : s.rest = w :: ws) (hw : w.token.kind ≠ .endOfFile) :
    Onward s (s.pass w ws) :=
  ⟨[w], hr, rfl, by simpa using hw⟩

theorem trans (h : Onward s t) (h' : Onward t u) : Onward s u := by
  obtain ⟨passed, hr, hp, hne⟩ := h
  obtain ⟨passed', hr', hp', hne'⟩ := h'
  refine ⟨passed ++ passed', by rw [hr, hr', List.append_assoc], ?_, fun w hw => ?_⟩
  · rw [hp', hp, List.getLast?_append, ← Option.or_assoc]
    cases passed'.getLast? <;> rfl
  · exact (List.mem_append.mp hw).elim (hne w) (hne' w)

theorem closes {e : Word} (h : Onward s t) (hc : Closes e s.rest) : Closes e t.rest := by
  obtain ⟨passed, hr, -, hne⟩ := h
  exact (hr ▸ hc).of_append hne

theorem suffix (h : Onward s t) : t.rest <:+ s.rest := by
  obtain ⟨passed, hr, -⟩ := h
  exact ⟨passed, hr.symm⟩

/-- Where words have been passed, the last of them is before the cursor. -/
theorem exists_last (h : Onward s t) (hl : t.rest.length < s.rest.length) :
    ∃ last ∈ s.rest, t.before = last.token.span := by
  obtain ⟨passed, hr, hp, -⟩ := h
  cases hlast : passed.getLast? with
  | none =>
    rw [List.getLast?_eq_none_iff.mp hlast] at hr
    simp [hr] at hl
  | some last =>
    rw [hlast] at hp
    refine ⟨last, ?_, by rw [State.before, hp]; rfl⟩
    rw [hr]
    exact List.mem_append_left _ (List.mem_of_getLast? hlast)

end Onward

/-- The words begin with a pragma whose parentheses are not closed before the file ends. -/
def OpenPragma (words : List Word) : Prop :=
  ∃ opening paren rest, words = opening :: paren :: rest ∧ opening.token.kind = .keyword .kwPragma ∧
    paren.token.kind = .leftParen ∧ Parse.pragmaRest 1 rest = none

/-! ## Traces -/

inductive Trace : State → List Node → State → Prop
  | refl {s} : Trace s [] s
  | pass {s w ws} (hr : s.rest = w :: ws) (hw : w.token.kind ≠ .endOfFile) : Trace s [] (s.pass w ws)
  | tell {s} (problem : Problem) (span : Span) : Trace s [] (s.tell problem span)
  /-- What has been made is lost. -/
  | drop {s s' ns} (h : Trace s ns s') : Trace s [] s'
  /-- After a body, only handlers and empty bodies follow at once. -/
  | append {s t u ns ms} (h : Trace s ns t) (h' : Trace t ms u)
      (hadjacent : (∀ n ∈ ns, n.kind ≠ .body) ∨ ∀ m ∈ ms, IsHandler m ∨ IsVacant m) : Trace s (ns ++ ms) u
  /-- A word stands between. -/
  | apart {s t u w ws ns ms} (h : Trace s ns t) (hr : t.rest = w :: ws) (hw : w.token.kind ≠ .endOfFile)
      (h' : Trace (t.pass w ws) ms u) : Trace s (ns ++ ms) u
  /-- A node from a word to the token before the cursor. -/
  | spanning {s t w ws ns kind} (hr : s.rest = w :: ws) (h : Trace s ns t) (hl : t.rest.length < s.rest.length)
      (hk : isPlain kind) (layout : Layout kind ns) :
      Trace s [⟨t.next, kind, w.token.span.union t.before, ns⟩] (t.give kind (w.token.span.union t.before) ns)
  | handler {s t w ws ns names} (hr : s.rest = w :: ws) (hw : w.token.kind ≠ .endOfFile) (h : Trace (s.pass w ws) ns t)
      (layout : Layout (.handler names) ns) :
      Trace s [⟨t.next, .handler names, w.token.span.union t.before, ns⟩]
        (t.give (.handler names) (w.token.span.union t.before) ns)
  /-- A node for malformed words, of which something has been reported. -/
  | malformed {s t w ws} (hr : s.rest = w :: ws) (h : Trace s [] t) (hl : t.rest.length < s.rest.length)
      (hs : s.errors < t.errors ∨ OpenPragma s.rest) :
      Trace s [⟨t.next, .syntaxError, w.token.span.union t.before, []⟩]
        (t.give .syntaxError (w.token.span.union t.before) [])
  /-- A node from its first part to the token before the cursor. -/
  | leading {s t u w ws first ns kind} (hf : Trace s [first] t) (hb : first.kind ≠ .body) (hr : t.rest = w :: ws)
      (hw : w.token.kind ≠ .endOfFile) (h : Trace (t.pass w ws) ns u) (hk : isPlain kind)
      (layout : Layout kind (first :: ns)) :
      Trace s [⟨u.next, kind, first.span.union u.before, first :: ns⟩]
        (u.give kind (first.span.union u.before) (first :: ns))
  /-- A node around two parts with a word between them. -/
  | joining {s t u w ws left right kind} (hl : Trace s [left] t) (hb : left.kind ≠ .body) (hr : t.rest = w :: ws)
      (hw : w.token.kind ≠ .endOfFile) (h : Trace (t.pass w ws) [right] u) (hb' : right.kind ≠ .body)
      (hk : isPlain kind) (layout : Layout kind [left, right]) :
      Trace s [⟨u.next, kind, left.span.union right.span, [left, right]⟩]
        (u.give kind (left.span.union right.span) [left, right])
  /-- A node from a word to its only part. -/
  | prefixing {s t w ws part kind} (hr : s.rest = w :: ws) (hw : w.token.kind ≠ .endOfFile)
      (h : Trace (s.pass w ws) [part] t) (hb : part.kind ≠ .body) (hk : isPlain kind) (layout : Layout kind [part]) :
      Trace s [⟨t.next, kind, w.token.span.union part.span, [part]⟩] (t.give kind (w.token.span.union part.span) [part])
  /-- The node of parameters, from the first of them or the token before the cursor. -/
  | listing {s t ps} (h : Trace s ps t) (hb : ∀ p ∈ ps, p.kind ≠ .body) (hl : t.rest.length < s.rest.length)
      (layout : Layout .parameterList ps) :
      Trace s [⟨t.next, .parameterList, t.before.around (ps.map Node.span), ps⟩]
        (t.give .parameterList (t.before.around (ps.map Node.span)) ps)
  | body {s t w ws ns} (hr : s.rest = w :: ws) (h : Trace s ns t) (hb : ∀ n ∈ ns, n.kind ≠ .body)
      (layout : Layout .body ns) :
      Trace s [⟨t.next, .body, Parse.bodySpan w.token ns, ns⟩] (t.give .body (Parse.bodySpan w.token ns) ns)

namespace Trace

variable {s t u : State} {ns ms : List Node} {w : Word} {ws : List Word}

/-- Nothing more is made. -/
theorem on (h : Trace s ns t) (h' : Trace t [] u) : Trace s ns u := by
  have hboth := h.append h' (.inr (by simp))
  rwa [List.append_nil] at hboth

/-- Nothing has been made before. -/
theorem after (h : Trace s [] t) (h' : Trace t ms u) : Trace s ms u := h.append h' (.inl (by simp))

theorem onward (h : Trace s ns t) : Onward s t := by
  induction h with
  | refl => exact .refl _
  | pass hr hw => exact .pass hr hw
  | tell problem span => exact .refl _
  | drop h ih => exact ih
  | append h h' _ ih ih' => exact ih.trans ih'
  | apart h hr hw h' ih ih' | leading hf hb hr hw h _ _ ih ih' | joining hl hb hr hw h _ _ _ ih ih' =>
    exact ih.trans ((Onward.pass hr hw).trans ih')
  | spanning hr h hl hk _ ih => exact ih
  | handler hr hw h _ ih | prefixing hr hw h _ _ _ ih => exact (Onward.pass hr hw).trans ih
  | malformed hr h hl hs ih => exact ih
  | listing h hb hl _ ih => exact ih
  | body hr h hb _ ih => exact ih

theorem length_le (h : Trace s ns t) : t.rest.length ≤ s.rest.length := h.onward.suffix.length_le

theorem closed (h : Trace s ns t) (hc : s.Closed) : t.Closed := hc.imp fun _ => h.onward.closes

theorem pass_lt (hr : s.rest = w :: ws) : (s.pass w ws).rest.length < s.rest.length := by simp [hr]

/-- Words are passed before any tree is made but an empty body. -/
theorem moves (h : Trace s ns t) {n : Node} (hn : n ∈ ns) (hb : n.kind ≠ .body) : t.rest.length < s.rest.length := by
  induction h with
  | refl | pass | tell | drop => cases hn
  | append h h' _ ih ih' =>
    rcases List.mem_append.mp hn with hn | hn
    · exact Nat.lt_of_le_of_lt h'.length_le (ih hn)
    · exact Nat.lt_of_lt_of_le (ih' hn) h.length_le
  | apart h hr _ h' _ _ | leading h _ hr _ h' _ _ _ _ | joining h _ hr _ h' _ _ _ _ _ =>
    exact Nat.lt_of_lt_of_le (Nat.lt_of_le_of_lt h'.length_le (pass_lt hr)) h.length_le
  | spanning _ _ hl _ _ _ | malformed _ _ hl _ _ | listing _ _ hl _ _ => exact hl
  | handler hr _ h _ _ | prefixing hr _ h _ _ _ _ => exact Nat.lt_of_le_of_lt h.length_le (pass_lt hr)
  | body => exact absurd (by rw [List.mem_singleton.mp hn]) hb

/-- Problems stay reported. -/
theorem errors_le (h : Trace s ns t) : s.errors ≤ t.errors := by
  induction h with
  | refl | pass hr hw => exact Nat.le_refl _
  | tell problem span => simp
  | drop h ih => exact ih
  | append h h' _ ih ih' | apart h hr hw h' ih ih' | leading hf hb hr hw h _ _ ih ih' => exact Nat.le_trans ih ih'
  | spanning hr h hl hk _ ih => exact ih
  | handler hr hw h _ ih => exact ih
  | malformed hr h hl hs ih => exact ih
  | joining hl hb hr hw h _ _ _ ih ih' => exact Nat.le_trans ih ih'
  | prefixing hr hw h _ _ _ ih => exact ih
  | listing h hb hl _ ih => exact ih
  | body hr h hb _ ih => exact ih

/-- What is made is formed, and its numbers are new. -/
theorem built (h : Trace s ns t) : s.next ≤ t.next ∧ Built s.next t.next ns := by
  have both {low middle high : Nat} {a b : List Node} (ha : low ≤ middle ∧ Built low middle a)
      (hb : middle ≤ high ∧ Built middle high b) : low ≤ high ∧ Built low high (a ++ b) :=
    ⟨Nat.le_trans ha.1 hb.1, ha.2.append hb.2 ha.1 hb.1⟩
  have around {low : Nat} {t : State} {kind : Node.Kind} {span : Span} {ns : List Node}
      (h : low ≤ t.next ∧ Built low t.next ns) (layout : Layout kind ns) :
      low ≤ (t.give kind span ns).next ∧ Built low (t.give kind span ns).next [⟨t.next, kind, span, ns⟩] := by
    rw [State.give_next]
    exact ⟨Nat.le_succ_of_le h.1, h.2.node h.1 layout span⟩
  induction h with
  | refl | pass hr hw | tell problem span => exact ⟨Nat.le_refl _, .nil _ _⟩
  | drop h ih => exact ⟨ih.1, .nil _ _⟩
  | append h h' _ ih ih' | apart h hr hw h' ih ih' => exact both ih ih'
  | spanning hr h hl hk layout ih | handler hr hw h layout ih | prefixing hr hw h _ _ layout ih =>
    exact around ih layout
  | malformed hr h hl hs ih => exact around ih (.leaf rfl)
  | leading hf hb hr hw h _ layout ih ih' | joining hl hb hr hw h _ _ layout ih ih' => exact around (both ih ih') layout
  | listing h hb hl layout ih | body hr h hb layout ih => exact around ih layout

/-- The arena has what is made, and the slots it had before. -/
theorem kept (h : Trace s ns t) : (∀ i < s.next, t.arena[i]? = s.arena[i]?) ∧ ∀ n ∈ ns, t.arena.Holds n := by
  have both {s t u : State} {a b : List Node} (h : Trace s a t)
      (ha : (∀ i < s.next, t.arena[i]? = s.arena[i]?) ∧ ∀ n ∈ a, t.arena.Holds n)
      (hb : (∀ i < t.next, u.arena[i]? = t.arena[i]?) ∧ ∀ n ∈ b, u.arena.Holds n) :
      (∀ i < s.next, u.arena[i]? = s.arena[i]?) ∧ ∀ n ∈ a ++ b, u.arena.Holds n := by
    obtain ⟨hle, hbuilt⟩ := h.built
    refine ⟨fun i hi => (hb.1 i (Nat.lt_of_lt_of_le hi hle)).trans (ha.1 i hi), fun n hn => ?_⟩
    rcases List.mem_append.mp hn with hn | hn
    · exact (ha.2 n hn).mono fun i hi => hb.1 i (hbuilt.1.2 i (Node.numbers_subset hn i hi)).2
    · exact hb.2 n hn
  have around {s t : State} {kind : Node.Kind} {span : Span} {ns : List Node} (h : s.next ≤ t.next ∧ Built s.next t.next ns)
      (hk : (∀ i < s.next, t.arena[i]? = s.arena[i]?) ∧ ∀ n ∈ ns, t.arena.Holds n) :
      (∀ i < s.next, (t.give kind span ns).arena[i]? = s.arena[i]?) ∧
        ∀ n ∈ [⟨t.next, kind, span, ns⟩], (t.give kind span ns).arena.Holds n := by
    refine ⟨fun i hi => (Arena.getElem?_add_of_lt h.2 h.1 hi).trans (hk.1 i hi), fun n hn => ?_⟩
    rw [List.mem_singleton.mp hn]
    exact Arena.holds_add hk.2 h.2 h.1
  induction h with
  | refl | pass hr hw | tell problem span => exact ⟨fun _ _ => rfl, by simp⟩
  | drop h ih => exact ⟨ih.1, by simp⟩
  | append h h' _ ih ih' => exact both h ih ih'
  | apart h hr hw h' ih ih' => exact both h ih ih'
  | spanning hr h hl hk layout ih | handler hr hw h layout ih | prefixing hr hw h _ _ layout ih | malformed hr h hl hs ih
  | listing h hb hl layout ih | body hr h hb layout ih => exact around h.built ih
  | leading hf hb hr hw h _ layout ih ih' | joining hf hb hr hw h _ _ layout ih ih' =>
    exact around (hf.apart hr hw h).built (both hf ih ih')

end Trace

/-! ## Parsers -/

def Leaves {α : Type} (b : State) (n : Nat) (p : Parse α) (s : State) (Q : α → State → Prop) : Prop :=
  Trace b [] s →
    match p s with
    | .found a s' => Trace b [] s' ∧ s'.rest.length ≤ s.rest.length ∧ Q a s'
    | .gaveUp s' => Trace b [] s' ∧ b.errors < s'.errors
    | .fault _ => b.Closed → n ≤ s.rest.length

namespace Leaves

variable {α β σ : Type} {n : Nat} {b s t : State} {p q : Parse α} {f : α → Parse β} {wanted : Wanted} {m : Nat} {a : α}
  {c : Prop} {word : Keyword} {problem : Problem} {span : Span} {Q : α → State → Prop}

/-- What a parser comes to from its own start, seen from an earlier one. -/
theorem mono {Q' : α → State → Prop} (h : Leaves s n p s Q) (hQ : ∀ a s', Trace s [] s' → Q a s' → Q' a s') :
    Leaves b n p s Q' := by
  intro hb
  have h := h .refl
  cases hr : p s with
  | found a s' =>
    simp only [hr] at h ⊢
    exact ⟨hb.on h.1, h.2.1, hQ a s' h.1 h.2.2⟩
  | gaveUp s' =>
    simp only [hr] at h ⊢
    exact ⟨hb.on h.1, Nat.lt_of_le_of_lt hb.errors_le h.2⟩
  | fault f =>
    simp only [hr] at h ⊢
    exact fun hc => h (hb.closed hc)

/-- A parser that goes on as another does from a later state; how much is passed until then counts. -/
theorem of_passed (he : p s = q t) (h : Trace s [] t) (hm : m + t.rest.length ≤ n + s.rest.length)
    (hq : Leaves b n q t Q) : Leaves b m p s Q := by
  intro hb
  have hq := hq (hb.on h)
  rw [he]
  cases hr : q t with
  | found a t' =>
    simp only [hr] at hq ⊢
    exact ⟨hq.1, Nat.le_trans hq.2.1 h.length_le, hq.2.2⟩
  | gaveUp t' => simpa only [hr] using hq
  | fault f =>
    simp only [hr] at hq ⊢
    intro hc
    have := hq hc
    omega

theorem of_later (he : p s = q t) (h : Trace s [] t) (hq : Leaves b n q t Q) : Leaves b n p s Q :=
  of_passed he h (Nat.add_le_add_left h.length_le n) hq

/-- A parser that goes on as another does. -/
theorem of_eq (he : p s = q s) (hq : Leaves b n q s Q) : Leaves b n p s Q :=
  of_later he .refl hq

theorem of_fault (f : Fault) (h : p s = .fault f) (hf : s.Closed → n ≤ s.rest.length) :
    Leaves b n p s Q := by
  simpa [Leaves, h] using fun hb : Trace b [] s => hf ∘ hb.closed

/-- Where less words are left there is no fault at all. -/
theorem faultless (h : Leaves b (s.rest.length + 1) p s Q) : Leaves b m p s Q := by
  intro hb
  have h := h hb
  cases hr : p s with
  | fault f =>
    simp only [hr] at h ⊢
    exact fun hc => absurd (h hc) (Nat.not_succ_le_self _)
  | _ => simpa only [hr] using h

theorem pure (h : Q a s) : Leaves b n (Pure.pure a) s Q := fun hb => ⟨hb, Nat.le_refl _, h⟩

/-- What the first parser makes is made since an earlier state of its own. -/
theorem follow {c : State} {Q' : β → State → Prop} (hc : Trace b [] c) (hs : Trace c [] s)
    (hp : Leaves c n p s Q) (hf : ∀ a t, Trace c [] t → t.rest.length ≤ s.rest.length → Q a t → Leaves b n (f a) t Q') :
    Leaves b n (p >>= f) s Q' := by
  intro _
  have hp := hp hs
  rw [Parse.bind_apply]
  cases hr : p s with
  | found a t =>
    simp only [hr] at hp ⊢
    obtain ⟨ht, hle, hQ⟩ := hp
    have h := hf a t ht hle hQ (hc.on ht)
    cases hr' : f a t with
    | found a' u =>
      simp only [hr'] at h ⊢
      exact ⟨h.1, Nat.le_trans h.2.1 hle, h.2.2⟩
    | gaveUp u => simpa only [hr'] using h
    | fault e =>
      simp only [hr'] at h ⊢
      exact fun hb => Nat.le_trans (h hb) hle
  | gaveUp t =>
    simp only [hr] at hp ⊢
    exact ⟨hc.on hp.1, Nat.lt_of_le_of_lt hc.errors_le hp.2⟩
  | fault e =>
    simp only [hr] at hp ⊢
    exact fun hb => hp (hc.closed hb)

theorem bind {Q' : β → State → Prop} (hp : Leaves s n p s Q)
    (hf : ∀ a t, Trace s [] t → Q a t → Leaves b n (f a) t Q') : Leaves b n (p >>= f) s Q' := fun hb =>
  follow hb .refl hp (fun a t ht _ => hf a t ht) hb

theorem ite [Decidable c] (hp : c → Leaves b n p s Q) (hq : ¬ c → Leaves b n q s Q) :
    Leaves b n (if c then p else q) s Q := by
  split
  · exact hp ‹_›
  · exact hq ‹_›

theorem attempt (hp : Leaves s n p s Q) :
    Leaves s n (Parse.attempt p) s fun answer t => match answer with
      | some a => Q a t
      | none => s.errors < t.errors := by
  intro hs
  have hp := hp hs
  unfold Parse.attempt
  cases hr : p s with
  | found a t => simpa only [hr] using hp
  | gaveUp t =>
    simp only [hr] at hp ⊢
    exact ⟨hp.1, hp.1.length_le, hp.2⟩
  | fault e => simpa only [hr] using hp

/-- What a round of a loop comes to: the invariant again, further on, or what the loop is for. -/
def RoundLeaves (Inv : σ → State → Prop) (Q : α → State → Prop) (s : State) (r : Parse.Round σ α) (t : State) : Prop :=
  match r with
  | .again x => Inv x t ∧ t.rest.length < s.rest.length
  | .done a => Q a t

theorem loop {round : σ → Parse (Parse.Round σ α)} {x : σ} (Inv : σ → State → Prop) (hx : Inv x s)
    (step : ∀ x t, Trace b [] t → Inv x t → Leaves b n (round x) t (RoundLeaves Inv Q t)) :
    Leaves b n (Parse.loop round x) s Q := by
  intro hb
  fun_induction Parse.loop round x s with
  | case1 x s y t hr hl ih =>
    have h := step x s hb hx hb
    simp only [hr] at h
    have hrest := ih h.2.2.1 h.1
    split at hrest
    · exact ⟨hrest.1, Nat.le_trans hrest.2.1 h.2.1, hrest.2.2⟩
    · exact hrest
    · exact fun hc => Nat.le_trans (hrest hc) h.2.1
  | case2 x s y t hr hl =>
    have h := step x s hb hx hb
    simp only [hr] at h
    exact absurd h.2.2.2 hl
  | case3 x s a t hr | case4 x s t hr | case5 x s e hr =>
    have h := step x s hb hx hb
    simp only [hr] at h
    exact h

/-! ## The cursor -/

variable {Q : β → State → Prop}

theorem of_found (hp : p s = .found a t) (h : Trace s [] t) (hf : Leaves b n (f a) t Q) : Leaves b n (p >>= f) s Q :=
  of_later (by simp [Parse.bind_apply, hp]) h hf

/-- What is done after two parsers is done after the second. -/
theorem rebind {γ : Type} {g : α → Parse γ} {f : γ → Parse β} (h : Leaves b n (p >>= fun a => g a >>= f) s Q) :
    Leaves b n (p >>= g >>= f) s Q := by
  refine of_eq ?_ h
  simp only [Parse.bind_apply]
  cases p s <;> rfl

/-- Where a word is looked at there is one. -/
theorem current {f : Token → Parse β} (h : ∀ w ws, s.rest = w :: ws → Leaves b n (f w.token) s Q) :
    Leaves b n (Parse.current >>= f) s Q := by
  cases hr : s.rest with
  | nil =>
    refine of_fault .noToken (by simp [Parse.bind_apply, Parse.current, hr]) fun ⟨e, hc⟩ => ?_
    rw [hr] at hc
    cases hc
  | cons w ws => exact of_found (by simp [Parse.current, hr]) .refl (h w ws hr)

theorem kind {f : Token.Kind → Parse β} (h : ∀ w ws, s.rest = w :: ws → Leaves b n (f w.token.kind) s Q) :
    Leaves b n (Parse.kind >>= f) s Q :=
  rebind (current h)

theorem isKeyword {f : Bool → Parse β} (h : ∀ w ws, s.rest = w :: ws → Leaves b n (f (w.token.kind = .keyword word)) s Q) :
    Leaves b n (Parse.isKeyword word >>= f) s Q :=
  rebind (kind h)

theorem onSameLine {f : Bool → Parse β} (h : ∀ here, Leaves b n (f here) s Q) : Leaves b n (Parse.onSameLine >>= f) s Q :=
  rebind (current fun _ _ _ => of_found rfl .refl (h _))

theorem remaining {f : List Word → Parse β} (h : Leaves b n (f s.rest) s Q) : Leaves b n (Parse.remaining >>= f) s Q :=
  of_found rfl .refl h

theorem doc {f : List String → Parse β} (h : ∀ lines, Leaves b n (f lines) s Q) : Leaves b n (Parse.doc >>= f) s Q :=
  of_found rfl .refl (h _)

theorem previousSpan {f : Span → Parse β} (h : Leaves b n (f s.before) s Q) : Leaves b n (Parse.previousSpan >>= f) s Q :=
  of_found rfl .refl h

section

variable {w : Word} {ws : List Word} (hr : s.rest = w :: ws) (hw : w.token.kind ≠ .endOfFile)

include hr hw

theorem upcoming {f : List Word → Parse β} (h : Leaves b n (f (w :: ws)) s Q) : Leaves b n (Parse.upcoming >>= f) s Q :=
  of_found (by simp [Parse.upcoming, hr, hw]) .refl h

/-- The word that is looked at is passed. -/
theorem advance_word {f : Token → Parse β} (h : w.token.kind ≠ .endOfFile → Leaves b n (f w.token) (s.pass w ws) Q) :
    Leaves b n (Parse.advance >>= f) s Q :=
  of_found (by simp [Parse.advance, State.pass, hr, hw]) (.pass hr hw) (h hw)

theorem skip_word {f : Unit → Parse β} (h : w.token.kind ≠ .endOfFile → Leaves b n (f ()) (s.pass w ws) Q) :
    Leaves b n (Parse.skip 1 >>= f) s Q :=
  rebind (advance_word hr hw h)

/-- A parser that begins with a word needs less of what comes after it. -/
theorem advance_first {f : Token → Parse β} (h : w.token.kind ≠ .endOfFile → Leaves b n (f w.token) (s.pass w ws) Q) :
    Leaves b (n + 1) (Parse.advance >>= f) s Q := by
  refine of_passed ?_ (.pass hr hw) ?_ (h hw)
  · simp [Parse.bind_apply, Parse.advance, State.pass, hr, hw]
  · simp only [State.pass_rest, hr, List.length_cons]
    omega

theorem skip_first {f : Unit → Parse β} (h : w.token.kind ≠ .endOfFile → Leaves b n (f ()) (s.pass w ws) Q) :
    Leaves b (n + 1) (Parse.skip 1 >>= f) s Q :=
  rebind (advance_first hr hw h)

end

/-! ## Problems and nodes -/

theorem failWith : Leaves b n (Parse.failWith problem span) s Q := by
  intro hb
  refine (⟨hb.on (.tell problem span), ?_⟩ : Trace b [] (s.tell problem span) ∧ b.errors < (s.tell problem span).errors)
  rw [State.tell_errors]
  exact Nat.lt_succ_of_le hb.errors_le

section

variable {kind : Node.Kind} {start : Span} {ns : List Node} {Q : Node → State → Prop}

theorem node (h : Trace b [⟨s.next, kind, span, ns⟩] (s.give kind span ns))
    (hQ : Q ⟨s.next, kind, span, ns⟩ (s.give kind span ns)) : Leaves b n (Parse.node kind span ns) s Q :=
  fun _ => ⟨h.drop, Nat.le_refl _, hQ⟩

theorem nodeFrom (h : Trace b [⟨s.next, kind, start.union s.before, ns⟩] (s.give kind (start.union s.before) ns))
    (hQ : Q ⟨s.next, kind, start.union s.before, ns⟩ (s.give kind (start.union s.before) ns)) :
    Leaves b n (Parse.nodeFrom kind start ns) s Q :=
  previousSpan (node h hQ)

end

theorem failWith_bind : Leaves b n (Parse.failWith problem span >>= f) s Q :=
  show Leaves b n (Parse.failWith problem span) s Q from failWith

theorem ite_bind [Decidable c] (hp : c → Leaves b n (p >>= f) s Q) (hq : ¬ c → Leaves b n (q >>= f) s Q) :
    Leaves b n ((if c then p else q) >>= f) s Q := by
  split
  · exact hp ‹_›
  · exact hq ‹_›

theorem identifier {f : Token → Parse β}
    (h : ∀ w ws, s.rest = w :: ws → w.token.kind = .identifier → Leaves b n (f w.token) (s.pass w ws) Q) :
    Leaves b n (Parse.identifier wanted >>= f) s Q :=
  rebind (current fun w ws hr => ite_bind (fun hw => advance_word hr (by simp [hw]) fun _ => h w ws hr hw) fun _ => failWith_bind)

theorem token {k : Token.Kind} {f : Unit → Parse β} (hk : k ≠ .endOfFile)
    (h : ∀ w ws, s.rest = w :: ws → w.token.kind ≠ .endOfFile → w.token.kind = k → Leaves b n (f ()) (s.pass w ws) Q) :
    Leaves b n (Parse.token k wanted >>= f) s Q :=
  rebind (current fun w ws hr =>
    ite_bind (fun hw => skip_word hr (hw ▸ hk) fun hne => h w ws hr hne hw) fun _ => failWith_bind)

/-- The keyword is passed, or its absence is reported. -/
theorem closing {f : Unit → Parse β}
    (h : ∀ w ws, s.rest = w :: ws → w.token.kind ≠ .endOfFile → w.token.kind = .keyword word → Leaves b n (f ()) (s.pass w ws) Q)
    (h' : ∀ problem span, Leaves b n (f ()) (s.tell problem span) Q) : Leaves b n (Parse.closing word wanted >>= f) s Q :=
  rebind (current fun w ws hr =>
    ite_bind (fun hw => skip_word hr (by simp [hw]) fun hne => h w ws hr hne hw) fun _ => of_found rfl (.tell _ _) (h' _ _))

end Leaves

end Grammar

end Magik
