/-
  Magik.Proofs.Grammar.Places — where the nodes of a tree are.

  Where the tokens of a file are in order, so are its trees: each is after what has been
  passed when it was begun and before what has not when it was made, and a part is inside
  the whole (`Trace.spread`, by induction on the trace). An empty body is not: it is the
  place of the word after it, which may be outside of its construct and may be where the
  next part begins. That happens only before a handler.
-/

import Magik.Proofs.Grammar.Totality
import Magik.Proofs.Grammar.Tracing
import Magik.Proofs.Token.Order

namespace Magik.Grammar

variable {kind : Node.Kind} {e : Word} {s t : State} {ns : List Node}

/-! ## The cursor -/

namespace State

/-- The last place that has been passed. -/
def behind (s : State) : Place := s.before.last

/-- The first place that has not. -/
def here (s : State) : Place :=
  match s.rest with
  | [] => .of 0 0
  | w :: _ => w.token.span.first

def tokens (s : State) : List Token := s.previous.toList ++ s.rest.map Word.token

/-- The tokens at the cursor are in order up to the end of the file. -/
structure InOrder (e : Word) (s : State) : Prop where
  closes : Closes e s.rest
  ordered : s.tokens.Pairwise Token.Precedes
  somewhere : ∀ t ∈ s.tokens, t.line ≠ 0

end State

theorem Token.first_le_last (t : Token) : t.span.first ≤ t.span.last :=
  Place.le_iff.mpr (.inr ⟨rfl, Nat.le_add_right _ _⟩)

namespace State.InOrder

variable {e w : Word} {ws : List Word} {s t : State}

theorem onward (h : s.InOrder e) (ho : Onward s t) : t.InOrder e := by
  obtain ⟨passed, hr, hp, hne⟩ := ho
  have hsub : t.tokens.Sublist s.tokens := by
    unfold State.tokens
    rw [hr, hp, List.map_append]
    cases hlast : passed.getLast? with
    | none =>
      rw [List.getLast?_eq_none_iff.mp hlast]
      exact List.Sublist.refl _
    | some last =>
      refine List.Sublist.trans ?_ (List.sublist_append_right _ _)
      obtain ⟨front, rfl⟩ := List.getLast?_eq_some_iff.mp hlast
      simp
  exact ⟨(hr ▸ h.closes).of_append hne, h.ordered.sublist hsub, fun u hu => h.somewhere u (hsub.subset hu)⟩

theorem here_eq (hr : s.rest = w :: ws) : s.here = w.token.span.first := by simp [here, hr]

section

variable (h : s.InOrder e)
include h

theorem precedes_of_mem (hr : s.rest = w :: ws) {v : Word} (hv : v ∈ ws) :
    w.token.span.last < v.token.span.first := by
  have hordered := h.ordered.sublist (List.sublist_append_right _ _)
  rw [hr, List.map_cons, List.pairwise_cons] at hordered
  exact hordered.1 _ (List.mem_map_of_mem hv)

/-- What is left begins where the cursor is, or later. -/
theorem here_le_of_mem (hw : w ∈ s.rest) : s.here ≤ w.token.span.first := by
  obtain ⟨v, vs, hr⟩ := h.closes.exists_cons
  rw [here_eq hr]
  rw [hr] at hw
  rcases List.mem_cons.mp hw with rfl | hw
  · exact le_refl _
  · exact ((Token.first_le_last _).trans_lt (h.precedes_of_mem hr hw)).le

theorem line_ne_zero (hw : w ∈ s.rest) : w.token.line ≠ 0 :=
  h.somewhere _ (List.mem_append_right _ (List.mem_map_of_mem hw))

theorem behind_lt_here : s.behind < s.here := by
  obtain ⟨w, ws, hr⟩ := h.closes.exists_cons
  rw [here_eq hr, behind, before]
  cases hp : s.previous with
  | none =>
    have hline := h.line_ne_zero (w := w) (by simp [hr])
    exact Place.lt_iff.mpr (.inl (Nat.pos_of_ne_zero hline))
  | some p =>
    have hordered := h.ordered
    rw [tokens, hp, hr] at hordered
    exact (List.pairwise_cons.mp hordered).1 _ (by simp)

theorem here_le (ho : Onward s t) : s.here ≤ t.here := by
  obtain ⟨w, ws, hr⟩ := (h.onward ho).closes.exists_cons
  rw [here_eq hr]
  exact h.here_le_of_mem (ho.suffix.subset (by simp [hr]))

/-- Where words have been passed, they are between the cursor then and now. -/
theorem before_within (ho : Onward s t) (hl : t.rest.length < s.rest.length) :
    t.before.Within s.here t.behind := by
  obtain ⟨last, hlast, hbefore⟩ := ho.exists_last hl
  rw [behind, hbefore]
  exact ⟨h.line_ne_zero hlast, h.here_le_of_mem hlast, Token.first_le_last _, le_refl _⟩

theorem behind_le (ho : Onward s t) : s.behind ≤ t.behind := by
  rcases Nat.lt_or_ge t.rest.length s.rest.length with hl | hge
  · have hin := h.before_within ho hl
    exact (h.behind_lt_here.le.trans hin.low).trans hin.ordered
  · obtain ⟨passed, hr, hp, -⟩ := ho
    have hnil : passed = [] := by
      rw [hr, List.length_append] at hge
      exact List.length_eq_zero_iff.mp (by omega)
    rw [hnil] at hp
    rw [behind, behind, before, before, hp]
    exact le_refl _

/-- The first word of those that have been passed. -/
theorem word_within (ho : Onward s t) (hl : t.rest.length < s.rest.length) (hr : s.rest = w :: ws) :
    w.token.span.Within s.here t.behind := by
  refine ⟨h.line_ne_zero (by simp [hr]), (here_eq hr).le, Token.first_le_last _, ?_⟩
  obtain ⟨last, hlast, hbefore⟩ := ho.exists_last hl
  rw [behind, hbefore]
  rw [hr] at hlast
  rcases List.mem_cons.mp hlast with rfl | hlast
  · exact le_refl _
  · exact (h.precedes_of_mem hr hlast).le.trans (Token.first_le_last _)

end

end State.InOrder

/-! ## Trees in order -/

/-- The first tree is before the second, unless the second is an empty body. An empty body may be at the
    very place where a handler begins. -/
def ComesBefore (c d : Node) : Prop :=
  ¬ IsVacant d → c.span.last < d.span.first ∨ IsVacant c ∧ IsHandler d ∧ c.span.last = d.span.first

/-- The parts of a tree are in order and inside of it, empty bodies aside. -/
inductive Laid : Node → Prop
  | node {n : Node} (somewhere : n.span.line ≠ 0) (ordered : n.span.first ≤ n.span.last)
      (children : ∀ c ∈ n.children, Laid c) (inside : ∀ c ∈ n.children, ¬ IsVacant c → c.span.Inside n.span)
      (apart : n.children.Pairwise ComesBefore) (late : IsHandler n → ∀ c ∈ n.children, n.span.first < c.span.first) :
      Laid n

namespace Laid

variable {n : Node}

theorem somewhere (h : Laid n) : n.span.line ≠ 0 := by
  cases h
  assumption

theorem ordered (h : Laid n) : n.span.first ≤ n.span.last := by
  cases h
  assumption

end Laid

/-- The trees are in order, from the cursor at the first state on and, empty bodies aside, up to the last
    place before the second. -/
structure Spread (s : State) (ns : List Node) (t : State) : Prop where
  laid : ∀ n ∈ ns, Laid n
  low : ∀ n ∈ ns, s.here ≤ n.span.first
  high : ∀ n ∈ ns, n.span.last ≤ t.behind ∨ IsVacant n ∧ n.span.last ≤ t.here
  apart : ns.Pairwise ComesBefore

namespace Spread

variable {e : Word} {s t u : State} {ns ms : List Node} {n : Node}

theorem nil (s t : State) : Spread s [] t := ⟨by simp, by simp, by simp, .nil⟩

section

variable (h : Spread s ns t)
include h

theorem give {kind : Node.Kind} {span : Span} : Spread s ns (t.give kind span ms) := ⟨h.laid, h.low, h.high, h.apart⟩

theorem high_of_not_vacant (hn : n ∈ ns) (hv : ¬ IsVacant n) : n.span.last ≤ t.behind :=
  (h.high n hn).resolve_right fun hvacant => hv hvacant.1

theorem within (hn : n ∈ ns) (hv : ¬ IsVacant n) : n.span.Within s.here t.behind :=
  ⟨(h.laid n hn).somewhere, h.low n hn, (h.laid n hn).ordered, h.high_of_not_vacant hn hv⟩

/-- Trees that were made one after the other. -/
theorem append_of (h' : Spread t ms u) (hs : s.InOrder e) (ho : Onward s t) (ho' : Onward t u)
    (hbefore : ∀ c ∈ ns, ∀ d ∈ ms, ComesBefore c d) : Spread s (ns ++ ms) u := by
  have ht := hs.onward ho
  refine ⟨fun n hn => ?_, fun n hn => ?_, fun n hn => ?_, List.pairwise_append.mpr ⟨h.apart, h'.apart, hbefore⟩⟩
  · exact (List.mem_append.mp hn).elim (h.laid n) (h'.laid n)
  · rcases List.mem_append.mp hn with hn | hn
    · exact h.low n hn
    · exact (hs.here_le ho).trans (h'.low n hn)
  · rcases List.mem_append.mp hn with hn | hn
    · exact (h.high n hn).imp (fun hle => hle.trans (ht.behind_le ho'))
        fun hv => ⟨hv.1, hv.2.trans (ht.here_le ho')⟩
    · exact h'.high n hn

theorem append (h' : Spread t ms u) (hs : s.InOrder e) (ho : Onward s t) (ho' : Onward t u)
    (hadjacent : (∀ n ∈ ns, n.kind ≠ .body) ∨ ∀ m ∈ ms, IsHandler m ∨ IsVacant m) : Spread s (ns ++ ms) u := by
  have ht := hs.onward ho
  refine h.append_of h' hs ho ho' fun c hc d hd hv => ?_
  have hlow := h'.low d hd
  rcases h.high c hc with hle | ⟨hvacant, hle⟩
  · exact .inl ((hle.trans_lt ht.behind_lt_here).trans_le hlow)
  · rcases hadjacent with hbody | hhandler
    · exact absurd hvacant.1 (hbody c hc)
    · rcases lt_or_eq_of_le (hle.trans hlow) with hlt | heq
      · exact .inl hlt
      · exact .inr ⟨hvacant, (hhandler d hd).resolve_right hv, heq⟩

/-- A word between two trees keeps them apart. -/
theorem apart_of_word {w : Word} {ws : List Word} (h' : Spread (t.pass w ws) ms u) (hs : s.InOrder e)
    (ho : Onward s t) (hr : t.rest = w :: ws) (hw : w.token.kind ≠ .endOfFile) (ho' : Onward (t.pass w ws) u) :
    Spread s (ns ++ ms) u := by
  have hpass := Onward.pass hr hw
  have ht := hs.onward ho
  have ht' := ht.onward hpass
  have hpassed : ∀ c ∈ ns, c.span.last ≤ (t.pass w ws).behind := by
    intro c hc
    rcases h.high c hc with hle | ⟨-, hle⟩
    · exact hle.trans (ht.behind_le hpass)
    · rw [State.InOrder.here_eq hr] at hle
      exact hle.trans (Token.first_le_last _)
  have hfirst : Spread s ns (t.pass w ws) := ⟨h.laid, h.low, fun n hn => .inl (hpassed n hn), h.apart⟩
  refine hfirst.append_of h' hs (ho.trans hpass) ho' fun c hc d hd _ => .inl ?_
  exact ((hpassed c hc).trans_lt ht'.behind_lt_here).trans_le (h'.low d hd)

end

/-- A tree around trees that were made. -/
theorem single (hw : n.span.Within s.here t.behind) (hc : Spread u n.children t)
    (hin : ∀ c ∈ n.children, ¬ IsVacant c → c.span.Inside n.span)
    (hlate : IsHandler n → ∀ c ∈ n.children, n.span.first < c.span.first) : Spread s [n] t := by
  refine ⟨?_, by simpa using hw.low, by simpa using .inl hw.high, List.pairwise_singleton _ _⟩
  simpa using Laid.node hw.somewhere hw.ordered hc.laid hin hc.apart hlate

end Spread

theorem not_handler_of_isPlain (h : isPlain kind) {names : List String} : kind ≠ .handler names := by
  rintro rfl
  cases h

/-- A tree from a first span to the token before the cursor. -/
theorem Spread.to_before {u : State} {start : Span} (hs : s.InOrder e) (ho : Onward s t)
    (hl : t.rest.length < s.rest.length) (hstart : start.Within s.here t.behind) (hc : Spread u ns t)
    (hfirst : ∀ c ∈ ns, start.first ≤ c.span.first) (hk : ∀ names, kind ≠ .handler names) :
    Spread s [⟨t.next, kind, start.union t.before, ns⟩] (t.give kind (start.union t.before) ns) := by
  have hbefore := hs.before_within ho hl
  refine (Spread.single (hstart.union hbefore) hc (fun c hm hv => ?_) ?_).give
  · exact Span.inside_union hstart.somewhere hbefore.somewhere (hfirst c hm) (hc.high_of_not_vacant hm hv)
  · rintro ⟨names, hkind⟩
    exact absurd hkind (hk names)

theorem not_vacant_of_kind {n : Node} (h : n.kind ≠ .body) : ¬ IsVacant n := fun hv => h hv.1

/-- A tree that is no empty body ends before one that comes after it begins. -/
theorem ComesBefore.lt {c d : Node} (h : ComesBefore c d) (hc : c.kind ≠ .body) (hd : d.kind ≠ .body) :
    c.span.last < d.span.first :=
  (h (not_vacant_of_kind hd)).resolve_right fun hvacant => hc hvacant.1.1

/-- A body reaches from its first statement to its last. -/
theorem Spread.body {e w : Word} {ws : List Word} {s t : State} {ns : List Node} (hs : s.InOrder e) (ho : Onward s t)
    (hr : s.rest = w :: ws) (hc : Spread s ns t) (hb : ∀ n ∈ ns, n.kind ≠ .body) :
    Spread s [⟨t.next, .body, Parse.bodySpan w.token ns, ns⟩] (t.give .body (Parse.bodySpan w.token ns) ns) := by
  cases ns with
  | nil =>
    have hline := hs.line_ne_zero (w := w) (by simp [hr])
    have hlaid : Laid ⟨t.next, .body, .point w.token.line w.token.column, []⟩ :=
      .node hline (le_refl _) (by simp) (by simp) .nil (by simp)
    have hhere : s.here ≤ t.here := hs.here_le ho
    rw [State.InOrder.here_eq hr] at hhere
    refine ⟨fun n hn => ?_, fun n hn => ?_, fun n hn => ?_, List.pairwise_singleton _ _⟩
    all_goals rw [List.mem_singleton.mp hn]
    · exact hlaid
    · exact (State.InOrder.here_eq hr).le
    · exact .inr ⟨⟨rfl, rfl⟩, hhere⟩
  | cons n ms =>
    obtain ⟨last, hlast⟩ : ∃ last, (n :: ms).getLast? = some last := ⟨_, List.getLast?_eq_some_getLast (by simp)⟩
    obtain ⟨front, hfront⟩ := List.getLast?_eq_some_iff.mp hlast
    have hspan : Parse.bodySpan w.token (n :: ms) = n.span.union last.span := by
      simp only [Parse.bodySpan, List.head?_cons, hlast]
    have hlastmem : last ∈ n :: ms := List.mem_of_getLast? hlast
    have hfirst := hc.within (n := n) (by simp) (not_vacant_of_kind (hb n (by simp)))
    have hlast := hc.within hlastmem (not_vacant_of_kind (hb last hlastmem))
    rw [hspan]
    refine (Spread.single (hfirst.union hlast) hc (fun c hm _ => ?_) ?_).give
    · refine Span.inside_union hfirst.somewhere hlast.somewhere ?_ ?_
      · rcases List.mem_cons.mp hm with rfl | hmem
        · exact le_refl _
        · have hlt := ((List.pairwise_cons.mp hc.apart).1 c hmem).lt (hb n (by simp)) (hb c hm)
          exact hfirst.ordered.trans hlt.le
      · have hapart := hc.apart
        rw [hfront, List.pairwise_append] at hapart
        have hmem : c ∈ front ++ [last] := hfront ▸ hm
        rcases List.mem_append.mp hmem with hmem | hmem
        · have hlt := (hapart.2.2 c hmem last (by simp)).lt (hb c hm) (hb last hlastmem)
          exact hlt.le.trans hlast.ordered
        · rw [List.mem_singleton.mp hmem]
    · rintro ⟨names, hkind⟩
      cases hkind

theorem Trace.spread (h : Trace s ns t) (hs : s.InOrder e) : Spread s ns t := by
  induction h with
  | refl => exact .nil _ _
  | pass hr hw => exact .nil _ _
  | tell problem span => exact .nil _ _
  | drop h ih => exact .nil _ _
  | append h h' hadjacent ih ih' => exact (ih hs).append (ih' (hs.onward h.onward)) hs h.onward h'.onward hadjacent
  | apart h hr hw h' ih ih' =>
    have ht := (hs.onward h.onward).onward (.pass hr hw)
    exact (ih hs).apart_of_word (ih' ht) hs h.onward hr hw h'.onward
  | spanning hr h hl hk _ ih =>
    refine .to_before hs h.onward hl (hs.word_within h.onward hl hr) (ih hs) (fun c hc => ?_)
      fun _ => not_handler_of_isPlain hk
    exact (State.InOrder.here_eq hr).symm.trans_le ((ih hs).low c hc)
  | @handler s t w ws ns names hr hw h _ ih =>
    have hpass := Onward.pass hr hw
    have ho := hpass.trans h.onward
    have hl : t.rest.length < s.rest.length := by
      rw [hr]
      exact Nat.lt_succ_of_le h.length_le
    have hword := hs.word_within ho hl hr
    have hbefore := hs.before_within ho hl
    have hspread := ih (hs.onward hpass)
    have hlate : ∀ c ∈ ns, w.token.span.first < c.span.first := fun c hc =>
      (Token.first_le_last _).trans_lt ((hs.onward hpass).behind_lt_here.trans_le (hspread.low c hc))
    refine (Spread.single (hword.union hbefore) hspread (fun c hm hv => ?_) fun _ c hc => ?_).give
    · exact Span.inside_union hword.somewhere hbefore.somewhere (hlate c hm).le (hspread.high_of_not_vacant hm hv)
    · exact (Span.inside_union_left hword.somewhere hbefore.somewhere).first.trans_lt (hlate c hc)
  | malformed hr h hl _ ih =>
    exact .to_before hs h.onward hl (hs.word_within h.onward hl hr) (ih hs) (by simp) (by simp)
  | @leading s t u w ws first ns kind hf hb hr hw h hk _ ih ih' =>
    have hpass := Onward.pass hr hw
    have ht := hs.onward hf.onward
    have ht' := ht.onward hpass
    have hv := not_vacant_of_kind hb
    have hfirst := (ih hs).within (.head _) hv
    have hl : u.rest.length < s.rest.length := by
      have hle := hf.length_le
      rw [hr] at hle
      exact Nat.lt_of_le_of_lt h.length_le hle
    have hall := (ih hs).apart_of_word (ih' ht') hs hf.onward hr hw h.onward
    have hend := hfirst.high.trans ((ht.behind_le hpass).trans (ht'.behind_le h.onward))
    refine .to_before hs (hf.onward.trans (hpass.trans h.onward)) hl ⟨hfirst.somewhere, hfirst.low, hfirst.ordered, hend⟩
      hall (fun c hc => ?_) fun _ => not_handler_of_isPlain hk
    rcases List.mem_cons.mp hc with rfl | hc
    · exact le_refl _
    · have hbehind := (hfirst.ordered.trans hfirst.high).trans (ht.behind_le hpass)
      exact hbehind.trans (ht'.behind_lt_here.le.trans ((ih' ht').low c hc))
  | @joining s t u w ws left right kind hl hb hr hw h hb' hk _ ih ih' =>
    have hpass := Onward.pass hr hw
    have ht := hs.onward hl.onward
    have ht' := ht.onward hpass
    have hall := (ih hs).apart_of_word (ih' ht') hs hl.onward hr hw h.onward
    have hleft := hall.within (n := left) (by simp) (not_vacant_of_kind hb)
    have hright := hall.within (n := right) (by simp) (not_vacant_of_kind hb')
    refine (Spread.single (hleft.union hright) hall (fun c hc _ => ?_) ?_).give
    · rcases List.mem_cons.mp hc with rfl | hc
      · exact Span.inside_union_left hleft.somewhere hright.somewhere
      · rw [List.mem_singleton.mp hc]
        exact Span.inside_union_right hleft.somewhere hright.somewhere
    · rintro ⟨names, hkind⟩
      exact absurd hkind (not_handler_of_isPlain hk)
  | @prefixing s t w ws part kind hr hw h hb hk _ ih =>
    have hpass := Onward.pass hr hw
    have hl : t.rest.length < s.rest.length := by
      rw [hr]
      exact Nat.lt_succ_of_le h.length_le
    have hword := hs.word_within (hpass.trans h.onward) hl hr
    have hspread := ih (hs.onward hpass)
    have hpart := hspread.within (.head _) (not_vacant_of_kind hb)
    have hpart' : part.span.Within s.here t.behind :=
      ⟨hpart.somewhere, (hs.here_le hpass).trans hpart.low, hpart.ordered, hpart.high⟩
    refine (Spread.single (hword.union hpart') hspread (fun c hc _ => ?_) ?_).give
    · rw [List.mem_singleton.mp hc]
      exact Span.inside_union_right hword.somewhere hpart.somewhere
    · rintro ⟨names, hkind⟩
      exact absurd hkind (not_handler_of_isPlain hk)
  | @listing s t ps h hb hl _ ih =>
    have hbefore := hs.before_within h.onward hl
    have hspread := ih hs
    have hps : ∀ a ∈ ps.map Node.span, a.Within s.here t.behind := by
      intro a ha
      obtain ⟨p, hp, rfl⟩ := List.mem_map.mp ha
      exact hspread.within hp (not_vacant_of_kind (hb p hp))
    refine (Spread.single (hbefore.around hps) hspread (fun c hc _ => ?_) ?_).give
    · exact Span.inside_around hbefore hps c.span (.tail _ (List.mem_map_of_mem hc))
    · rintro ⟨names, hkind⟩
      cases hkind
  | body hr h hb _ ih => exact .body hs h.onward hr (ih hs) hb

end Magik.Grammar
