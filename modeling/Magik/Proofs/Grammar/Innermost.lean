/-
  Magik.Proofs.Grammar.Innermost — the node at a position.

  The search goes down from the root, each time to the first part that covers the position.
  Where parts are in order and inside the whole, that is the only part that could lead on, so
  the search ends at or below each node that covers the position (`laid_innermostIn`). Only
  an empty body, at the place where the handler after it begins, can lead it astray.
-/

import Magik.Proofs.Grammar.Places
import Magik.Proofs.Grammar.WellFormed

namespace Magik

open Grammar

namespace Node

variable {n m c p root : Node} {ns as bs : List Node} {line column : Nat}

theorem innermost_eq (line column : Nat) (n : Node) :
    innermost line column n = (innermostIn line column n.children).getD n := by
  cases n
  rw [innermost]

namespace Way

/-- Going up one comes to where one started from. -/
theorem eq_or_mem (h : Way n m bs) : m = n ∨ n ∈ bs := by
  rcases h.cases_root with ⟨rfl, -⟩ | ⟨_, _, _, _, rfl⟩
  · exact .inl rfl
  · exact .inr (by simp)

end Way

theorem exists_of_innermostIn (h : innermostIn line column ns = some m) :
    ∃ c ∈ ns, c.span.contains line column ∧ m = innermost line column c := by
  induction ns with
  | nil => simp [innermostIn] at h
  | cons c ns ih =>
    rw [innermostIn] at h
    split at h
    · exact ⟨c, by simp, ‹_›, (Option.some.inj h).symm⟩
    · obtain ⟨d, hd, hm⟩ := ih h
      exact ⟨d, .tail _ hd, hm⟩

/-- What the search finds in a node is the node or below it. -/
theorem way_innermost (line column : Nat) (n : Node) : ∃ bs, Way n (innermost line column n) bs := by
  induction n using Node.induction_children with
  | node n ih =>
    rw [innermost_eq]
    cases h : innermostIn line column n.children with
    | none => exact ⟨[], .root⟩
    | some m =>
      obtain ⟨c, hc, -, rfl⟩ := exists_of_innermostIn h
      obtain ⟨bs, hw⟩ := ih c hc
      exact ⟨_, hw.under hc⟩

end Node

namespace Grammar

open Node (Way innermost innermostIn)

variable {n m c p root : Node} {ns as bs : List Node} {line column : Nat} {source : String} {tokens : List Token}

/-! ## Going down -/

theorem not_vacant_of_child (h : c ∈ n.children) : ¬ IsVacant n := by
  rintro ⟨-, hnil⟩
  rw [hnil] at h
  cases h

namespace Laid

theorem of_way (h : Laid c) (hw : Way c n as) : Laid n := by
  induction hw with
  | root => exact h
  | child _ hc ih =>
    cases ih with
    | node _ _ children => exact children _ hc

/-- What is below a node is inside of it. -/
theorem inside_of_way (h : Laid c) (hw : Way c n as) (hv : ¬ IsVacant n) : n.span.Inside c.span := by
  induction hw with
  | root => exact .refl _
  | child up hc ih =>
    cases h.of_way up with
    | node _ _ _ inside => exact (inside _ hc hv).trans (ih (not_vacant_of_child hc))

/-- What is below a handler begins after it. -/
theorem first_lt_of_way (h : Laid c) (hh : IsHandler c) (hw : Way c n as) (hne : n ≠ c) (hv : ¬ IsVacant n) :
    c.span.first < n.span.first := by
  rcases hw.cases_root with ⟨rfl, -⟩ | ⟨d, hd, bs, hw, -⟩
  · exact absurd rfl hne
  · cases h with
    | node _ _ children _ _ late => exact (late hh d hd).trans_le ((children d hd).inside_of_way hw hv).first

end Laid

/-- The search goes to the part that covers the position, or to an empty body before it, which is where the
    part begins. -/
theorem innermostIn_cases (hp : ns.Pairwise ComesBefore) (hc : c ∈ ns) (hv : ¬ IsVacant c)
    (hin : c.span.contains line column) :
    innermostIn line column ns = some (innermost line column c) ∨
      ∃ v, innermostIn line column ns = some v ∧ [v, c].Sublist ns ∧ IsVacant v ∧ IsHandler c ∧
        v.span.last = c.span.first ∧ c.span.first = .of line column := by
  induction ns with
  | nil => cases hc
  | cons d ns ih =>
    rw [List.pairwise_cons] at hp
    rw [innermostIn]
    by_cases hd : d.span.contains line column
    · rw [if_pos hd]
      rcases List.mem_cons.mp hc with rfl | hc
      · exact .inl rfl
      have hposition := Span.contains_iff.mp hin
      have hcovers := Span.contains_iff.mp hd
      rcases hp.1 c hc hv with hlt | ⟨hvacant, hhandler, heq⟩
      · exact absurd (hposition.1.trans hcovers.2) (not_le_of_gt hlt)
      · -- an empty body has no parts to go on to
        have hself : innermost line column d = d := by
          rw [Node.innermost_eq, hvacant.2, innermostIn]
          rfl
        refine .inr ⟨d, by rw [hself], ?_, hvacant, hhandler, heq, le_antisymm hposition.1 (hcovers.2.trans_eq heq)⟩
        exact (List.singleton_sublist.mpr hc).cons_cons d
    · rw [if_neg hd]
      have hc : c ∈ ns := (List.mem_cons.mp hc).resolve_left fun he => hd (he ▸ hin)
      rcases ih hp.2 hc with hfound | ⟨v, hfound, hsub, hrest⟩
      · exact .inl hfound
      · exact .inr ⟨v, hfound, hsub.cons d, hrest⟩

/-- An empty body that the search comes to in place of the handler after it. -/
structure Hides (root m n : Node) (line column : Nat) : Prop where
  vacant : IsVacant m
  handler : IsHandler n
  meets : m.span.last = n.span.first
  position : n.span.first = .of line column
  siblings : ∃ p as, Way root p as ∧ [m, n].Sublist p.children

theorem Hides.under (h : Hides c m n line column) (hc : c ∈ root.children) : Hides root m n line column := by
  obtain ⟨p, as, hw, hsub⟩ := h.siblings
  exact ⟨h.vacant, h.handler, h.meets, h.position, p, _, hw.under hc, hsub⟩

theorem laid_innermostIn (hl : ∀ c ∈ root.children, Laid c) (hp : root.children.Pairwise ComesBefore)
    (hw : Way root n as) (hne : n ≠ root) (hv : ¬ IsVacant n) (hin : n.span.contains line column) :
    ∃ m, innermostIn line column root.children = some m ∧ ((∃ bs, Way n m bs) ∨ Hides root m n line column) := by
  induction root using Node.induction_children generalizing as with
  | node root ih =>
    rcases hw.cases_root with ⟨rfl, -⟩ | ⟨c, hc, bs, hw, -⟩
    · exact absurd rfl hne
    have hlaid := hl c hc
    have hposition := Span.contains_iff.mp hin
    have hinside := hlaid.inside_of_way hw hv
    have hcv : ¬ IsVacant c := by
      rcases hw.cases_root with ⟨rfl, -⟩ | ⟨d, hd, -⟩
      · exact hv
      · exact not_vacant_of_child hd
    have hcin : c.span.contains line column :=
      Span.contains_iff.mpr ⟨hinside.first.trans hposition.1, hposition.2.trans hinside.last⟩
    rcases innermostIn_cases hp hc hcv hcin with hfound | ⟨v, hfound, hsub, hvacant, hhandler, hmeets, hfirst⟩
    · by_cases hnc : n = c
      · subst hnc
        exact ⟨_, hfound, .inl (Node.way_innermost line column n)⟩
      · cases hlaid with
        | node _ _ children _ apart =>
          obtain ⟨m, hm, hcases⟩ := ih c hc children apart hw hnc
          refine ⟨m, ?_, hcases.imp_right fun hh => hh.under hc⟩
          rw [hfound, Node.innermost_eq, hm]
          rfl
    · refine ⟨v, hfound, .inr ?_⟩
      have hnc : n = c := by
        by_contra hnc
        have hlt := hlaid.first_lt_of_way hhandler hw hnc hv
        exact absurd (hposition.1.trans_eq hfirst.symm) (not_le_of_gt hlt)
      subst hnc
      exact ⟨hvacant, hhandler, hmeets, hfirst, root, [], .root, hsub⟩

/-! ## Files -/

theorem inOrder_start (h : Token.scan source = .ok tokens) (hr : ∀ t ∈ tokens, '\r' ∉ t.lexeme.toList) :
    ∃ e, (State.start tokens).InOrder e := by
  obtain ⟨e, -, hc⟩ := (endsOnce_of_scan h).closes_start
  have hsub := attachDocs_sublist [] tokens
  exact ⟨e, hc, (Token.inOrder_of_scan h hr).sublist hsub, fun t ht => Token.line_ne_zero_of_scan h t (hsub.subset ht)⟩

/-- The items of a file are in order, and the file is around them. -/
theorem parse_spread (h : Token.scan source = .ok tokens) (hr : ∀ t ∈ tokens, '\r' ∉ t.lexeme.toList) :
    let root := (parse tokens).1.root
    (∀ c ∈ root.children, Laid c) ∧ root.children.Pairwise ComesBefore ∧ ∀ c ∈ root.children, c.span.Inside root.span := by
  intro root
  obtain ⟨e, hs⟩ := inOrder_start h hr
  obtain ⟨items, t, hbears, hparse⟩ := parse_traced tokens
  have hroot : root = ⟨t.next, .file, Span.nowhere.around (items.map Node.span), items⟩ := by simp only [root, hparse]
  have hspread := hbears.trace.spread hs
  rw [hroot]
  refine ⟨hspread.laid, hspread.apart, fun c hc => ?_⟩
  have hwithin : ∀ a ∈ items.map Node.span, a.Within (State.start tokens).here t.behind := by
    intro a ha
    obtain ⟨d, hd, rfl⟩ := List.mem_map.mp ha
    exact hspread.within hd (not_vacant_of_kind (hbears.bodiless d hd))
  exact Span.inside_around_nowhere hwithin _ (List.mem_map_of_mem hc)

/-- The parts of a node below are laid out and in order. -/
theorem laid_children (hl : ∀ c ∈ root.children, Laid c) (hp : root.children.Pairwise ComesBefore) (hw : Way root p as) :
    (∀ c ∈ p.children, Laid c) ∧ p.children.Pairwise ComesBefore := by
  rcases hw.cases_root with ⟨rfl, -⟩ | ⟨c, hc, bs, hw, -⟩
  · exact ⟨hl, hp⟩
  · cases (hl c hc).of_way hw with
    | node _ _ children _ apart => exact ⟨children, apart⟩

theorem IsHandler.kind_ne_body (h : IsHandler n) : n.kind ≠ .body := by
  obtain ⟨names, hk⟩ := h
  simp [hk]

/-- The handler that is hidden is the first of its construct. -/
theorem Hides.adjacent (h : Hides root m n line column) (hf : root.Formed) (hl : ∀ c ∈ root.children, Laid c)
    (hp : root.children.Pairwise ComesBefore) :
    ∃ p as front after, Way root p as ∧ p.kind = .attempt ∧ p.children = front ++ m :: n :: after := by
  obtain ⟨p, as, hw, hsub⟩ := h.siblings
  obtain ⟨hlaid, hapart⟩ := laid_children hl hp hw
  have hm : m ∈ p.children := hsub.subset (by simp)
  have hn : n ∈ p.children := hsub.subset (by simp)
  obtain ⟨names, hnames⟩ := id h.handler
  obtain ⟨hk, front, body, handlers, hchildren, hfront, hfront', hbody, hhandlers⟩ :=
    (hw.formed hf).layout.of_handler hn hnames
  have hmb : m = body := by
    rw [hchildren, List.mem_append, List.mem_cons] at hm
    rcases hm with hm | rfl | hm
    · exact absurd h.vacant.1 (hfront m hm)
    · rfl
    · exact absurd h.vacant.1 (IsHandler.kind_ne_body (hhandlers m hm))
  have hnh : n ∈ handlers := by
    rw [hchildren, List.mem_append, List.mem_cons] at hn
    rcases hn with hn | rfl | hn
    · exact absurd hnames (hfront' n hn names)
    · exact absurd hbody h.handler.kind_ne_body
    · exact hn
  subst hmb
  refine ⟨p, as, front, handlers.tail, hw, hk, ?_⟩
  cases handlers with
  | nil => cases hnh
  | cons first more =>
    rcases List.mem_cons.mp hnh with rfl | hmore
    · exact hchildren
    · -- the first handler would be between the body and the handler that begins where the body is
      rw [hchildren, List.pairwise_append, List.pairwise_cons, List.pairwise_cons] at hapart
      have hfirst := IsHandler.kind_ne_body (hhandlers first (by simp))
      have hordered := (hlaid first (by rw [hchildren]; simp)).ordered
      have hlt := (hapart.2.1.2.1 n hmore).lt hfirst h.handler.kind_ne_body
      have hle : m.span.last ≤ first.span.first :=
        (hapart.2.1.1 first (by simp) (not_vacant_of_kind hfirst)).elim le_of_lt fun hmeets => hmeets.2.2.le
      exact absurd h.meets (ne_of_lt ((hle.trans hordered).trans_lt hlt))

/-- Of the nodes of a file without carriage returns in its tokens, other than empty bodies, none overlaps one
    beside it and each is inside the one around it. At each position, the search finds a node at or below each
    node that covers it. There is one exception: where the body of a try is empty, at the first place of its
    first handler it finds the body. -/
theorem nodeAt_innermost {source : String} {tokens : List Token} (h : Token.scan source = .ok tokens)
    (hr : ∀ t ∈ tokens, '\r' ∉ t.lexeme.toList) :
    let tree := (parse tokens).1
    (∀ p ∈ tree.nodes,
      (p.children.Pairwise fun c d => ¬ IsVacant c → ¬ IsVacant d → c.span.last < d.span.first) ∧
      ∀ c ∈ p.children, ¬ IsVacant c → c.span.Inside p.span) ∧
    ∀ line column, ∀ n ∈ tree.nodes, n ≠ tree.root → ¬ IsVacant n → n.span.contains line column →
      ∃ m, tree.nodeAt? line column = some m ∧
        (m = n ∨ n ∈ tree.ancestors m.number ∨
          IsVacant m ∧ IsHandler n ∧ n.span.first = .of line column ∧
            ∃ p ∈ tree.nodes, p.kind = .attempt ∧ ∃ front after, p.children = front ++ m :: n :: after) := by
  intro tree
  have hfile : tree.FormedFile := parse_formedFile tokens
  obtain ⟨hlaid, hapart, hinside⟩ := parse_spread h hr
  constructor
  · intro p hp
    obtain ⟨as, hw⟩ := SyntaxTree.mem_nodes_iff.mp hp
    obtain ⟨-, hpapart⟩ := laid_children hlaid hapart hw
    refine ⟨hpapart.imp fun hbefore hc hd => (hbefore hd).resolve_right fun hv => hc hv.1, ?_⟩
    rcases hw.cases_root with ⟨rfl, -⟩ | ⟨c, hc, bs, hw, -⟩
    · exact fun c hc _ => hinside c hc
    · cases (hlaid c hc).of_way hw with
      | node _ _ _ inside => exact inside
  · intro line column n hn hne hv hin
    obtain ⟨as, hw⟩ := SyntaxTree.mem_nodes_iff.mp hn
    obtain ⟨m, hm, hcases⟩ := laid_innermostIn hlaid hapart hw hne hv hin
    refine ⟨m, hm, ?_⟩
    rcases hcases with ⟨bs, hbelow⟩ | hhides
    · rcases hbelow.eq_or_mem with rfl | hmem
      · exact Or.inl rfl
      · rw [hfile.ancestors_of_way (hw.trans hbelow)]
        exact Or.inr (Or.inl (List.mem_append_left _ hmem))
    · obtain ⟨p, ps, front, after, hp, hk, hchildren⟩ := hhides.adjacent hfile.formed hlaid hapart
      exact Or.inr (Or.inr ⟨hhides.vacant, hhides.handler, hhides.position, p, SyntaxTree.mem_nodes_iff.mpr ⟨ps, hp⟩, hk,
        front, after, hchildren⟩)

/-- A try with nothing in it, whose handler is on the second line. -/
def emptyTry : List Token :=
  [.word .kwTry 1 1, .word .kwWhen 2 1, .name "error" 2 7,
    .word .kwEndTry 3 1, ⟨.endOfFile, "", 4, 1⟩]

/-- At the name in the handler, which covers it as the try does, the search passes through the try. -/
theorem nodeAt_innermost_emptyTry :
    let tree := (parse emptyTry).1
    Token.scan "_try\n_when error\n_endtry\n" = .ok emptyTry ∧ (∀ t ∈ emptyTry, '\r' ∉ t.lexeme.toList) ∧
    ∃ n ∈ tree.nodes, n ≠ tree.root ∧ n.kind = .attempt ∧ n.span.contains 2 7 ∧
      ∃ m, tree.nodeAt? 2 7 = some m ∧ n ∈ tree.ancestors m.number := by
  intro tree
  have hscan : Token.scan "_try\n_when error\n_endtry\n" = .ok emptyTry := by decide +kernel
  have hr : ∀ t ∈ emptyTry, '\r' ∉ t.lexeme.toList := by decide +kernel
  obtain ⟨n, hn, hne, hk, hin, hother⟩ : ∃ n ∈ tree.nodes, n ≠ tree.root ∧ n.kind = .attempt ∧ n.span.contains 2 7 ∧
      tree.nodeAt? 2 7 ≠ some n := by decide +kernel
  obtain ⟨m, hm, hcases⟩ := (nodeAt_innermost hscan hr).2 2 7 n hn hne (fun hv => by simp [hv.1] at hk) hin
  refine ⟨hscan, hr, n, hn, hne, hk, hin, m, hm, ?_⟩
  rcases hcases with rfl | hmem | ⟨-, ⟨names, hnames⟩, -⟩
  · exact absurd hm hother
  · exact hmem
  · simp [hnames] at hk

/-- At the first place of the handler the search finds the empty body beside it. -/
theorem handler_hidden_by_empty_body :
    let tree := (parse emptyTry).1
    Token.scan "_try\n_when error\n_endtry\n" = .ok emptyTry ∧ (∀ t ∈ emptyTry, '\r' ∉ t.lexeme.toList) ∧
    (parse emptyTry).2 = [] ∧
    ∃ m ∈ tree.nodes, ∃ n ∈ tree.nodes, n ≠ tree.root ∧ n.kind = .handler ["error"] ∧ n.span.contains 2 1 ∧
      tree.nodeAt? 2 1 = some m ∧ m ≠ n ∧ n ∉ tree.ancestors m.number := by
  decide +kernel

end Grammar

end Magik
