/-
  Magik.Proofs.Grammar.Lockstep — every parser of the grammar keeps two runs abreast.

  No parser tells a `$` from the end of the file, except that which reads the items of a
  file and the pragma, which looks for its closing parenthesis past any `$`. Of the places of
  tokens the parsers ask only whether a token starts on the line of the one before it, and, to
  find the end of a malformed statement, whether it starts on a later line than the last one
  that was passed over. One statement for each parser; what it finds is the same but for the
  numbers, and for the places where these differ.
-/

import Magik.Proofs.Grammar.Abreast
import Magik.Proofs.Grammar.Ahead

namespace Magik.Grammar

variable {f : Fork}

/-! ## Looking ahead -/

namespace Fork.Splits

variable {l₁ l₂ : List Word}

section

variable (h : f.Splits l₁ l₂)
include h

theorem head?_any (p : Token.Kind → Bool) (hp : p .dollar = p .endOfFile) :
    (l₁.head?.any fun w => p w.token.kind) = l₂.head?.any fun w => p w.token.kind := by
  rcases h.cases with ⟨-, rfl, rfl⟩ | ⟨w, w', r₁, r₂, rfl, rfl, hw⟩
  · rfl
  · simpa using hw.alike.kind.apply_eq p hp

theorem targetsFollow : Parse.targetsFollow l₁ = Parse.targetsFollow l₂ := by
  -- a name and a separator are read at once, so the lists may also have one more word in front
  suffices Parse.targetsFollow l₁ = Parse.targetsFollow l₂ ∧ ∀ name name', f.SameToken name.token name'.token →
      Parse.targetsFollow (name :: l₁) = Parse.targetsFollow (name' :: l₂) from this.1
  induction h with
  | @part p _ => cases p.more <;> simp [Parse.targetsFollow, p.stop_kind, p.last_kind]
  | done _ => exact ⟨rfl, fun name name' _ => by simp [Parse.targetsFollow]⟩
  | word hw _ _ _ h ih =>
    refine ⟨ih.2 _ _ hw, fun name name' hn => ?_⟩
    rw [Parse.targetsFollow, Parse.targetsFollow, ih.1, h.head?_any (fun k => decide (k = .chevron)) rfl, hn.kind, hw.kind]

theorem handled :
    Parse.handledLength l₁ = Parse.handledLength l₂ ∧ Parse.handledConditions l₁ = Parse.handledConditions l₂ := by
  suffices (Parse.handledLength l₁ = Parse.handledLength l₂ ∧ Parse.handledConditions l₁ = Parse.handledConditions l₂) ∧
      ∀ name name', f.SameToken name.token name'.token →
        Parse.handledLength (name :: l₁) = Parse.handledLength (name' :: l₂) ∧
        Parse.handledConditions (name :: l₁) = Parse.handledConditions (name' :: l₂) from this.1
  induction h with
  | @part p _ =>
    refine ⟨?_, fun name name' hn => ?_⟩ <;> cases p.more <;>
      simp [Parse.handledLength, Parse.handledConditions, p.stop_kind, p.last_kind]
    all_goals simp [hn.kind, hn.lexeme]
  | done _ =>
    refine ⟨⟨rfl, rfl⟩, fun name name' hn => ?_⟩
    simp [Parse.handledLength, Parse.handledConditions, hn.kind, hn.lexeme]
  | word hw _ _ _ h ih =>
    refine ⟨ih.2 _ _ hw, fun name name' hn => ?_⟩
    simp only [Parse.handledLength, Parse.handledConditions, ih.1, hn.kind, hn.lexeme, hw.kind, and_self]

theorem pragmaRest (hf : f.Same) (depth : Nat) :
    Parse.pragmaRest depth l₁ = Parse.pragmaRest depth l₂ := by
  induction h generalizing depth with
  | part hp => cases hf.symm.trans hp
  | done _ => rfl
  | word hw _ _ _ _ ih =>
    rw [Parse.pragmaRest, Parse.pragmaRest]
    simp only [ih, hw.kind]

/-- The kinds of words in front that pass a test. -/
theorem takeWhile {p : Token.Kind → Bool} (hp : f.Same ∨ p .dollar = false ∧ p .endOfFile = false) :
    (l₁.takeWhile fun w => p w.token.kind).map (fun w => w.token.kind) =
      (l₂.takeWhile fun w => p w.token.kind).map fun w => w.token.kind := by
  induction h with
  | @part q hq =>
    obtain ⟨hd, he⟩ := hp.resolve_left fun hf => by cases hf.symm.trans hq
    simp [q.stop_kind, q.last_kind, hd, he]
  | done _ => rfl
  | @word w w' _ _ hw _ _ _ _ ih =>
    rw [List.takeWhile_cons, List.takeWhile_cons, hw.kind]
    by_cases hp : p w'.token.kind = true
    · simp [hp, ih, hw.kind]
    · simp [hp]

theorem toEnd (hf : f.Same) : Parse.toEnd l₁ = Parse.toEnd l₂ := by
  have hk := congrArg List.length (h.takeWhile (p := fun k => k ≠ .endOfFile) (.inl hf))
  simpa [Parse.toEnd] using hk

/-- What was passed in front of what is left, in either list, is nested as deeply. -/
theorem depthAfter {n₁ n₂ : Nat} (hn : n₁ = n₂ + f.extra) (hp : f.Same ∨ 1 ≤ n₂) :
    Grammar.depthAfter (l₁.take (l₁.length - n₁)) = Grammar.depthAfter (l₂.take (l₂.length - n₂)) := by
  rw [h.length, hn, Nat.add_sub_add_right]
  have hle : f.Same ∨ l₂.length - n₂ ≤ l₂.length - 1 := hp.imp id (by omega)
  generalize l₂.length - n₂ = m at hle ⊢
  suffices ∀ d : Int, (l₁.take m).foldl (fun d w => d + nesting w.token.kind) d =
      (l₂.take m).foldl (fun d w => d + nesting w.token.kind) d by rw [Grammar.depthAfter, Grammar.depthAfter, this]
  induction h generalizing m with
  | part hq =>
    have : m = 0 := by simpa using hle.resolve_left fun hf => by cases hf.symm.trans hq
    simp [this]
  | done _ => simp
  | word hw _ _ _ _ ih =>
    intro d
    cases m with
    | zero => rfl
    | succ m =>
      have hm := ih m (hle.imp id fun h => by simp only [List.length_cons] at h; omega)
      simp only [List.take_succ_cons, List.foldl_cons, hw.kind, hm]

end

end Fork.Splits

/-- Two ways to read expressions that keep runs abreast and move on. -/
def Readers (f : Fork) (expr expr' : Parse.ReadsExpression) : Prop :=
  ∀ b precedence, Agree f b true (Twin f) (expr precedence) (expr' precedence)

namespace Agree

variable {b : Bool} {expr expr' : Parse.ReadsExpression} {kind : Node.Kind} {modifier : Modifier} {start start' : List Word}
  {ns' before : List Node} {precedence : Precedence} {left left' : Node} {items items' : List Node}

/-! ## Lists -/

section

variable (hx : Readers f expr expr') {t t' : Token} {ns : List Node} {receiver receiver' : Node}

include hx

theorem expressions : Agree f b true (Twins f) (Parse.expressions expr) (Parse.expressions expr') := by
  refine loop (S := Twins f) (fun vs vs' hvs => ?_) .nil
  refine (hx _ _).bind fun v v' hv => kind.bind fun k k' hk => ?_
  refine ite (hk.eq_iff (by simp) (by simp)) (fun _ => ?_) fun _ => pure (hvs.snoc hv)
  exact skip_one.bind fun _ _ _ => pure (hvs.snoc hv)

omit hx in
/-- Neither a separator nor the end of the list comes next. -/
theorem failAtSeparator {α β : Type} {R : α → β → Prop} {listing : Listing} (ht : f.Alike t t') :
    Agree f b true R (Parse.failWith (.separator listing t.kind) t.span) (Parse.failWith (.separator listing t'.kind) t'.span) :=
  failWith fun h => ⟨by rw [(ht.same h).kind], (ht.same h).span⟩

theorem arguments {close : Token.Kind} (hd : close ≠ .dollar) (he : close ≠ .endOfFile) :
    Agree f b true (Twins f) (Parse.arguments expr close) (Parse.arguments expr' close) := by
  refine kind.bind fun k k' hk => ite (hk.eq_iff hd he) (fun _ => skip_one.bind fun _ _ _ => pure .nil) fun _ => ?_
  refine loop (S := Twins f) (fun vs vs' hvs => ?_) .nil
  refine (skipIf (by simp)).bind fun _ _ _ => (hx _ _).bind fun v v' hv => current.bind fun t t' ht => ?_
  refine ite (ht.eq_iff (by simp) (by simp)) (fun _ => ?_) fun _ => ite (ht.eq_iff hd he) (fun _ => ?_) fun _ =>
    failAtSeparator ht
  · exact skip_one.bind fun _ _ _ => pure (hvs.snoc hv)
  · exact skip_one.bind fun _ _ _ => pure (hvs.snoc hv)

omit hx in
theorem parameter {mode : ParameterMode} :
    Agree f b true (Twin f) (Parse.parameter mode) (Parse.parameter mode) :=
  identifier.bind fun _ _ ht => leaf (m := fun name => .parameter name mode) (fun _ => rfl) ht

omit hx in
theorem parameters {close : Token.Kind} (hd : close ≠ .dollar) (he : close ≠ .endOfFile) :
    Agree f b true (Twins f) (Parse.parameters close) (Parse.parameters close) := by
  refine kind.bind fun k k' hk => ite (hk.eq_iff hd he) (fun _ => skip_one.bind fun _ _ _ => pure .nil) fun _ => ?_
  refine loop (S := fun x y => Twins f x.1 y.1 ∧ x.2 = y.2) ?_ ⟨.nil, rfl⟩
  rintro ⟨ps, mode⟩ ⟨ps', _⟩ ⟨hps, rfl⟩
  refine kind.bind fun k k' hk => ?_
  rw [hk.apply_eq Parse.parameterMode? rfl]
  refine (skipIf rfl).bind fun _ _ _ => parameter.bind fun p p' hp => current.bind fun t t' ht => ?_
  refine ite (ht.eq_iff (by simp) (by simp)) (fun _ => ?_) fun _ => ite (ht.eq_iff hd he) (fun _ => ?_) fun _ =>
    failAtSeparator ht
  · exact skip_one.bind fun _ _ _ => pure ⟨hps.snoc hp, rfl⟩
  · exact skip_one.bind fun _ _ _ => pure (hps.snoc hp)

omit hx in
theorem parameterList {ps ps' : List Node} (h : Twins f ps ps') :
    Agree f true true (Twin f) (Parse.parameterList ps) (Parse.parameterList ps') :=
  previousSpan.bind fun _ _ hs => node (fun hp => by rw [h.spans hp, hs.1 hp]) h rfl nofun

/-! ## Statements -/

theorem valuesHere : Agree f true true (Twins f) (Parse.valuesHere expr) (Parse.valuesHere expr') := by
  refine onSameLine.bindEq fun here => kind.bind fun k k' hk => ite ?_ (fun _ => expressions hx) fun _ => pure .nil
  rw [hk.apply_eq Parse.startsValue rfl]

theorem valueStatement (hk : kind.names = []) :
    Agree f b true (Twin f) (Parse.valueStatement expr kind) (Parse.valueStatement expr' kind) :=
  advance.bind fun _ _ ht => (valuesHere hx).bind fun _ _ hvs => nodeFrom ht.span hvs rfl (by simp [hk])

theorem optionalWith : Agree f true true (Twins f) (Parse.optionalWith expr) (Parse.optionalWith expr') := by
  exact (isKeyword _).bindEq fun _ =>
    ite Iff.rfl (fun _ => skip_one.bind fun _ _ _ => expressions hx) fun _ => pure .nil

theorem jump {kind : Option String → Node.Kind} (hk : ∀ label, (kind label).names = []) :
    Agree f b true (Twin f) (Parse.jump expr kind) (Parse.jump expr' kind) := by
  exact advance.bind fun _ _ ht => optionalLabel.bindEq fun label =>
    (optionalWith hx).bind fun _ _ hvs => nodeFrom ht.span hvs rfl (by simp [hk])

theorem loopBodyStatement : Agree f b true (Twin f) (Parse.loopBodyStatement expr) (Parse.loopBodyStatement expr') :=
  advance.bind fun _ _ ht => (token (by simp) (by simp)).bind fun _ _ _ => (arguments hx (by simp) (by simp)).bind
    fun _ _ h => nodeFrom ht.span h rfl nofun

theorem throwStatement : Agree f b true (Twin f) (Parse.throwStatement expr) (Parse.throwStatement expr') :=
  advance.bind fun _ _ ht => (hx _ _).bind fun _ _ htag => (optionalWith hx).bind fun _ _ hvs =>
    nodeFrom ht.span (.cons htag hvs) rfl nofun

theorem sharedDeclaration {start start' : Span} (hs : f.Spans start start') :
    Agree f true true (Twin f) (Parse.sharedDeclaration expr modifier start)
      (Parse.sharedDeclaration expr' modifier start') := by
  refine skip_one.bind fun _ _ _ => (loop (R := Twins f) (S := Twins f) (c := true) (fun vars vars' hvars => ?_) .nil).bind
    fun vars vars' hvars => ?_
  · refine identifier.bind fun t t' ht => (leaf (fun _ => rfl) ht).bind fun v v' hv => current.bind fun t t' ht => ?_
    refine ite (ht.eq_iff (by simp) (by simp)) (fun _ => ?_) fun _ =>
      ite (ht.eq_iff (by simp) (by simp)) (fun _ => ?_) fun _ => failWith fun h => ⟨rfl, (ht.same h).span⟩
    · exact skip_one.bind fun _ _ _ => pure (hvars.snoc hv)
    · exact skip_one.bind fun _ _ _ => pure (hvars.snoc hv)
  · exact (token (by simp) (by simp)).bind fun _ _ _ => (hx _ _).bind fun _ _ hv => nodeFrom hs (hvars.snoc hv) rfl nofun

theorem declaredVariable :
    Agree f b true (Twin f) (Parse.declaredVariable expr modifier) (Parse.declaredVariable expr' modifier) := by
  refine identifier.bind fun t t' ht => kind.bind fun k k' hk => ite (hk.eq_iff (by simp) (by simp)) (fun _ => ?_) fun _ =>
    leaf (fun _ => rfl) ht
  refine skip_one.bind fun _ _ _ => (hx _ _).bind fun v v' hv => ?_
  exact node (fun hp => by rw [ht.1.span hp, hv.span hp]) (.single hv) (by rw [ht.1.lexeme])
    (by simpa [Node.Kind.names] using ht.2)

theorem declaration : Agree f b true (Twin f) (Parse.declaration expr modifier) (Parse.declaration expr' modifier) := by
  refine advance.bind fun t t' ht => kind.bind fun k k' hk => ite (hk.eq_iff (by simp) (by simp))
    (fun _ => sharedDeclaration hx ht.span) fun _ => ?_
  refine (loop (R := Twins f) (S := Twins f) (c := true) (fun vars vars' hvars => ?_) .nil).bind fun _ _ h =>
    nodeFrom ht.span h rfl nofun
  refine (declaredVariable hx).bind fun v v' hv => kind.bind fun k k' hk => ?_
  refine ite (hk.eq_iff (by simp) (by simp)) (fun _ => ?_) fun _ => pure (hvars.snoc hv)
  exact skip_one.bind fun _ _ _ => pure (hvars.snoc hv)

omit hx in
/-- One of several targets. -/
def targetRound (targets : List Node) : Parse (Parse.Round (List Node) (List Node)) := do
  let t ← Parse.advance
  let target ← Parse.node (.identifier t.lexeme) t.span []
  let targets := targets ++ [target]
  if (← Parse.kind) = .comma then
    Parse.skip 1
    return .again targets
  else
    return .done targets

omit hx in
theorem targets {s₁ s₂ : State} (hf : Parse.targetsFollow s₁.rest) (hs : Abreast f s₁ s₂) (hm : s₂.rest.length < f.origin) :
    AgreeAt f true (Twins f) (Parse.loop targetRound []) (Parse.loop targetRound []) s₁ s₂ := by
  refine loopAt (b := true) (S := Twins f) (I := fun s => Parse.targetsFollow s.rest)
    (fun vs vs' s₁ s₂ hvs hf hs hm => ?_) (fun vs s vs' t hf ht => ?_) .nil hf hs fun _ => hm
  · obtain ⟨name, separator, rest, hr, hk, -⟩ := targetsFollow_cases hf
    refine (advance_name hr hk hs).bind fun t t' u₁ u₂ _ ht ha => ?_
    refine ((leaf (fun _ => rfl) ht).bind fun v v' hv => kind.bind fun k k' hk => ?_) u₁ u₂ ha.abreast ha.moved
    refine ite (hk.eq_iff (by simp) (by simp)) (fun _ => ?_) fun _ => pure (hvs.snoc hv)
    exact skip_one.bind fun _ _ _ => pure (hvs.snoc hv)
  · -- after a comma more of them follow
    obtain ⟨name, separator, rest, hr, hk, hf⟩ := targetsFollow_cases hf
    rcases hf with ⟨hc, hf⟩ | ⟨hc, -⟩
    · simp [targetRound, Parse.bind_apply, Parse.advance, Parse.node, Parse.kind, Parse.current, Parse.skip,
        Parse.pure_apply, hr, hk, hc] at ht
      simpa [← ht.2] using hf
    · simp [targetRound, Parse.bind_apply, Parse.advance, Parse.node, Parse.kind, Parse.current, Parse.pure_apply, hr, hk,
        hc] at ht

theorem multipleAssignment {s₁ s₂ : State} (hf : Parse.targetsFollow s₁.rest.tail)
    (hs : Abreast f s₁ s₂) :
    AgreeAt f true (Twin f) (Parse.multipleAssignment expr) (Parse.multipleAssignment expr') s₁ s₂ := by
  refine (advance (b := false) s₁ s₂ hs (by simp)).bind fun t t' u₁ u₂ hu ht ha => ?_
  have hrest : u₁.rest = s₁.rest.tail := by
    unfold Parse.advance at hu
    split at hu
    · cases hu
    · split at hu <;> cases hu
      simp [*]
  refine (targets (hrest ▸ hf) ha.abreast (ha.moved rfl)).bind fun vs vs' v₁ v₂ _ hvs ha => ?_
  exact ((skip 2).bind fun _ _ _ => (hx _ _).bind fun _ _ hv =>
    nodeFrom ht.span (hvs.snoc hv) rfl (by simp [Node.Kind.names])) v₁ v₂ ha.abreast ha.moved

/-- After a parenthesis there are targets, or an expression. -/
theorem targetsOrExpression : Agree f b true (Twin f)
    (do if Parse.targetsFollow (← Parse.upcoming).tail then Parse.multipleAssignment expr else expr .lowest)
    (do if Parse.targetsFollow (← Parse.upcoming).tail then Parse.multipleAssignment expr' else expr' .lowest) := by
  intro s₁ s₂ hs hm
  refine (upcomingAt hs hm).bind fun l₁ l₂ t₁ t₂ ht hl ha => ?_
  obtain rfl : s₁ = t₁ := by
    unfold Parse.upcoming at ht
    split at ht
    · cases ht
    · split at ht <;> cases ht
      rfl
  obtain ⟨hl, rfl⟩ := hl
  rw [← hl.tail.targetsFollow]
  by_cases hf : Parse.targetsFollow s₁.rest.tail = true
  · rw [if_pos hf, if_pos hf]
    exact multipleAssignment hx hf ha.abreast
  · rw [if_neg hf, if_neg hf]
    exact hx _ _ _ _ ha.abreast ha.moved

theorem statement : Agree f b true (Twin f) (Parse.statement expr) (Parse.statement expr') := by
  refine kind.bind fun k k' hk => ?_
  rcases hk with rfl | ⟨rfl, rfl⟩
  · split
    case h_14 => exact hx _ _
    case h_13 => exact targetsOrExpression hx
    case h_12 => exact throwStatement hx
    case h_11 => exact loopBodyStatement hx
    case h_10 => exact jump hx fun _ => rfl
    case h_9 => exact jump hx fun _ => rfl
    case h_8 => exact valueStatement hx rfl
    case h_7 => exact valueStatement hx rfl
    all_goals exact declaration hx
  · exact hx _ _

/-! ## Recovery -/

omit hx in
theorem leave (h : f.Splits start start') : Agree f b b Eq (Parse.leave start) (Parse.leave start') := by
  refine remaining.bind fun l₁ l₂ hl => ite ?_ (fun _ => skip 1) fun _ => pure rfl
  have := h.length
  have := hl.length
  omega

omit hx in
/-- Only where the cursor has moved from the start does the error node look at the token
    before it. -/
theorem syntaxError (h : Starts f start start') :
    Agree f b b (Twin f) (Parse.syntaxError start) (Parse.syntaxError start') := by
  obtain ⟨w, w', r₁, r₂, rfl, rfl, hw⟩ := h.head
  intro s₁ s₂ hs hm
  have hlen := h.splits.length
  have hrest := hs.rest.length
  change AgreeAt f b (Twin f)
    (if s₁.rest.length < (w :: r₁).length then Parse.nodeFrom .syntaxError w.token.span []
      else Parse.node .syntaxError w.token.span [])
    (if s₂.rest.length < (w' :: r₂).length then Parse.nodeFrom .syntaxError w'.token.span []
      else Parse.node .syntaxError w'.token.span []) s₁ s₂
  by_cases hl : s₂.rest.length < (w' :: r₂).length
  · rw [if_pos hl, if_pos (by omega)]
    exact (nodeFrom hw.span .nil rfl (by simp [Node.Kind.names])).forget s₁ s₂ hs fun _ => Nat.lt_of_lt_of_le hl h.origin
  · rw [if_neg hl, if_neg (by omega)]
    exact (node hw.span .nil rfl (by simp [Node.Kind.names])) s₁ s₂ hs hm

omit hx in
theorem statementRound {x y : Nat × Nat} (hd : x.1 = y.1) (hl : f.line x.2 y.2) :
    Agree f b b (Rounds (fun x y : Nat × Nat => x.1 = y.1 ∧ f.line x.2 y.2) Eq) (Parse.statementRound x)
      (Parse.statementRound y) := by
  obtain ⟨depth, line⟩ := x
  obtain ⟨_, line'⟩ := y
  obtain rfl : depth = _ := hd
  refine current.bind fun t t' ht => ite ?_ (fun _ => pure rfl) fun hk => ?_
  · rcases ht.same_or with ht | ⟨-, h₁, h₂⟩
    · simp only [endsStatement, ht.kind, f.lt_iff hl ht.line]
    · simp [endsStatement, h₁, h₂]
  · have ht := ht.same_of_kind fun hd => hk (by simp [endsStatement, hd])
    exact (skip 1).bind fun _ _ _ => pure ⟨by rw [ht.kind], ht.line⟩

omit hx in
/-- A malformed statement is passed over once a token of it has been, so that the line of the
    last one is known. -/
theorem skipStatement (h : Starts f start start') :
    Agree f true true (Twin f) (Parse.skipStatement start) (Parse.skipStatement start') := by
  refine (leave h.splits).bind fun _ _ _ => remaining.bind fun l₁ l₂ hl => previousSpan.bind fun span span' hspan => ?_
  have hpos : f.Same ∨ 1 ≤ l₂.length := by
    rcases hl.cases with ⟨hf, -⟩ | ⟨_, _, _, _, _, rfl, _⟩
    · exact .inl hf
    · simp
  refine (loop (S := fun x y : Nat × Nat => x.1 = y.1 ∧ f.line x.2 y.2) (R := Eq) (fun x y hxy => statementRound hxy.1 hxy.2)
    ⟨h.splits.depthAfter hl.length hpos, hspan.2⟩).bind fun _ _ _ => syntaxError h

omit hx in
theorem itemRound (x y : Unit) : Agree f b b (Rounds Eq Eq) (Parse.itemRound x) (Parse.itemRound y) :=
  kind.bind fun k k' hk => ite (by rw [hk.apply_eq startsItem rfl]) (fun _ => pure rfl) fun _ =>
    (skip 1).bind fun _ _ _ => pure rfl

omit hx in
theorem skipItem (h : Starts f start start') : Agree f b b (Twin f) (Parse.skipItem start) (Parse.skipItem start') :=
  (leave h.splits).bind fun _ _ _ =>
    (loop (S := Eq) (R := Eq) (fun x y _ => itemRound x y) rfl).bind fun _ _ _ => syntaxError h

/-! ## Bodies -/

theorem bodyRound (hns : Twins f ns ns') :
    Agree f true true (Rounds (Twins f) (Twins f)) (Parse.bodyRound expr ns) (Parse.bodyRound expr' ns') := by
  refine kind.bind fun k k' hk => ite (hk.eq_iff (by simp) (by simp)) (fun _ => ?_) fun _ => ite ?_ (fun _ => ?_) fun _ => ?_
  · exact (skip 1).bind fun _ _ _ => pure hns
  · rcases hk with rfl | ⟨rfl, rfl⟩
    · rfl
    · simp
  · exact pure hns
  · refine upcoming.bind fun start start' hstart => (attempt (statement hx)).bind fun o o' ho => ?_
    match o, o', ho with
    | some v, some v', hv => exact pure (hns.snoc hv)
    | none, none, _ => exact (skipStatement hstart).bind fun v v' hv => pure (hns.snoc hv)

omit hx in
theorem bodySpan (ht : f.Alike t t') (hns : Twins f ns ns') : f.Spans (Parse.bodySpan t ns) (Parse.bodySpan t' ns') := by
  intro hp
  have hspans := hns.spans hp
  have hhead : ns.head?.map Node.span = ns'.head?.map Node.span := by simp only [← List.head?_map, hspans]
  have hlast : ns.getLast?.map Node.span = ns'.getLast?.map Node.span := by simp only [← List.getLast?_map, hspans]
  unfold Parse.bodySpan
  rw [(ht.place hp).1, (ht.place hp).2]
  cases hn : ns.head? <;> cases hn' : ns'.head? <;> cases hm : ns.getLast? <;> cases hm' : ns'.getLast? <;> simp_all

theorem body : Agree f true true (Twin f) (Parse.body expr) (Parse.body expr') :=
  current.bind fun _ _ ht => (loop (fun _ _ => bodyRound hx) .nil).bind fun _ _ hns =>
    node (bodySpan ht hns) hns rfl nofun

/-! ## Constructs -/

theorem procedure {isIterator : Bool} :
    Agree f b true (Twin f) (Parse.procedure expr isIterator) (Parse.procedure expr' isIterator) := by
  refine advance.bind fun _ _ ht => optionalLabel.bindEq fun name =>
    (token (by simp) (by simp)).bind fun _ _ _ => (parameters (by simp) (by simp)).bind fun ps ps' hps => ?_
  exact (parameterList hps).bind fun list list' hl => doc.bindEq fun lines =>
    (body hx).bind fun _ _ hb => closing.bind fun _ _ _ => nodeFrom ht.span (.cons hl (.single hb)) rfl nofun

theorem branches {start start' : Span} (hs : f.Spans start start') :
    Agree f true true (Twins f) (Parse.branches expr start) (Parse.branches expr' start') := by
  refine loop (S := fun x y => Twins f x.1 y.1 ∧ f.Spans x.2 y.2) ?_ ⟨.nil, hs⟩
  rintro ⟨bs, opening⟩ ⟨bs', opening'⟩ ⟨hbs, hs⟩
  refine (hx _ _).bind fun c c' hc => keyword.bind fun _ _ _ => (body hx).bind fun _ _ hb => ?_
  refine (nodeFrom hs (.cons hc (.single hb)) rfl (by simp [Node.Kind.names])).bind fun v v' hv => (isKeyword _).bindEq fun _ =>
    ite Iff.rfl (fun _ => advance.bind fun _ _ ht => ?_) fun _ => pure (hbs.snoc hv)
  exact pure ⟨hbs.snoc hv, ht.span⟩

theorem otherwise : Agree f true true (Twins f) (Parse.otherwise expr) (Parse.otherwise expr') := by
  refine (isKeyword _).bindEq fun _ => ite Iff.rfl (fun _ => advance.bind fun _ _ ht => ?_) fun _ => pure .nil
  exact (body hx).bind fun _ _ hb => (nodeFrom ht.span (.single hb) rfl (by simp [Node.Kind.names])).bind fun _ _ hv =>
    pure (.single hv)

theorem conditional : Agree f b true (Twin f) (Parse.conditional expr) (Parse.conditional expr') :=
  advance.bind fun _ _ ht => (branches hx ht.span).bind fun _ _ hbs => (otherwise hx).bind fun _ _ ho =>
    closing.bind fun _ _ _ => nodeFrom ht.span (hbs.append ho) rfl nofun

theorem forLoop : Agree f b true (Twin f) (Parse.forLoop expr) (Parse.forLoop expr') := by
  refine advance.bind fun _ _ ht => ?_
  refine (loop (R := Twins f) (S := Twins f) (c := true) (fun vars vars' hvars => ?_) .nil).bind fun vars vars' hvars => ?_
  · refine identifier.bind fun t t' ht => (leaf (fun _ => rfl) ht).bind fun v v' hv => kind.bind fun k k' hk => ?_
    refine ite (hk.eq_iff (by simp) (by simp)) (fun _ => ?_) fun _ => pure (hvars.snoc hv)
    exact skip_one.bind fun _ _ _ => pure (hvars.snoc hv)
  exact keyword.bind fun _ _ _ => (hx _ _).bind fun i i' hi => keyword.bind fun _ _ _ => optionalLabel.bindEq fun label =>
    (body hx).bind fun _ _ hb => closing.bind fun _ _ _ =>
    nodeFrom ht.span (hvars.append (.cons hi (.single hb))) rfl nofun

theorem whileLoop : Agree f b true (Twin f) (Parse.whileLoop expr) (Parse.whileLoop expr') := by
  exact advance.bind fun _ _ ht => (hx _ _).bind fun c c' hc => keyword.bind fun _ _ _ => optionalLabel.bindEq fun label =>
    (body hx).bind fun _ _ hb => closing.bind fun _ _ _ => nodeFrom ht.span (.cons hc (.single hb)) rfl nofun

theorem plainLoop : Agree f b true (Twin f) (Parse.plainLoop expr) (Parse.plainLoop expr') := by
  exact advance.bind fun _ _ ht => optionalLabel.bindEq fun label =>
    (body hx).bind fun _ _ hb => closing.bind fun _ _ _ => nodeFrom ht.span (.single hb) rfl nofun

theorem block : Agree f b true (Twin f) (Parse.block expr) (Parse.block expr') :=
  advance.bind fun _ _ ht => optionalLabel.bind fun _ _ _ => (body hx).bind fun _ _ hb => closing.bind fun _ _ _ =>
    nodeFrom ht.span (.single hb) rfl nofun

theorem protect : Agree f b true (Twin f) (Parse.protect expr) (Parse.protect expr') :=
  advance.bind fun _ _ ht => (body hx).bind fun _ _ hb => closing.bind fun _ _ _ => (body hx).bind fun _ _ hl =>
    closing.bind fun _ _ _ => nodeFrom ht.span (.cons hb (.single hl)) rfl nofun

omit hx in
theorem attemptVariable : Agree f true true (Twins f) Parse.attemptVariable Parse.attemptVariable := by
  refine (isKeyword _).bindEq fun _ => ite Iff.rfl (fun _ => ?_) fun _ => pure .nil
  exact skip_one.bind fun _ _ _ => identifier.bind fun _ _ ht => (leaf (fun _ => rfl) ht).bind fun _ _ hv =>
    pure (.single hv)

theorem handlers : Agree f true true (Twins f) (Parse.handlers expr) (Parse.handlers expr') := by
  refine loop (S := Twins f) (fun hs hs' hhs => (isKeyword _).bind ?_) .nil
  rintro _ _ rfl
  refine ite Iff.rfl (fun _ => advance.bind fun _ _ ht => remaining.bind fun l₁ l₂ hl => ?_) fun _ => pure hhs
  rw [hl.handled.1, hl.handled.2]
  exact (skip _).bind fun _ _ _ => (body hx).bind fun _ _ hb =>
    (nodeFrom ht.span (.single hb) rfl (by simp [Node.Kind.names])).bind fun _ _ hv =>
    pure (hhs.snoc hv)

theorem attemptConstruct : Agree f b true (Twin f) (Parse.attemptConstruct expr) (Parse.attemptConstruct expr') :=
  advance.bind fun _ _ ht => attemptVariable.bind fun _ _ hv => (body hx).bind fun _ _ hb => (handlers hx).bind fun _ _ hhs =>
    closing.bind fun _ _ _ => nodeFrom ht.span ((hv.append (.single hb)).append hhs) rfl nofun

theorem guarded {word : Keyword} {wanted : Wanted} (hk : kind.names = []) :
    Agree f b true (Twin f) (Parse.guarded expr kind word wanted) (Parse.guarded expr' kind word wanted) :=
  advance.bind fun _ _ ht => (hx _ _).bind fun _ _ hg => (body hx).bind fun _ _ hb => closing.bind fun _ _ _ =>
    nodeFrom ht.span (.cons hg (.single hb)) rfl (by simp [hk])

/-! ## Operands -/

theorem unaryOperation {operator : UnaryOperator} :
    Agree f b true (Twin f) (Parse.unaryOperation expr operator precedence)
      (Parse.unaryOperation expr' operator precedence) :=
  advance.bind fun _ _ ht => (hx _ _).bind fun _ _ hv =>
    node (fun hp => by rw [ht.span hp, hv.span hp]) (.single hv) rfl nofun

omit hx in
theorem globalReference : Agree f b true (Twin f) Parse.globalReference Parse.globalReference :=
  advance.bind fun _ _ ht => identifier.bind fun _ _ hname =>
    node (fun hp => by rw [ht.span hp, hname.1.span hp]) .nil (by rw [hname.1.lexeme]) nofun

theorem parenthesised : Agree f b true (Twin f) (Parse.parenthesised expr) (Parse.parenthesised expr') :=
  skip_one.bind fun _ _ _ => (hx _ _).bind fun _ _ hv => (token (by simp) (by simp)).bind fun _ _ _ => pure hv

theorem vector : Agree f b true (Twin f) (Parse.vector expr) (Parse.vector expr') :=
  advance.bind fun _ _ ht => (arguments hx (by simp) (by simp)).bind fun _ _ h => nodeFrom ht.span h rfl nofun

omit hx in
theorem unexpected : Agree f b true (Twin f) Parse.unexpected Parse.unexpected :=
  current.bind fun _ _ ht => failWith fun h => ⟨(ht.same h).message_unexpected, (ht.same h).span⟩

theorem operand : Agree f b true (Twin f) (Parse.operand expr) (Parse.operand expr') := by
  refine current.bind fun t t' ht => ?_
  rcases ht.same_or with ht | ⟨-, h₁, h₂⟩
  · rw [← ht.kind]
    split
    · exact skip_one.bind fun _ _ _ => node ht.span .nil rfl nofun
    split
    case h_1 hk => exact skip_one.bind fun _ _ _ => leaf (fun _ => rfl) ⟨ht, ht.name hk⟩
    case h_2 => exact globalReference
    case h_3 => exact parenthesised hx
    case h_4 => exact vector hx
    case h_9 => exact procedure hx
    case h_10 =>
      refine upcoming.bind fun l₁ l₂ hl => ite ?_ (fun _ => skip_one.bind fun _ _ _ => procedure hx) fun _ => unexpected
      rw [hl.tail.head?_any (fun k => decide (k = .keyword .kwProc)) rfl]
    case h_11 => exact conditional hx
    case h_12 => exact forLoop hx
    case h_13 => exact whileLoop hx
    case h_14 => exact plainLoop hx
    case h_15 => exact block hx
    case h_16 => exact protect hx
    case h_17 => exact attemptConstruct hx
    case h_18 => exact guarded hx rfl
    case h_19 => exact guarded hx rfl
    case h_20 => exact unexpected
    all_goals exact unaryOperation hx
  · rw [h₁, h₂]
    exact unexpected

/-! ## What follows an operand -/

theorem assignedValue :
    Agree f true true (fun x y => x.1 = y.1 ∧ Twins f x.2 y.2) (Parse.assignedValue expr) (Parse.assignedValue expr') := by
  refine current.bind fun t t' ht => ite ?_ (fun hk => ?_) fun _ => pure ⟨rfl, .nil⟩
  · rw [ht.eq_iff (by simp) (by simp), ht.eq_iff (by simp) (by simp)]
  · have ht := ht.same_of_kind fun hd => by simp [hd] at hk
    exact skip_one.bind fun _ _ _ => (hx _ _).bind fun _ _ hv => pure ⟨ht.lexeme, .single hv⟩

theorem argumentsHere : Agree f true true (Twins f) (Parse.argumentsHere expr) (Parse.argumentsHere expr') := by
  refine onSameLine.bindEq fun here => kind.bind fun k k' hk => ite ?_ (fun _ => ?_) fun _ => pure .nil
  · simp only [hk.eq_iff (j := .leftParen) (by simp) (by simp)]
  · exact skip_one.bind fun _ _ _ => arguments hx (by simp) (by simp)

theorem invocation (hr : Twin f receiver receiver') :
    Agree f true true (Twin f) (Parse.invocation expr receiver) (Parse.invocation expr' receiver') := by
  refine skip_one.bind fun _ _ _ => identifier.bind fun name name' hname => (argumentsHere hx).bind fun args args' hargs =>
    (assignedValue hx).bind ?_
  rintro ⟨chevron, value⟩ ⟨_, value'⟩ ⟨rfl, hv⟩
  exact nodeFrom hr.span ((Twins.cons hr hargs).append hv) (by rw [hname.1.lexeme]) nofun

theorem indexing (hr : Twin f receiver receiver') :
    Agree f true true (Twin f) (Parse.indexing expr receiver) (Parse.indexing expr' receiver') := by
  refine skip_one.bind fun _ _ _ => (arguments hx (by simp) (by simp)).bind fun args args' hargs =>
    (assignedValue hx).bind ?_
  rintro ⟨chevron, value⟩ ⟨_, value'⟩ ⟨rfl, hv⟩
  exact nodeFrom hr.span ((Twins.cons hr hargs).append hv) rfl nofun

theorem call {callee callee' : Node} (hc : Twin f callee callee') :
    Agree f true true (Twin f) (Parse.call expr callee) (Parse.call expr' callee') :=
  skip_one.bind fun _ _ _ => (arguments hx (by simp) (by simp)).bind fun _ _ hargs =>
    nodeFrom hc.span (.cons hc hargs) rfl nofun

omit hx in
theorem operationNode {right right' : Node} (hk : kind.names = []) (hl : Twin f left left') (hr : Twin f right right') :
    Agree f b b (Twin f) (Parse.operationNode left right kind) (Parse.operationNode left' right' kind) :=
  node (fun hp => by rw [hl.span hp, hr.span hp]) (.cons hl (.single hr)) rfl (by simp [hk])

theorem assignmentTo (hk : kind.names = []) (hl : Twin f left left') :
    Agree f true true (Twin f) (Parse.assignmentTo expr left kind) (Parse.assignmentTo expr' left' kind) := by
  refine (hx _ _).bind fun right right' hr => ite ?_ (fun _ => operationNode hk hl hr) fun _ => failWith fun _ => ⟨rfl, hl.span⟩
  rw [Node.identifierName?, Node.identifierName?, hl.kind]

theorem operation {op : Operation} (hl : Twin f left left') :
    Agree f true true (Twin f) (Parse.operation expr left op) (Parse.operation expr' left' op) := by
  refine skip_one.bind fun _ _ _ => ?_
  cases op with
  | assign | augment operator => exact assignmentTo hx rfl hl
  | combine operator => exact (hx _ _).bind fun _ _ hr => operationNode rfl hl hr

theorem extend (hl : Twin f left left') :
    Agree f true true (Rounds (Twin f) (Twin f)) (Parse.extend expr precedence left)
      (Parse.extend expr' precedence left') := by
  refine kind.bind fun k k' hk => onSameLine.bind ?_
  rintro here _ rfl
  rcases hk with rfl | ⟨rfl, rfl⟩
  · refine ite Iff.rfl (fun _ => (invocation hx hl).bind fun _ _ h => pure h) fun _ => ?_
    refine ite Iff.rfl (fun _ => (call hx hl).bind fun _ _ h => pure h) fun _ => ?_
    refine ite Iff.rfl (fun _ => (indexing hx hl).bind fun _ _ h => pure h) fun _ => ?_
    split
    · exact pure hl
    · exact ite Iff.rfl (fun _ => pure hl) fun _ => (operation hx hl).bind fun _ _ h => pure h
  · simp only [reduceCtorEq, if_false, false_and]
    exact pure hl

theorem expressionWith :
    Agree f b true (Twin f) (Parse.expressionWith expr precedence) (Parse.expressionWith expr' precedence) :=
  (operand hx).bind fun _ _ hv => loop (fun _ _ => extend hx) hv

end

/-- The knot is tied by what is left to the second run: inner expressions are read where
    less is left, or else it has a fault. -/
theorem readers_expression : Readers f Parse.expression Parse.expression := by
  intro b precedence s₁ s₂ hs hm
  induction hn : s₂.rest.length using Nat.strongRecOn generalizing b precedence s₁ s₂ with
  | _ n ih =>
    have inner : Readers f
        (fun p t => if t.rest.length < s₁.rest.length then Parse.expression p t else .fault .noProgress)
        (fun p t => if t.rest.length < s₂.rest.length then Parse.expression p t else .fault .noProgress) := by
      intro b p t₁ t₂ ht hm'
      have h₁ := hs.rest.length
      have h₂ := ht.rest.length
      by_cases hl : t₂.rest.length < s₂.rest.length
      · have hl' : t₁.rest.length < s₁.rest.length := by omega
        have : AgreeAt f true (Twin f) (Parse.expression p) (Parse.expression p) t₁ t₂ :=
          ih t₂.rest.length (by omega) _ _ t₁ t₂ ht hm' rfl
        simpa only [AgreeAt, hl, hl', if_true] using this
      · simp only [AgreeAt, hl, if_false]
    have : AgreeAt f true (Twin f) (Parse.expressionWith _ precedence) (Parse.expressionWith _ precedence) s₁ s₂ :=
      expressionWith inner s₁ s₂ hs hm
    unfold AgreeAt at this ⊢
    rw [Parse.expression, Parse.expression]
    exact this

/-! ## Items -/

theorem packageItem : Agree f b true (Twin f) Parse.packageItem Parse.packageItem :=
  advance.bind fun _ _ ht => identifier.bind fun _ _ hname =>
    node (fun hp => by rw [ht.span hp, hname.1.span hp]) .nil (by rw [hname.1.lexeme]) nofun

/-- A pragma sees all that is left, so it does the same only where the lists do not part. -/
theorem pragma (hf : f.Same) : Agree f b true Eq Parse.pragma Parse.pragma := by
  refine skip_one.bind fun _ _ _ => (token (by simp) (by simp)).bind fun _ _ _ => remaining.bind fun l₁ l₂ hl => ?_
  rw [hl.pragmaRest hf, hl.toEnd hf]
  split
  · exact skip _
  · exact (skip _).bind fun _ _ _ => fail

theorem parametersHere : Agree f true true (Twins f) Parse.parametersHere Parse.parametersHere := by
  refine onSameLine.bindEq fun here => kind.bind fun k k' hk => ite ?_ (fun _ => ?_) fun _ => pure .nil
  · simp only [hk.eq_iff (j := .leftParen) (by simp) (by simp)]
  · exact skip_one.bind fun _ _ _ => parameters (by simp) (by simp)

theorem methodSignature :
    Agree f true true (fun x y => x.1 = y.1 ∧ Twins f x.2 y.2) Parse.methodSignature Parse.methodSignature := by
  refine current.bind fun t t' ht => ite (ht.eq_iff (by simp) (by simp)) (fun _ => ?_) fun _ =>
    ite (ht.eq_iff (by simp) (by simp)) (fun _ => ?_) fun _ => failWith fun h => ⟨rfl, (ht.same h).span⟩
  · exact skip_one.bind fun _ _ _ => identifier.bind fun _ _ hname => parametersHere.bind fun _ _ hps =>
      pure ⟨hname.1.lexeme, hps⟩
  · exact skip_one.bind fun _ _ _ => (parameters (by simp) (by simp)).bind fun _ _ hps => pure ⟨rfl, hps⟩

theorem assignedParameter :
    Agree f true true (fun x y => x.1 = y.1 ∧ Twins f x.2 y.2) Parse.assignedParameter Parse.assignedParameter := by
  refine current.bind fun t t' ht => ite ?_ (fun hk => ?_) fun _ => pure ⟨rfl, .nil⟩
  · rw [ht.eq_iff (by simp) (by simp), ht.eq_iff (by simp) (by simp)]
  · have ht := ht.same_of_kind fun hd => by simp [hd] at hk
    exact skip_one.bind fun _ _ _ => parameter.bind fun _ _ hv => pure ⟨ht.lexeme, .single hv⟩

theorem methodItem {start start' : Span} (hs : f.Spans start start') :
    Agree f b true (Twin f) (Parse.methodItem start) (Parse.methodItem start') := by
  refine doc.bindEq fun linesBefore => remaining.bind fun l₁ l₂ hl => ?_
  dsimp only
  rw [hl.takeWhile (p := Parse.isMethodModifier) (Or.inr ⟨rfl, rfl⟩)]
  refine (skip _).bind fun _ _ _ => keyword.bind fun _ _ _ => identifier.bind fun exemplar exemplar' hexemplar => ?_
  refine methodSignature.bind ?_
  rintro ⟨name, ps⟩ ⟨_, ps'⟩ ⟨rfl, hps⟩
  refine assignedParameter.bind ?_
  rintro ⟨chevron, value⟩ ⟨_, value'⟩ ⟨rfl, hv⟩
  refine (parameterList (hps.append hv)).bind fun list list' hlist => doc.bindEq fun linesInside =>
    (body readers_expression).bind fun _ _ hc => closing.bind fun _ _ _ => ?_
  exact nodeFrom hs (.cons hlist (.single hc)) (by rw [hexemplar.1.lexeme])
    (by simpa [Node.Kind.names] using hexemplar.2)

theorem item : Agree f b true (Options (Twin f)) Parse.item Parse.item := by
  have made {p q : Parse Node} (h : Agree f b true (Twin f) p q) :
      Agree f b true (Options (Twin f)) (do return some (← p)) (do return some (← q)) :=
    h.bind fun _ _ h => pure h
  refine current.bind fun t t' ht => ?_
  have hpragma := ht.pragma
  rcases ht.same_or with ht | ⟨-, h₁, h₂⟩
  · rw [← ht.kind]
    split
    · exact made packageItem
    · exact (pragma (hpragma ‹_›)).bind fun _ _ _ => pure trivial
    · exact made (methodItem ht.span)
    · exact made (methodItem ht.span)
    · exact made (methodItem ht.span)
    · refine upcoming.bind fun l₁ l₂ hl => ite ?_ (fun _ => made (methodItem ht.span)) fun _ =>
        made (statement readers_expression)
      rw [hl.tail.head?_any Parse.continuesMethod rfl]
    · exact made (statement readers_expression)
  · rw [h₁, h₂]
    exact made (statement readers_expression)

/-- The first run has read some items before; the others are the same. -/
def Behind (f : Fork) (before ns ns' : List Node) : Prop := ∃ ms, ns = before ++ ms ∧ Twins f ms ns'

theorem Behind.snoc {ns : List Node} {n n' : Node} (h : Behind f before ns ns') (hn : Twin f n n') :
    Behind f before (ns ++ [n]) (ns' ++ [n']) := by
  obtain ⟨ms, rfl, hms⟩ := h
  exact ⟨ms ++ [n], by simp, hms.snoc hn⟩

theorem addItem (hi : Behind f before items items') :
    Agree f b b (Behind f before) (Parse.addItem items) (Parse.addItem items') := by
  refine upcoming.bind fun start start' hstart => (attempt item).bind fun o o' ho => ?_
  match o, o', ho with
  | some (some v), some (some v'), hv => exact pure (hi.snoc hv)
  | some none, some none, _ => exact pure hi
  | none, none, _ => exact (skipItem hstart).bind fun v v' hv => pure (hi.snoc hv)

/-- Before the lists part a round does the same; where they do not part, also at the end. -/
theorem fileRound {s₁ s₂ : State} (hs : Abreast f s₁ s₂)
    (hend : ∀ w r, s₂.rest = w :: r → w.token.kind = .endOfFile → f.Same) (hi : Behind f before items items') :
    AgreeAt f false (Rounds (Behind f before) (Behind f before)) (Parse.fileRound items) (Parse.fileRound items')
      s₁ s₂ := by
  unfold Parse.fileRound
  rcases hs.rest.cases with ⟨-, h₁, h₂⟩ | ⟨w, w', r₁, r₂, h₁, h₂, hw⟩
  · simp [AgreeAt, Parse.bind_apply, Parse.kind, Parse.current, h₁, h₂]
  have hk : w.token.kind = w'.token.kind := by
    rcases hw.alike.same_or with h | ⟨hf, -, he⟩
    · exact h.kind
    · exact absurd (hend w' r₂ h₂ he) hf
  rw [AgreeAt.kind h₁ h₂, hk]
  refine Agree.here (ite Iff.rfl (fun _ => pure hi) fun _ => ?_) hs
  exact ite Iff.rfl (fun _ => (skip 1).bind fun _ _ _ => pure hi) fun _ => (addItem hi).bind fun _ _ h => pure h

theorem file (hf : f.Same) : Agree f false false (Twin f) Parse.file Parse.file := by
  refine (loop (R := Behind f []) (S := Behind f []) (b := false) (c := false) ?_ ⟨[], rfl, .nil⟩).bind fun items items' hi => ?_
  · exact fun _ _ hi s₁ s₂ hs _ => fileRound hs (fun _ _ _ _ => hf) hi
  · obtain ⟨_, rfl, hi⟩ := hi
    exact node (fun hp => by rw [hi.spans hp]) hi rfl nofun

end Agree

/-! ## Layouts -/

/-- Lists that hold the same words, in places of which only the order of lines is the same. -/
def Fork.layouts (line : Nat → Nat → Prop) (lt_iff : ∀ {a a' b b'}, line a a' → line b b' → (a < b ↔ a' < b'))
    (name : String → Prop) (origin : Nat) : Fork where
  parting := none
  placed := false
  line := line
  name := name
  shift := 0
  before := []
  origin := origin
  lt_iff := lt_iff
  parting_line := by simp

/-- Unless the second run has a fault, both find the same, but for the places. -/
theorem parse_layouts {line : Nat → Nat → Prop} {lt_iff : ∀ {a a' b b'}, line a a' → line b b' → (a < b ↔ a' < b')}
    {name : String → Prop} {tokens tokens' : List Token}
    (h : (Fork.layouts line lt_iff name (attachDocs [] tokens').length).Splits (attachDocs [] tokens) (attachDocs [] tokens')) :
    (∃ e, Parse.file (.start tokens') = .fault e) ∨ (∀ e, Parse.file (.start tokens) ≠ .fault e) ∧
      (parse tokens).1.root.unplaced = (parse tokens').1.root.unplaced ∧ (parse tokens).1.root.Names name ∧
      (parse tokens).1.arena.map Slot.unplaced = (parse tokens').1.arena.map Slot.unplaced ∧
      (parse tokens).2.map Diagnostic.said = (parse tokens').2.map Diagnostic.said := by
  have hstart : Abreast (Fork.layouts line lt_iff name (attachDocs [] tokens').length) (.start tokens) (.start tokens') :=
    ⟨h, rfl, fun _ => rfl, ⟨[], rfl, .nil⟩, Nat.le_refl _, fun hlt => absurd hlt (Nat.lt_irrefl _)⟩
  have hsame : (Fork.layouts line lt_iff name (attachDocs [] tokens').length).Same := rfl
  have hfile := Agree.here (Agree.file hsame) hstart
  unfold AgreeAt at hfile
  unfold parse
  cases hq : Parse.file (.start tokens') <;> cases hp : Parse.file (.start tokens) <;> simp only [hp, hq] at hfile ⊢
  case fault.found => exact .inl ⟨_, rfl⟩
  case fault.gaveUp => exact .inl ⟨_, rfl⟩
  case fault.fault => exact .inl ⟨_, rfl⟩
  case gaveUp.gaveUp => simpa using Node.names_of_children (by simp [Node.Kind.names]) (by simp)
  case found.found root' s' root s =>
    obtain ⟨ha, hroot⟩ := hfile
    obtain ⟨new, hnew, hreports⟩ := ha.abreast.reported
    refine .inr ⟨by simp, ?_, hroot.names, Array.ext_getElem? fun i => ?_, ?_⟩
    · simpa [Fork.seen, Fork.layouts, Node.renumber_id] using hroot.seen
    · have hslot : s.arena[i]?.map Slot.unplaced = (s'.arena[i]?.map (Slot.renumber fun k => k)).map Slot.unplaced :=
        ha.abreast.arena i
      rw [Array.getElem?_map, Array.getElem?_map, hslot, Slot.renumber_id, Option.map_id]
      rfl
    · rw [hnew]
      exact List.forall₂_eq_eq_eq ▸ (List.forall₂_map_left_iff.mpr (List.forall₂_map_right_iff.mpr
        (hreports.imp fun _ _ h => (h rfl).1)))

end Magik.Grammar
