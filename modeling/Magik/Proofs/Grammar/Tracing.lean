/-
  Magik.Proofs.Grammar.Tracing — what each parser of the grammar does.

  One statement for each parser, from any state: it leaves a trace, what it finds is of the
  kind that is asked for where it is used, and what it passes without reporting anything is
  nested in whatever encloses it (`Bears`). A parser that starts at the word that opens an
  enclosure passes the word that closes it, or reports that it is missing. The rules read
  the expressions inside through `expr`, which has to do the same (`ReadsExpressions`);
  `expression` does, by induction on what is left.

  A body ends only where a construct may be closed or divided, and a body that begins there
  is empty (`body_of_endsBody`): so where the keyword between the two bodies of a construct
  is missing, the second is empty.
-/

import Magik.Proofs.Grammar.Nested

namespace Magik.Grammar

open Node (Layout)

variable {k : Token.Kind}

/-! ## Kinds of trees -/

def IsExpression (n : Node) : Prop := n.kind.isExpression

def IsStatement (n : Node) : Prop := n.kind.isStatement

def IsItem (n : Node) : Prop := n.kind.isItem

def IsParameter (n : Node) : Prop := ∃ name mode, n.kind = .parameter name mode

def IsParameterList (n : Node) : Prop := n.kind = .parameterList

def IsDeclared (n : Node) : Prop := ∃ name, n.kind = .declared name

/-- A declared name without a value of its own. -/
def IsBare (n : Node) : Prop := IsDeclared n ∧ n.children = []

def IsName (n : Node) : Prop := ∃ name, n.kind = .identifier name

def IsBranch (n : Node) : Prop := n.kind = .branch

def IsOtherwise (n : Node) : Prop := n.kind = .otherwise

def IsLoopVariable (n : Node) : Prop := ∃ name, n.kind = .loopVariable name

def IsAttemptVariable (n : Node) : Prop := ∃ name, n.kind = .attemptVariable name

/-! ## Words that enclose nothing -/

/-- The token encloses and ends nothing. -/
structure IsOrdinary (k : Token.Kind) : Prop where
  ordinary : bracketing k = .ordinary
  inside : k ≠ .endOfFile

theorem isOrdinary_of_parameterMode (h : (Parse.parameterMode? k).isSome) : IsOrdinary k := by
  unfold Parse.parameterMode? at h
  split at h
  · exact ⟨rfl, by simp⟩
  · exact ⟨rfl, by simp⟩
  · cases h

theorem isOrdinary_of_literal {value : Literal} (h : Parse.literal? k = some value) : IsOrdinary k := by
  refine ⟨?_, fun hk => by rw [hk] at h; cases h⟩
  fun_cases bracketing k
  case case30 => rfl
  all_goals cases h

theorem isOrdinary_of_operation {op : Operation} (h : operation? k = some op) : IsOrdinary k := by
  unfold operation? at h
  split at h
  case h_27 => cases h
  all_goals exact ⟨rfl, by simp⟩

theorem isOrdinary_of_methodModifier (h : Parse.isMethodModifier k) : IsOrdinary k := by
  unfold Parse.isMethodModifier at h
  split at h
  case h_4 => cases h
  all_goals exact ⟨rfl, by simp⟩

/-! ## What is made between two states -/

/-- Trees are made, and `R` holds of the states. -/
structure Crosses (R : State → State → Prop) (s : State) (ns : List Node) (t : State) : Prop where
  trace : Trace s ns t
  nests : R s t

/-- Trees of the kind `K` are made, none of which is a body. -/
structure Bears (K : Node → Prop) (R : State → State → Prop) (s : State) (ns : List Node) (t : State) : Prop
    extends Crosses R s ns t where
  kinds : ∀ n ∈ ns, K n
  bodiless : ∀ n ∈ ns, n.kind ≠ .body

/-- Words are passed. -/
abbrev Passes (around : Option Enclosure) (s t : State) : Prop := Crosses (Nests around) s [] t

/-- One tree is made. -/
abbrev Makes (K : Node → Prop) (around : Option Enclosure) (s : State) (n : Node) (t : State) : Prop :=
  Bears K (Nests around) s [n] t

section

variable {around : Option Enclosure} {e : Enclosure} {s t u : State} {w : Word} {ws : List Word} {k : Token.Kind}
  {K : Node → Prop} {R R' : State → State → Prop} {ns ms : List Node} {n : Node} {kind : Node.Kind}

namespace Crosses

theorem refl (s : State) : Passes around s s := ⟨.refl, .refl s⟩

/-- A word that encloses nothing. -/
theorem word (hr : s.rest = w :: ws) (hne : w.token.kind ≠ .endOfFile) (hw : w.token.kind = k)
    (hk : bracketing k = .ordinary) : Passes around s (s.pass w ws) :=
  ⟨.pass hr hne, .word hr (hw ▸ hk)⟩

theorem on (h : Crosses (Nests around) s ns t) (h' : Passes around t u) : Crosses (Nests around) s ns u :=
  ⟨h.trace.on h'.trace, h.nests.trans h'.nests⟩

theorem after (h : Passes around s t) (h' : Crosses (Nests around) t ns u) : Crosses (Nests around) s ns u :=
  ⟨h.trace.after h'.trace, h.nests.trans h'.nests⟩

end Crosses

/-- A node that begins with a word and is made when its parts have been. -/
theorem Bears.opened (hr : s.rest = w :: ws) (hne : w.token.kind ≠ .endOfFile) (h : Trace (s.pass w ws) ns t)
    (hR : R s (t.give kind (w.token.span.union t.before) ns)) (hk : isPlain kind) (layout : Layout kind ns)
    (hK : K ⟨t.next, kind, w.token.span.union t.before, ns⟩) :
    Bears K R s [⟨t.next, kind, w.token.span.union t.before, ns⟩] (t.give kind (w.token.span.union t.before) ns) := by
  have hl : t.rest.length < s.rest.length := by
    rw [hr]
    exact Nat.lt_succ_of_le h.length_le
  refine ⟨⟨.spanning hr ((Trace.pass hr hne).after h) hl hk layout, hR⟩, by simpa using hK, ?_⟩
  simpa using ne_body_of_isPlain hk

/-- The word encloses nothing. -/
theorem Crosses.begun (h : Crosses (Nests around) (s.pass w ws) ns t) (hr : s.rest = w :: ws) (hw : IsOrdinary w.token.kind)
    (hk : isPlain kind) (layout : Layout kind ns) (hK : K ⟨t.next, kind, w.token.span.union t.before, ns⟩) :
    Makes K around s ⟨t.next, kind, w.token.span.union t.before, ns⟩ (t.give kind (w.token.span.union t.before) ns) :=
  .opened hr hw.inside h.trace ((Nests.word hr hw.ordinary).trans h.nests).give hk layout hK

namespace Bears

theorem nil (h : Passes around s t) : Bears K (Nests around) s [] t := ⟨h, by simp, by simp⟩

theorem single (h : Trace s [n] t) (hn : n.kind ≠ .body) (hK : K n) (hR : R s t) : Bears K R s [n] t :=
  ⟨⟨h, hR⟩, by simpa using hK, by simpa using hn⟩

theorem fits (h : Bears K R s [n] t) : K n := h.kinds n (by simp)

theorem kind_ne (h : Bears K R s [n] t) : n.kind ≠ .body := h.bodiless n (by simp)

theorem moved (h : Bears K R s [n] t) : t.rest.length < s.rest.length := h.trace.moves (.head _) h.kind_ne

theorem moved_past (h : Bears K R s [n] t) (hr : t.rest = w :: ws) : (t.pass w ws).rest.length < s.rest.length :=
  Nat.lt_trans (Trace.pass_lt hr) h.moved

/-- As trees of a wider kind. -/
theorem mono {K' : Node → Prop} (h : Bears K R s ns t) (hK : ∀ n, K n → K' n) : Bears K' R s ns t :=
  ⟨h.toCrosses, fun n hn => hK n (h.kinds n hn), h.bodiless⟩

theorem weaken (h : Bears K R s ns t) (hR : R s t → R' s t) : Bears K R' s ns t :=
  ⟨⟨h.trace, hR h.nests⟩, h.kinds, h.bodiless⟩

theorem join (h : Bears K (Nests around) s ns t) (h' : Crosses (Nests around) t ms u) :
    Crosses (Nests around) s (ns ++ ms) u :=
  ⟨h.trace.append h'.trace (.inl h.bodiless), h.nests.trans h'.nests⟩

/-- What holds of the states is seen to elsewhere. -/
theorem appendWith {R'' : State → State → Prop} (h : Bears K R s ns t) (h' : Bears K R' t ms u) (hR : R'' s u) :
    Bears K R'' s (ns ++ ms) u :=
  ⟨⟨h.trace.append h'.trace (.inl h.bodiless), hR⟩, List.forall_mem_append.mpr ⟨h.kinds, h'.kinds⟩,
    List.forall_mem_append.mpr ⟨h.bodiless, h'.bodiless⟩⟩

theorem append (h : Bears K (Nests around) s ns t) (h' : Bears K (Nests around) t ms u) :
    Bears K (Nests around) s (ns ++ ms) u :=
  h.appendWith h' (h.nests.trans h'.nests)

theorem on (h : Bears K (Nests around) s ns t) (h' : Passes around t u) : Bears K (Nests around) s ns u :=
  ⟨h.toCrosses.on h', h.kinds, h.bodiless⟩

theorem after (h : Passes around s t) (h' : Bears K (Nests around) t ns u) : Bears K (Nests around) s ns u :=
  ⟨h.after h'.toCrosses, h'.kinds, h'.bodiless⟩

/-- The enclosure is closed by the next word. -/
theorem shut (h : Bears K (Nests (some e)) s ns t) (hr : t.rest = w :: ws) (hne : w.token.kind ≠ .endOfFile)
    (hw : w.token.kind = k) (hk : bracketing k = .closes e) : Bears K (Shuts e) s ns (t.pass w ws) :=
  ⟨⟨h.trace.on (.pass hr hne), h.nests.shut hr (hw ▸ hk)⟩, h.kinds, h.bodiless⟩

/-- From the word that opens an enclosure to the word that closes it. -/
theorem enclosed (hr : s.rest = w :: ws) (hne : w.token.kind ≠ .endOfFile) (hw : w.token.kind = k)
    (hk : bracketing k = .opens e) (h : Bears K (Shuts e) (s.pass w ws) ns t) : Bears K (Nests around) s ns t :=
  ⟨⟨(Trace.pass hr hne).after h.trace, .enclosed hr (hw ▸ hk) h.nests⟩, h.kinds, h.bodiless⟩

/-- A node that is only a word. -/
theorem leaf (hr : s.rest = w :: ws) (hw : IsOrdinary w.token.kind) (hk : isPlain kind) (layout : Layout kind [])
    (hK : K ⟨s.next, kind, w.token.span, []⟩) :
    Makes K around s ⟨s.next, kind, w.token.span, []⟩ ((s.pass w ws).give kind w.token.span []) := by
  have hspan : w.token.span.union (s.pass w ws).before = w.token.span := by rw [State.pass_before, Span.union_self]
  have hK' : K ⟨(s.pass w ws).next, kind, w.token.span.union (s.pass w ws).before, []⟩ := by
    rw [hspan]
    exact hK
  have h : Makes K around s _ _ := (Crosses.refl (s.pass w ws)).begun hr hw hk layout hK'
  rwa [hspan] at h

/-- A node that is only a name. -/
theorem name (hr : s.rest = w :: ws) (hw : w.token.kind = .identifier) (hk : isPlain kind) (layout : Layout kind [])
    (hK : K ⟨s.next, kind, w.token.span, []⟩) :
    Makes K around s ⟨s.next, kind, w.token.span, []⟩ ((s.pass w ws).give kind w.token.span []) :=
  leaf hr (hw ▸ ⟨rfl, by simp⟩) hk layout hK

end Bears

end

/-- Expressions are read so, wherever they are. -/
def ReadsExpressions (m : Nat) (expr : Parse.ReadsExpression) : Prop :=
  ∀ precedence s around, Leaves s m (expr precedence) s (Makes IsExpression around s)

/-- Tokens at which a body ends. -/
def EndsBody (k : Token.Kind) : Prop := k = .endOfFile ∨ k = .dollar ∨ closesConstruct k

/-- The cursor is where a body ends. -/
def State.AtBodyEnd (s : State) : Prop := ∃ w ws, s.rest = w :: ws ∧ EndsBody w.token.kind

/-- Without pragmas, what is passed is nested. -/
def Tidy (s t : State) : Prop := (∀ w ∈ s.rest, w.token.kind ≠ .keyword .kwPragma) → Nests none s t

theorem Bears.append_tidy {K : Node → Prop} {s t u : State} {ns ms : List Node} (h : Bears K Tidy s ns t)
    (h' : Bears K Tidy t ms u) : Bears K Tidy s (ns ++ ms) u :=
  h.appendWith h' fun hnone =>
    (h.nests hnone).trans (h'.nests fun w hw => hnone w (h.trace.onward.suffix.subset hw))

/-- A body is made. -/
structure Fills (around : Option Enclosure) (s : State) (n : Node) (t : State) : Prop
    extends Crosses (Nests around) s [n] t where
  isBody : n.kind = .body
  ended : t.AtBodyEnd

namespace Leaves

variable {α β : Type} {m : Nat} {around : Option Enclosure} {e : Enclosure} {b s t : State} {w : Word} {ws : List Word}
  {expr : Parse.ReadsExpression} {K : Node → Prop} {ns : List Node} {Q : β → State → Prop} {items : List Node}

/-! ## The cursor -/

section

variable {kind : Node.Kind} {span start : Span} {R : State → State → Prop} {c : State} {f : Node → Parse β}

theorem made (h : Bears K R b [⟨s.next, kind, span, ns⟩] (s.give kind span ns)) :
    Leaves b m (Parse.node kind span ns) s (Bears K R b [·]) :=
  node h.trace h

theorem madeFrom (h : Bears K R b [⟨s.next, kind, start.union s.before, ns⟩] (s.give kind (start.union s.before) ns)) :
    Leaves b m (Parse.nodeFrom kind start ns) s (Bears K R b [·]) :=
  nodeFrom h.trace h

/-- The node is made of what was made since an earlier state. -/
theorem made_bind (hc : Trace b [] c) (h : Bears K R c [⟨s.next, kind, span, ns⟩] (s.give kind span ns))
    (hf : ∀ n t, t.rest = s.rest → Bears K R c [n] t → Leaves b m (f n) t Q) : Leaves b m (Parse.node kind span ns >>= f) s Q :=
  fun _ => hf _ _ rfl h (hc.on h.trace.drop)

theorem madeFrom_bind (hc : Trace b [] c)
    (h : Bears K R c [⟨s.next, kind, start.union s.before, ns⟩] (s.give kind (start.union s.before) ns))
    (hf : ∀ n t, t.rest = s.rest → Bears K R c [n] t → Leaves b m (f n) t Q) :
    Leaves b m (Parse.nodeFrom kind start ns >>= f) s Q :=
  rebind (previousSpan (made_bind hc h hf))

end

/-- So many words are passed. -/
theorem skip_words {k : Nat} (passed rest : List Word) (hr : s.rest = passed ++ rest) (hk : passed.length = k)
    (hne : ∀ w ∈ passed, w.token.kind ≠ .endOfFile) :
    Leaves s m (Parse.skip k) s fun _ t =>
      (∀ w ∈ passed, bracketing w.token.kind = .ordinary) → ∀ around, Passes around s t := by
  induction passed generalizing s k with
  | nil =>
    subst hk
    exact pure fun _ _ => .refl s
  | cons w ws ih =>
    subst hk
    refine advance_word hr (hne w (by simp)) fun hw => ?_
    refine (ih rfl rfl fun v hv => hne v (.tail _ hv)).mono fun _ t _ ht hp around => ?_
    exact .after (.word hr hw rfl (hp w (by simp))) (ht (fun v hv => hp v (.tail _ hv)) around)

theorem skipIf {passes : Token.Kind → Bool} {f : Unit → Parse β}
    (hp : ∀ k, passes k → IsOrdinary k)
    (h : ∀ t, (∀ around, Passes around s t) → Leaves b m (f ()) t Q) : Leaves b m (Parse.skipIf passes >>= f) s Q := by
  have hskip : Leaves s m (Parse.skipIf passes) s fun _ t => ∀ around, Passes around s t := by
    refine kind fun w ws hr => ite (fun hw => ?_) fun _ => pure fun _ => .refl s
    exact (skip_words [w] ws hr rfl (by simpa using (hp _ hw).inside)).mono fun _ _ _ ht => ht (by simpa using (hp _ hw).ordinary)
  exact hskip.bind fun _ t _ ht => h t ht

theorem optionalLabel {f : Option String → Parse β} (h : ∀ label t, (∀ around, Passes around s t) → Leaves b m (f label) t Q) :
    Leaves b m (Parse.optionalLabel >>= f) s Q := by
  have hlabel : Leaves s m Parse.optionalLabel s fun _ t => ∀ around, Passes around s t := by
    refine kind fun w ws hr => ite (fun hw => ?_) fun _ => pure fun _ => .refl s
    refine skip_word hr (by simp [hw]) fun hne => identifier fun v vs hr' hw' => pure fun _ => ?_
    exact .after (.word hr hne hw rfl) (.word hr' (by simp [hw']) hw' rfl)
  exact hlabel.bind fun label t _ ht => h label t ht

/-! ## Lists -/

theorem expressions (hx : ReadsExpressions m expr) (around : Option Enclosure) :
    Leaves s m (Parse.expressions expr) s (Bears IsExpression (Nests around) s) := by
  refine loop (Bears IsExpression (Nests around) s) (.nil (.refl s)) fun ns t _ hns => ?_
  refine (hx .lowest t around).bind fun v u _ hv => ?_
  have hmore := hns.append hv
  refine kind fun w ws hr => ite (fun hw => ?_) fun _ => pure hmore
  exact skip_word hr (by simp [hw]) fun hne => pure ⟨hmore.on (.word hr hne hw rfl), hv.moved_past hr⟩

/-- Arguments, after the word that opens them. -/
theorem arguments (hx : ReadsExpressions m expr) {close : Token.Kind} (hc : bracketing close = .closes e) (hend : close ≠ .endOfFile) :
    Leaves s m (Parse.arguments expr close) s (Bears IsExpression (Shuts e) s) := by
  refine kind fun w ws hr => ite (fun hw => ?_) fun _ => ?_
  · exact skip_word hr (hw ▸ hend) fun hne => pure ((Bears.nil (.refl s)).shut hr hne hw hc)
  have hscatter : ∀ k, (decide (k = Token.Kind.keyword .kwScatter)) = true → IsOrdinary k := by
    intro k hk
    rw [of_decide_eq_true hk]
    exact ⟨rfl, by simp⟩
  refine loop (Bears IsExpression (Nests (some e)) s) (.nil (.refl s)) fun ns t _ hns => skipIf hscatter fun t' ht => ?_
  refine (hx .lowest t' (some e)).bind fun v u _ hv => ?_
  have hmore := (hns.on (ht _)).append hv
  refine current fun w ws hr => ite (fun hw => ?_) fun _ => ite (fun hw => ?_) fun _ => failWith
  · refine skip_word hr (by simp [hw]) fun hne => pure ⟨hmore.on (.word hr hne hw rfl), ?_⟩
    exact Nat.lt_of_lt_of_le (hv.moved_past hr) (ht none).trace.length_le
  · exact skip_word hr (hw ▸ hend) fun hne => pure (hmore.shut hr hne hw hc)

theorem parameter (mode : ParameterMode) (around : Option Enclosure) :
    Leaves s m (Parse.parameter mode) s (Makes IsParameter around s) :=
  identifier fun _ _ hr hw => made (.name hr hw rfl (.leaf rfl) ⟨_, _, rfl⟩)

/-- Parameters, after the word that opens them. -/
theorem parameters {close : Token.Kind} (hc : bracketing close = .closes e) (hend : close ≠ .endOfFile) :
    Leaves s m (Parse.parameters close) s (Bears IsParameter (Shuts e) s) := by
  refine kind fun w ws hr => ite (fun hw => ?_) fun _ => ?_
  · exact skip_word hr (hw ▸ hend) fun hne => pure ((Bears.nil (.refl s)).shut hr hne hw hc)
  refine loop (fun x => Bears IsParameter (Nests (some e)) s x.1) (.nil (.refl s)) fun (ns, mode) t _ hns => ?_
  refine kind fun _ _ _ => skipIf (fun _ => isOrdinary_of_parameterMode) fun t' ht => ?_
  refine (parameter _ (some e)).bind fun v u _ hv => ?_
  have hmore := (hns.on (ht _)).append hv
  refine current fun w ws hr => ite (fun hw => ?_) fun _ => ite (fun hw => ?_) fun _ => failWith
  · refine skip_word hr (by simp [hw]) fun hne => pure ⟨hmore.on (.word hr hne hw rfl), ?_⟩
    exact Nat.lt_of_lt_of_le (hv.moved_past hr) (ht none).trace.length_le
  · exact skip_word hr (hw ▸ hend) fun hne => pure (hmore.shut hr hne hw hc)

/-- The node of parameters that were read since an earlier state. -/
theorem parameterList {ps : List Node} (h : Bears IsParameter (Nests around) s ps t) (hl : t.rest.length < s.rest.length) :
    Leaves s m (Parse.parameterList ps) t (Makes IsParameterList around s) :=
  previousSpan (made (.single (.listing h.trace h.bodiless hl (.parameterList h.kinds)) (by simp) rfl h.nests.give))

/-! ## Statements -/

section

variable (hx : ReadsExpressions m expr)

include hx

theorem valuesHere (around : Option Enclosure) :
    Leaves s m (Parse.valuesHere expr) s (Bears IsExpression (Nests around) s) := by
  refine onSameLine fun here => kind fun w ws hr => ite (fun _ => ?_) fun _ => ?_
  · exact expressions hx around
  · exact pure (.nil (.refl s))

theorem optionalWith (around : Option Enclosure) :
    Leaves s m (Parse.optionalWith expr) s (Bears IsExpression (Nests around) s) := by
  refine isKeyword fun w ws hr => ite (fun hw => ?_) fun _ => pure (.nil (.refl s))
  refine skip_word hr (by simp [of_decide_eq_true hw]) fun hne => (expressions hx around).mono fun vs t _ hvs => ?_
  exact .after (.word hr hne (of_decide_eq_true hw) rfl) hvs

theorem declaredVariable (modifier : Modifier) (around : Option Enclosure) :
    Leaves s m (Parse.declaredVariable expr modifier) s (Makes IsDeclared around s) := by
  refine identifier fun w ws hr hw => kind fun v vs hr₁ => ite (fun hv => ?_) fun _ => ?_
  · refine skip_word hr₁ (by simp [hv]) fun hne₁ => (hx .lowest _ around).bind fun value t _ hvalue => ?_
    have hne : w.token.kind ≠ .endOfFile := by simp [hw]
    have hpart := Bears.after (.word hr₁ hne₁ hv rfl) hvalue
    have hall := Bears.after (.word hr hne hw rfl) hpart
    exact made (.single (.prefixing hr hne hpart.trace hvalue.kind_ne rfl (.valued hvalue.fits)) (by simp) ⟨_, rfl⟩
      hall.nests.give)
  · exact made (.name hr hw rfl .bare ⟨_, rfl⟩)

variable (hr : s.rest = w :: ws) (hw : IsOrdinary w.token.kind)

include hr hw

theorem valueStatement {kind : Node.Kind} (hk : isPlain kind)
    (hv : kind.takesValues) (hs : kind.isStatement) :
    Leaves s m (Parse.valueStatement expr kind) s (Makes IsStatement around s) := by
  refine advance_word hr hw.inside fun _ => (valuesHere hx around).bind fun vs t _ hvs => ?_
  exact madeFrom (hvs.begun hr hw hk (.values hv hvs.kinds) hs)

theorem jump {kind : Option String → Node.Kind} (hk : ∀ label, isPlain (kind label))
    (hv : ∀ label, (kind label).takesValues) (hs : ∀ label, (kind label).isStatement) :
    Leaves s m (Parse.jump expr kind) s (Makes IsStatement around s) := by
  refine advance_word hr hw.inside fun _ => optionalLabel fun label t ht => (optionalWith hx around).bind fun vs u _ hvs => ?_
  exact madeFrom (((ht _).after hvs.toCrosses).begun hr hw (hk label) (.values (hv label) hvs.kinds) (hs label))

theorem loopBodyStatement : Leaves s m (Parse.loopBodyStatement expr) s (Makes IsStatement around s) := by
  refine advance_word hr hw.inside fun _ => token (by simp) fun w' ws' hr' hne' hw' => ?_
  refine (arguments hx rfl (by simp)).bind fun vs t _ hvs => ?_
  have hparts : Bears IsExpression (Nests around) (s.pass w ws) vs t := .enclosed hr' hne' hw' rfl hvs
  exact madeFrom (hparts.begun hr hw rfl (.values rfl hvs.kinds) rfl)

theorem throwStatement : Leaves s m (Parse.throwStatement expr) s (Makes IsStatement around s) := by
  refine advance_word hr hw.inside fun _ => (hx .lowest _ around).bind fun tag t _ htag => ?_
  refine (optionalWith hx around).bind fun vs u _ hvs => ?_
  exact madeFrom ((htag.join hvs.toCrosses).begun hr hw rfl (.thrown htag.fits hvs.kinds) rfl)

/-- Names in parentheses and their value, after the keyword at the state `s`. -/
theorem sharedDeclaration (modifier : Modifier) {v : Word} {vs : List Word} (hr₁ : (s.pass w ws).rest = v :: vs)
    (hv : v.token.kind = .leftParen) :
    Leaves s m (Parse.sharedDeclaration expr modifier w.token.span) (s.pass w ws) (Makes IsStatement around s) := by
  refine skip_word hr₁ (by simp [hv]) fun hne₁ => ?_
  refine (loop (Q := fun vars t => Bears IsBare (Shuts .parentheses) ((s.pass w ws).pass v vs) vars t ∧ vars ≠ [])
    (Bears IsBare (Nests (some .parentheses)) ((s.pass w ws).pass v vs)) (.nil (.refl _)) fun vars t ht hvars => ?_).bind
    fun vars t _ ⟨hvars, hvars'⟩ => ?_
  · refine identifier fun u us hr hw => made_bind (K := IsBare) (R := Nests (some .parentheses)) ht
      (.name hr hw rfl .bare ⟨⟨_, rfl⟩, rfl⟩) fun v t' _ hv => ?_
    have hmore := hvars.append hv
    refine current fun _ _ hr => ite (fun hw => ?_) fun _ => ite (fun hw => ?_) fun _ => failWith
    · exact skip_word hr (by simp [hw]) fun hne => pure ⟨hmore.on (.word hr hne hw rfl), hv.moved_past hr⟩
    · exact skip_word hr (by simp [hw]) fun hne => pure ⟨hmore.shut hr hne hw rfl, by simp⟩
  · have hnames : Bears IsBare (Nests around) (s.pass w ws) vars t := .enclosed hr₁ hne₁ hv rfl hvars
    refine token (by simp) fun _ _ hr₂ hne₂ hw₂ => (hx .lowest _ around).bind fun value u _ hvalue => ?_
    have hparts := (hnames.on (.word hr₂ hne₂ hw₂ rfl)).join hvalue.toCrosses
    exact madeFrom (hparts.begun hr hw rfl (.shared hvars' hvars.kinds hvalue.fits) rfl)

theorem declaration (modifier : Modifier) :
    Leaves s m (Parse.declaration expr modifier) s (Makes IsStatement around s) := by
  refine advance_word hr hw.inside fun _ => kind fun v vs hr₁ => ite (fun hv => ?_) fun _ => ?_
  · exact sharedDeclaration hx hr hw modifier hr₁ hv
  refine (loop (Q := fun vars t => Bears IsDeclared (Nests around) (s.pass w ws) vars t ∧ vars ≠ [])
    (Bears IsDeclared (Nests around) (s.pass w ws)) (.nil (.refl _)) fun vars t _ hvars => ?_).bind
    fun vars t _ ⟨hvars, hvars'⟩ => madeFrom (hvars.begun hr hw rfl (.separate hvars' hvars.kinds) rfl)
  refine (declaredVariable hx modifier around).bind fun v u _ hv => ?_
  have hmore := hvars.append hv
  refine kind fun _ _ hr => ite (fun hw => ?_) fun _ => pure ⟨hmore, by simp⟩
  exact skip_word hr (by simp [hw]) fun hne => pure ⟨hmore.on (.word hr hne hw rfl), hv.moved_past hr⟩

omit hw in
/-- The names that are assigned to are followed by the parenthesis and the chevron. -/
theorem multipleAssignment (hw : w.token.kind = .leftParen) (hf : Parse.targetsFollow ws) :
    Leaves s m (Parse.multipleAssignment expr) s (Makes IsStatement around s) := by
  have hne : w.token.kind ≠ .endOfFile := by simp [hw]
  refine advance_word hr hne fun _ => ?_
  refine (loop (Q := fun targets t => (Bears IsName (Nests (some .parentheses)) (s.pass w ws) targets t ∧ targets ≠ []) ∧
      ∃ close chevron rest, t.rest = close :: chevron :: rest ∧ close.token.kind = .rightParen ∧
        chevron.token.kind = .chevron)
    (fun targets t => Bears IsName (Nests (some .parentheses)) (s.pass w ws) targets t ∧ Parse.targetsFollow t.rest)
    ⟨.nil (.refl _), hf⟩ fun targets t ht ⟨htargets, hf⟩ => ?_).bind
    fun targets t _ ⟨⟨htargets, htargets'⟩, close, chevron, rest, hrest, hclose, hchevron⟩ => ?_
  · obtain ⟨name, separator, rest, hrest, hname, hf⟩ := targetsFollow_cases hf
    refine advance_word hrest (by simp [hname]) fun _ => ?_
    refine made_bind (K := IsName) (R := Nests (some .parentheses)) ht (.name hrest hname rfl (.leaf rfl) ⟨_, rfl⟩)
      fun v u hrest' hv => kind fun w' ws' hr' => ?_
    cases hrest'.symm.trans hr'
    have hmore := htargets.append hv
    refine ite (fun hcomma => ?_) fun hcomma => ?_
    · rcases hf with ⟨_, hf⟩ | ⟨hp, _⟩
      · exact skip_word hrest' (by simp [hcomma]) fun hne => pure ⟨⟨hmore.on (.word hrest' hne hcomma rfl), hf⟩, hv.moved_past hrest'⟩
      · rw [hp] at hcomma
        cases hcomma
    · rcases hf with ⟨hp, _⟩ | ⟨hp, chevron, more, rfl, hchevron⟩
      · exact absurd hp hcomma
      · exact pure ⟨⟨hmore, by simp⟩, separator, chevron, more, hrest', hp, hchevron⟩
  · have hclosed := htargets.shut hrest (by simp [hclose]) hclose rfl
    have hnames : Bears IsName (Nests around) s targets (t.pass close (chevron :: rest)) :=
      .enclosed hr hne hw rfl hclosed
    have hpassed : Passes around (t.pass close (chevron :: rest)) ((t.pass close (chevron :: rest)).pass chevron rest) :=
      .word rfl (by simp [hchevron]) hchevron rfl
    refine of_eq (q := Parse.skip 1 >>= fun _ => Parse.skip 1 >>= fun _ => expr .lowest >>= fun value =>
      Parse.nodeFrom .multipleAssignment w.token.span (targets ++ [value])) ?_ ?_
    · simp only [Parse.skip, Parse.bind_apply, Parse.pure_apply]
      cases Parse.advance t <;> rfl
    refine skip_word hrest (by simp [hclose]) fun _ => skip_word rfl (by simp [hchevron]) fun _ => ?_
    refine (hx .lowest _ around).bind fun value u _ hvalue => ?_
    have hparts := (hclosed.trace.on hpassed.trace).append hvalue.trace (.inl htargets.bodiless)
    exact madeFrom (.opened hr hne hparts ((hnames.on hpassed).nests.trans hvalue.nests).give rfl
      (.multipleAssignment htargets' htargets.kinds hvalue.fits) rfl)

end

theorem expressionStatement (hx : ReadsExpressions m expr) : Leaves s m (expr .lowest) s (Makes IsStatement around s) :=
  (hx .lowest s around).mono fun _ _ _ h => h.mono fun _ => Node.Kind.isStatement_of_isExpression

theorem statement (hx : ReadsExpressions m expr) (around : Option Enclosure) :
    Leaves s m (Parse.statement expr) s (Makes IsStatement around s) := by
  refine kind fun w ws hr => ?_
  split
  case h_7 hw => exact valueStatement hx hr (hw ▸ ⟨rfl, by simp⟩) rfl rfl rfl
  case h_8 hw => exact valueStatement hx hr (hw ▸ ⟨rfl, by simp⟩) rfl rfl rfl
  case h_9 hw => exact jump hx hr (hw ▸ ⟨rfl, by simp⟩) (fun _ => rfl) (fun _ => rfl) fun _ => rfl
  case h_10 hw => exact jump hx hr (hw ▸ ⟨rfl, by simp⟩) (fun _ => rfl) (fun _ => rfl) fun _ => rfl
  case h_11 hw => exact loopBodyStatement hx hr (hw ▸ ⟨rfl, by simp⟩)
  case h_12 hw => exact throwStatement hx hr (hw ▸ ⟨rfl, by simp⟩)
  case h_13 hw =>
    exact upcoming hr (by simp [hw]) (ite (fun hf => multipleAssignment hx hr hw hf) fun _ => expressionStatement hx)
  case h_14 => exact expressionStatement hx
  all_goals
    rename_i hw
    exact declaration hx hr (hw ▸ ⟨rfl, by simp⟩) _

/-! ## Bodies -/

/-- At least one of the words at the state `s` is passed. -/
theorem leave (hr : s.rest = w :: ws) (hne : w.token.kind ≠ .endOfFile) (h : Trace s [] t) :
    Leaves t m (Parse.leave s.rest) t fun _ u => u.rest.length < s.rest.length := by
  refine remaining (ite (fun heq => ?_) fun hlt => pure (Nat.lt_of_le_of_ne h.length_le hlt))
  have hrest : t.rest = w :: ws := (h.onward.suffix.eq_of_length heq).trans hr
  show Leaves t m (Parse.advance >>= fun _ => Pure.pure ()) t _
  exact advance_word hrest hne fun _ => pure (by simp [hr])

/-- The node for words that were passed since the state `s`, of which something has been reported. -/
theorem syntaxError {Q : Node → State → Prop} (h : Trace s [] t) (hl : t.rest.length < s.rest.length)
    (hs : s.errors < t.errors ∨ OpenPragma s.rest)
    (hQ : ∀ n u, Trace s [n] u → n.kind = .syntaxError → u.errors = t.errors → Q n u) :
    Leaves s m (Parse.syntaxError s.rest) t Q := by
  cases hr : s.rest with
  | nil => simp [hr] at hl
  | cons w ws =>
    refine remaining (ite (fun _ => ?_) fun hn => absurd (hr ▸ hl) hn)
    have herror := Trace.malformed hr h hl hs
    exact nodeFrom herror (hQ _ _ herror rfl rfl)

theorem statementRound (place : Nat × Nat) :
    Leaves b m (Parse.statementRound place) s (RoundLeaves (fun _ _ => True) (fun _ _ => True) s) :=
  current fun _ _ hr => ite (fun _ => pure trivial) fun hk =>
    skip_word hr (fun he => hk (by simp [endsStatement, he])) fun _ => pure ⟨trivial, Trace.pass_lt hr⟩

theorem skipStatement (hr : s.rest = w :: ws) (hne : w.token.kind ≠ .endOfFile) (h : Trace s [] t) (hs : s.errors < t.errors) :
    Leaves s m (Parse.skipStatement s.rest) t (Makes IsStatement around s) := by
  refine (leave hr hne h).bind fun _ u hu hl => remaining (previousSpan ?_)
  have hrounds : ∀ place, Leaves u m (Parse.loop Parse.statementRound place) u fun _ _ => True := fun place =>
    loop (fun _ _ => True) trivial fun x _ _ _ => statementRound x
  refine (hrounds _).bind fun _ v hv _ => ?_
  have hlt := Nat.lt_of_lt_of_le hs (hu.on hv).errors_le
  refine syntaxError ((h.on hu).on hv) (Nat.lt_of_le_of_lt hv.length_le hl) (.inl hlt) fun n x hn hk he => ?_
  exact .single hn (by simp [hk]) (by rw [IsStatement, hk]; rfl) (.of_lt (he ▸ hlt))

/-- A round adds a statement, or it is the last. -/
theorem bodyRound (hx : ReadsExpressions m expr) (around : Option Enclosure) :
    Leaves s m (Parse.bodyRound expr ns) s (RoundLeaves
      (fun ns' t => ∃ ms, ns' = ns ++ ms ∧ Bears IsStatement (Nests around) s ms t)
      (fun ns' t => ns' = ns ∧ t = s ∧ s.AtBodyEnd) s) := by
  refine kind fun w ws hr => ite (fun hw => ?_) fun _ => ite (fun hend => pure ⟨rfl, rfl, w, ws, hr, hend⟩) fun hend => ?_
  · exact skip_word hr (by simp [hw]) fun hne => pure ⟨⟨[], by simp, .nil (.word hr hne hw rfl)⟩, Trace.pass_lt hr⟩
  have hne : w.token.kind ≠ .endOfFile := fun he => hend (.inl he)
  refine upcoming hr hne ((attempt (statement hx around)).bind fun answer u hu hanswer => ?_)
  cases answer with
  | some n => exact pure ⟨⟨[n], rfl, hanswer⟩, hanswer.moved⟩
  | none =>
    rw [← hr]
    exact follow .refl hu (skipStatement hr hne hu hanswer) fun n v _ _ hn => pure ⟨⟨[n], rfl, hn⟩, hn.moved⟩

theorem body (hx : ReadsExpressions m expr) (around : Option Enclosure) :
    Leaves s m (Parse.body expr) s (Fills around s) := by
  refine current fun w ws hr => ?_
  refine (loop (Q := fun ns t => Bears IsStatement (Nests around) s ns t ∧ t.AtBodyEnd)
    (Bears IsStatement (Nests around) s) (.nil (.refl s)) fun ns t _ h => (bodyRound hx around).mono fun r u _ hr => ?_).bind
    fun ns t _ ⟨h, hend⟩ => ?_
  · match r, hr with
    | .again _, ⟨⟨ms, he, hms⟩, hl⟩ => exact ⟨he ▸ h.append hms, hl⟩
    | .done _, ⟨he, ht, hend⟩ => exact ⟨he ▸ ht ▸ h, ht ▸ hend⟩
  have hbody := Trace.body hr h.trace h.bodiless (.body h.kinds)
  exact node hbody ⟨⟨hbody, h.nests.give⟩, rfl, hend⟩

/-- A body that begins where bodies end is empty. -/
theorem body_of_endsBody (h : s.AtBodyEnd) : Leaves s m (Parse.body expr) s fun n t => Trace s [n] t ∧ IsVacant n := by
  obtain ⟨w, ws, hr, hw⟩ := h
  have hne : w.token.kind ≠ .semicolon := by
    intro hk
    rw [hk] at hw
    rcases hw with hw | hw | hw <;> cases hw
  have hkind : Parse.kind s = .found w.token.kind s := by
    simp [Parse.kind, Parse.bind_apply, Parse.pure_apply, Parse.current, hr]
  have hround : Parse.bodyRound expr [] s = .found (.done []) s := by
    rw [Parse.bodyRound, Parse.bind_apply, hkind]
    dsimp only
    unfold EndsBody at hw
    rw [if_neg hne, if_pos hw]
    rfl
  have hempty : Parse.loop (Parse.bodyRound expr) [] s = .found [] s := by rw [Parse.loop, hround]
  refine current fun _ _ hr => of_found hempty .refl ?_
  have hbody := Trace.body hr .refl (by simp) (.body (by simp))
  exact node hbody ⟨hbody, rfl, rfl⟩

/-! ## Constructs -/

section

variable {word : Keyword} {wanted : Wanted} {kind : Node.Kind} (hr : s.rest = w :: ws)
  (hword : bracketing (.keyword word) = .closes e)

include hr hword

/-- The keyword that closes a construct, and the construct. Its parts are made from the state `s` on, and
    the word that opens it is at the state `o`. -/
theorem closed {o : State} {v : Word} {vs : List Word} (h : Trace s ns t) (hl : t.rest.length < s.rest.length)
    (hs : Nests around s o) (ho : o.rest = v :: vs) (hv : bracketing v.token.kind = .opens e)
    (hn : Nests (some e) (o.pass v vs) t) (hk : isPlain kind) (layout : Layout kind ns)
    (hK : ∀ number span, K ⟨number, kind, span, ns⟩) :
    Leaves s m (Parse.closing word wanted >>= fun _ => Parse.nodeFrom kind w.token.span ns) t (Makes K around s) := by
  refine closing (fun _ _ hr' hne' hw' => ?_) fun problem span => ?_
  · have hl' := Nat.lt_of_le_of_lt (Trace.pass hr' hne').length_le hl
    have hall := hs.trans (.enclosed ho hv (hn.shut hr' (by rw [hw', hword])))
    exact madeFrom (.single (.spanning hr (h.on (.pass hr' hne')) hl' hk layout) (ne_body_of_isPlain hk) (hK _ _) hall.give)
  · have hlt : s.errors < (t.tell problem span).errors := by
      rw [State.tell_errors]
      exact Nat.lt_succ_of_le h.errors_le
    exact madeFrom (.single (.spanning hr (h.on (.tell _ _)) hl hk layout) (ne_body_of_isPlain hk) (hK _ _) (.of_lt hlt))

/-- The same, where its first word opens it and its parts come after. -/
theorem enclosed (hne : w.token.kind ≠ .endOfFile) (hw : bracketing w.token.kind = .opens e)
    (h : Crosses (Nests (some e)) (s.pass w ws) ns t) (hk : isPlain kind) (layout : Layout kind ns)
    (hK : ∀ number span, K ⟨number, kind, span, ns⟩) :
    Leaves s m (Parse.closing word wanted >>= fun _ => Parse.nodeFrom kind w.token.span ns) t (Makes K around s) := by
  refine closed hr hword ((Trace.pass hr hne).after h.trace) ?_ (.refl s) hr hw h.nests hk layout hK
  rw [hr]
  exact Nat.lt_succ_of_le h.trace.length_le

/-- A label, a body and the keyword that closes it, after the word that opens it and what comes before. -/
theorem labelled (hx : ReadsExpressions m expr) {kind : Option String → Node.Kind} {parts : Node → List Node} {o : State}
    {v : Word} {vs : List Word} (h : Bears K (Nests around) s ns o) (hl : vs.length < s.rest.length)
    (ho : o.rest = v :: vs) (hne : v.token.kind ≠ .endOfFile) (hv : bracketing v.token.kind = .opens e)
    (hparts : ∀ content, parts content = ns ++ [content]) (hk : ∀ label, isPlain (kind label))
    (layout : ∀ label content, content.kind = .body → Layout (kind label) (parts content))
    (he : ∀ label, (kind label).isExpression) :
    Leaves s m (Parse.optionalLabel >>= fun label => Parse.body expr >>= fun content =>
      Parse.closing word wanted >>= fun _ => Parse.nodeFrom (kind label) w.token.span (parts content)) (o.pass v vs)
      (Makes IsExpression around s) := by
  refine optionalLabel fun label t ht => (body hx (some e)).bind fun content u hu hb => ?_
  have hinner := (ht (some e)).after hb.toCrosses
  have htrace := (h.trace.on (.pass ho hne)).append hinner.trace (.inl h.bodiless)
  rw [← hparts] at htrace
  exact closed hr hword htrace (Nat.lt_of_le_of_lt hinner.trace.length_le hl) h.nests ho hv hinner.nests (hk label)
    (layout label content hb.isBody) fun _ _ => he label

end

section

variable (hx : ReadsExpressions m expr)

include hx

/-- A branch for when all conditions are false. -/
theorem otherwise : Leaves s m (Parse.otherwise expr) s fun ns t =>
    Bears IsOtherwise (Nests (some .conditional)) s ns t ∧ ∃ last : Option Node, ns = last.toList := by
  refine isKeyword fun w ws hr => ite (fun hw => ?_) fun _ => pure ⟨.nil (.refl s), none, rfl⟩
  have hne : w.token.kind ≠ .endOfFile := by simp [of_decide_eq_true hw]
  have hw : bracketing w.token.kind = .divides .conditional := by rw [of_decide_eq_true hw]; rfl
  refine advance_word hr hne fun _ => (body hx (some .conditional)).bind fun content t _ hb => ?_
  have hlast := Bears.opened (K := IsOtherwise) hr hne hb.trace ((Nests.divider hr hw).trans hb.nests).give rfl
    (.onlyBody rfl hb.isBody) rfl
  exact madeFrom_bind .refl hlast fun e u _ he => pure ⟨he, some e, rfl⟩

theorem handlers : Leaves s m (Parse.handlers expr) s (Bears IsHandler (Nests (some .attempt)) s) := by
  refine loop (Bears IsHandler (Nests (some .attempt)) s) (.nil (.refl s)) fun hs t ht hhs => ?_
  refine isKeyword fun w ws hr => ite (fun hw => ?_) fun _ => pure hhs
  have hne : w.token.kind ≠ .endOfFile := by simp [of_decide_eq_true hw]
  have hw : bracketing w.token.kind = .divides .attempt := by rw [of_decide_eq_true hw]; rfl
  refine advance_word hr hne fun _ => remaining ?_
  obtain ⟨passed, rest, hrest, hlength, hpassed⟩ := handledLength_split ws
  have hordinary : ∀ v ∈ passed, bracketing v.token.kind = .ordinary := by
    intro v hv
    rcases hpassed v hv with hk | hk <;> rw [hk] <;> rfl
  have hends : ∀ v ∈ passed, v.token.kind ≠ .endOfFile := by
    intro v hv
    rcases hpassed v hv with hk | hk <;> simp [hk]
  refine (skip_words passed rest hrest hlength hends).bind fun _ u _ hu => ?_
  refine (body hx (some .attempt)).bind fun content v _ hb => ?_
  have hinner := (hu hordinary _).after hb.toCrosses
  exact madeFrom_bind (K := IsHandler) ht (.single (.handler hr hne hinner.trace (.onlyBody rfl hb.isBody)) (by simp) ⟨_, rfl⟩
    ((Nests.divider hr hw).trans hinner.nests).give) fun h v' _ hh => pure ⟨hhs.append hh, hh.moved⟩

variable (hr : s.rest = w :: ws)

include hr

theorem procedure (isIterator : Bool) (hw : w.token.kind = .keyword .kwProc) :
    Leaves s (m + 1) (Parse.procedure expr isIterator) s (Makes IsExpression around s) := by
  refine advance_first hr (by simp [hw]) fun hne => optionalLabel fun name t ht => token (by simp) fun w₁ ws₁ hr₁ hne₁ hw₁ => ?_
  refine (parameters rfl (by simp)).bind fun ps t₂ ht₂ hps => ?_
  have hlength : t₂.rest.length < (s.pass w ws).rest.length := by
    refine Nat.lt_of_le_of_lt ht₂.length_le (Nat.lt_of_lt_of_le ?_ (ht none).trace.length_le)
    simp [hr₁]
  have hps' : Bears IsParameter (Nests (some .procedure)) t ps t₂ := .enclosed hr₁ hne₁ hw₁ rfl hps
  have hall := Bears.after (ht _) hps'
  refine follow (.pass hr hne) hall.trace.drop (parameterList hall hlength) fun list t₃ _ _ hl => doc fun lines => ?_
  refine (body hx (some .procedure)).bind fun content t₄ _ hb => ?_
  exact enclosed hr rfl hne (hw ▸ rfl) (hl.join hb.toCrosses) rfl (.definition rfl hl.fits hb.isBody) fun _ _ => rfl

/-- The branches of a conditional that begins at the state `s`. -/
theorem branches (hne : w.token.kind ≠ .endOfFile) :
    Leaves s m (Parse.branches expr w.token.span) (s.pass w ws) fun bs t =>
      Bears IsBranch (fun _ t => Nests (some .conditional) (s.pass w ws) t) s bs t ∧ bs ≠ [] := by
  -- the keyword of the next branch has been passed
  refine loop (fun x t => ∃ t₀ u us, t₀.rest = u :: us ∧ u.token.kind ≠ .endOfFile ∧ t = t₀.pass u us ∧
    x.2 = u.token.span ∧ Bears IsBranch (fun _ _ => Nests (some .conditional) (s.pass w ws) t) s x.1 t₀)
    ⟨s, w, ws, hr, hne, rfl, rfl, ⟨.refl, .refl _⟩, by simp, by simp⟩ ?_
  rintro ⟨bs, _⟩ _ _ ⟨t₀, u, us, hr₀, hne₀, rfl, rfl, hbs⟩
  refine (hx .lowest _ (some .conditional)).bind fun condition t₁ _ hc => token (by simp) fun _ _ hr₁ hne₁ hw₁ => ?_
  refine (body hx (some .conditional)).bind fun content t₂ _ hb => ?_
  have hinner := (hc.on (.word hr₁ hne₁ hw₁ rfl)).join hb.toCrosses
  have hbranch : Bears IsBranch (fun _ t => Nests (some .conditional) (s.pass w ws) t) t₀ [_] _ :=
    .opened hr₀ hne₀ hinner.trace (hbs.nests.trans hinner.nests).give rfl (.valueAndBody rfl hc.fits hb.isBody) rfl
  refine madeFrom_bind hbs.trace.drop hbranch fun branch t₃ ht₃ hbranch => ?_
  have hmore : Bears IsBranch (fun _ t => Nests (some .conditional) (s.pass w ws) t) s (bs ++ [branch]) t₃ :=
    hbs.appendWith hbranch hbranch.nests
  refine isKeyword fun v vs hr' => ite (fun hv => ?_) fun _ => pure ⟨hmore, by simp⟩
  have hne' : v.token.kind ≠ .endOfFile := by simp [of_decide_eq_true hv]
  have hv : bracketing v.token.kind = .divides .conditional := by rw [of_decide_eq_true hv]; rfl
  refine advance_word hr' hne' fun _ => pure ⟨⟨t₃, v, vs, hr', hne', rfl, rfl, ?_⟩, ?_⟩
  · exact ⟨⟨hmore.trace, hmore.nests.trans (.divider hr' hv)⟩, hmore.kinds, hmore.bodiless⟩
  · exact Nat.lt_trans (Trace.pass_lt hr') (ht₃ ▸ Nat.lt_of_le_of_lt ((Trace.pass hr₁ hne₁).on hb.trace.drop).length_le hc.moved)

/-- A conditional begins where its first branch does. -/
theorem conditional (hw : w.token.kind = .keyword .kwIf) :
    Leaves s (m + 1) (Parse.conditional expr) s (Makes IsExpression around s) := by
  refine advance_first hr (by simp [hw]) fun hne =>
    follow .refl (.pass hr hne) (branches hx hr hne) fun bs t _ hle ⟨hbs, hbs'⟩ => ?_
  refine (otherwise hx).bind fun _ u hu ⟨hlast, last, he⟩ => ?_
  subst he
  have hlength : u.rest.length < s.rest.length :=
    Nat.lt_of_le_of_lt (Nat.le_trans hu.length_le hle) (Trace.pass_lt hr)
  exact closed hr rfl (hbs.trace.append hlast.trace (.inl hbs.bodiless)) hlength (.refl s) hr (hw ▸ rfl)
    (hbs.nests.trans hlast.nests) rfl (.conditional hbs' hbs.kinds fun e he => hlast.kinds e (by simpa using he))
    fun _ _ => rfl

theorem forLoop (hw : IsOrdinary w.token.kind) :
    Leaves s (m + 1) (Parse.forLoop expr) s (Makes IsExpression around s) := by
  refine advance_first hr hw.inside fun _ => ?_
  refine (loop (Q := fun vars t => Bears IsLoopVariable (Nests around) (s.pass w ws) vars t ∧ vars ≠ [])
    (Bears IsLoopVariable (Nests around) (s.pass w ws)) (.nil (.refl _)) fun vars t ht hvars => ?_).bind
    fun vars t _ ⟨hvars, hvars'⟩ => ?_
  · refine identifier fun u us hr hw =>
      made_bind (K := IsLoopVariable) (R := Nests around) ht (.name hr hw rfl (.leaf rfl) ⟨_, rfl⟩) fun v t' _ hv => ?_
    have hmore := hvars.append hv
    refine kind fun _ _ hr => ite (fun hw => ?_) fun _ => pure ⟨hmore, by simp⟩
    exact skip_word hr (by simp [hw]) fun hne => pure ⟨hmore.on (.word hr hne hw rfl), hv.moved_past hr⟩
  · refine token (by simp) fun _ _ hr₁ hne₁ hw₁ => (hx .lowest _ around).bind fun iterable u hu hi => ?_
    refine token (by simp) fun v vs hr₂ hne₂ hw₂ => ?_
    have hparts := ((hvars.on (.word hr₁ hne₁ hw₁ rfl)).mono fun _ _ => trivial).append (hi.mono fun _ _ => trivial)
    have hlength : vs.length < s.rest.length := by
      have hle := hparts.trace.length_le
      rw [hr₂] at hle
      rw [hr]
      exact Nat.lt_succ_of_lt hle
    exact labelled hr rfl hx (.after (.word hr hw.inside rfl hw.ordinary) hparts) hlength hr₂ hne₂ (hw₂ ▸ rfl) (fun _ => by simp)
      (fun _ => rfl) (fun _ _ hb => .forLoop hvars' hvars.kinds hi.fits hb) fun _ => rfl

theorem whileLoop (hw : IsOrdinary w.token.kind) :
    Leaves s (m + 1) (Parse.whileLoop expr) s (Makes IsExpression around s) := by
  refine advance_first hr hw.inside fun _ => (hx .lowest _ around).bind fun condition t ht hc => ?_
  refine token (by simp) fun v vs hr₁ hne₁ hw₁ => ?_
  have hlength : vs.length < s.rest.length := by
    have hle := ht.length_le
    rw [hr₁] at hle
    rw [hr]
    exact Nat.lt_succ_of_lt hle
  exact labelled hr rfl hx (.after (.word hr hw.inside rfl hw.ordinary) hc) hlength hr₁ hne₁ (hw₁ ▸ rfl) (fun _ => rfl)
    (fun _ => rfl) (fun _ _ hb => .valueAndBody rfl hc.fits hb) fun _ => rfl

theorem plainLoop (hw : w.token.kind = .keyword .kwLoop) :
    Leaves s (m + 1) (Parse.plainLoop expr) s (Makes IsExpression around s) :=
  advance_first hr (by simp [hw]) fun hne => labelled (K := IsExpression) hr rfl hx (.nil (.refl s)) (by simp [hr]) hr hne (hw ▸ rfl)
    (fun _ => rfl) (fun _ => rfl) (fun _ _ hb => .onlyBody rfl hb) fun _ => rfl

theorem block (hw : w.token.kind = .keyword .kwBlock) : Leaves s (m + 1) (Parse.block expr) s (Makes IsExpression around s) :=
  advance_first hr (by simp [hw]) fun hne => labelled (K := IsExpression) hr rfl hx (.nil (.refl s)) (by simp [hr])
    hr hne (hw ▸ rfl) (fun _ => rfl) (fun _ => rfl) (fun _ _ hb => .onlyBody rfl hb) fun _ => rfl

/-- Where the keyword between the two bodies is missing, the second is empty. -/
theorem protect (hw : w.token.kind = .keyword .kwProtect) :
    Leaves s (m + 1) (Parse.protect expr) s (Makes IsExpression around s) := by
  have hne : w.token.kind ≠ .endOfFile := by simp [hw]
  have hw : bracketing w.token.kind = .opens .protect := by rw [hw]; rfl
  refine advance_first hr hne fun _ => (body hx (some .protect)).bind fun content t _ hb => ?_
  refine closing (fun _ _ hr₁ hne₁ hw₁ => ?_) fun problem span => ?_
  · refine (body hx (some .protect)).bind fun last u _ hl => ?_
    have hnests := hb.nests.trans ((Nests.divider hr₁ (hw₁ ▸ rfl)).trans hl.nests)
    exact enclosed hr rfl hne hw ⟨hb.trace.apart hr₁ hne₁ hl.trace, hnests⟩ rfl (.protect hb.isBody hl.isBody)
      fun _ _ => rfl
  · have hend : (t.tell problem span).AtBodyEnd := hb.ended
    refine (body_of_endsBody hend).bind fun last u hu ⟨hl, hvacant⟩ => ?_
    have hlt : (s.pass w ws).errors < u.errors := by
      refine Nat.lt_of_lt_of_le ?_ hu.errors_le
      rw [State.tell_errors]
      exact Nat.lt_succ_of_le hb.nests.errors_le
    have htrace := (hb.trace.on (.tell _ _)).append hl (.inr (by simpa using .inr hvacant))
    exact enclosed hr rfl hne hw ⟨htrace, .of_lt hlt⟩ rfl (.protect hb.isBody hvacant.1) fun _ _ => rfl

omit hx hr in
theorem attemptVariable (around : Option Enclosure) : Leaves s m Parse.attemptVariable s fun ns t =>
    Bears IsAttemptVariable (Nests around) s ns t ∧ ∃ binding : Option Node, ns = binding.toList := by
  refine isKeyword fun w ws hr => ite (fun hw => ?_) fun _ => pure ⟨.nil (.refl s), none, rfl⟩
  refine skip_word hr (by simp [of_decide_eq_true hw]) fun hne => identifier fun u us hr' hw' => ?_
  exact made_bind (K := IsAttemptVariable) (.pass hr hne) (.name hr' hw' rfl (.leaf rfl) ⟨_, rfl⟩) fun v t _ hv =>
    pure ⟨.after (.word hr hne (of_decide_eq_true hw) rfl) hv, some v, rfl⟩

theorem attemptConstruct (hw : w.token.kind = .keyword .kwTry) :
    Leaves s (m + 1) (Parse.attemptConstruct expr) s (Makes IsExpression around s) := by
  refine advance_first hr (by simp [hw]) fun hne => (attemptVariable (some .attempt)).bind fun _ t _ ⟨hv, binding, he⟩ => ?_
  subst he
  refine (body hx (some .attempt)).bind fun content u _ hb => (handlers hx).bind fun hs v _ hhs => ?_
  have hfront := hv.join hb.toCrosses
  have hparts := hfront.trace.append hhs.trace (.inr fun h hh => .inl (hhs.kinds h hh))
  refine enclosed hr rfl hne (hw ▸ rfl) ⟨hparts, hfront.nests.trans hhs.nests⟩ rfl ?_ fun _ _ => rfl
  simpa using Layout.attempt (fun v hm => hv.kinds v (by simpa using hm)) hb.isBody hhs.kinds

theorem guarded {kind : Node.Kind} {word : Keyword} {wanted : Wanted} (hne : w.token.kind ≠ .endOfFile)
    (hw : bracketing w.token.kind = .opens e) (hword : bracketing (.keyword word) = .closes e) (hk : isPlain kind)
    (hv : kind.takesValueAndBody) (he : kind.isExpression) : Leaves s (m + 1) (Parse.guarded expr kind word wanted) s (Makes IsExpression around s) := by
  refine advance_first hr hne fun _ => (hx .lowest _ (some e)).bind fun guard t _ hg => ?_
  refine (body hx (some e)).bind fun content u _ hb => ?_
  exact enclosed hr hword hne hw (hg.join hb.toCrosses) hk (.valueAndBody hv hg.fits hb.isBody) fun _ _ => he

/-! ## Expressions -/

theorem unaryOperation (operator : UnaryOperator) (precedence : Precedence) (hw : IsOrdinary w.token.kind) :
    Leaves s (m + 1) (Parse.unaryOperation expr operator precedence) s (Makes IsExpression around s) := by
  refine advance_first hr hw.inside fun _ => (hx precedence _ around).bind fun operand t _ ho => ?_
  exact made (.single (.prefixing hr hw.inside ho.trace ho.kind_ne rfl (.unary ho.fits)) (by simp) rfl
    ((Nests.word hr hw.ordinary).trans ho.nests).give)

omit hx in
theorem globalReference (hw : IsOrdinary w.token.kind) :
    Leaves s (m + 1) Parse.globalReference s (Makes IsExpression around s) :=
  advance_first hr hw.inside fun _ => identifier fun _ _ hr' hw' =>
    made ((Crosses.word hr' (by simp [hw']) hw' rfl).begun hr hw rfl (.leaf rfl) rfl)

theorem parenthesised (hw : w.token.kind = .leftParen) :
    Leaves s (m + 1) (Parse.parenthesised expr) s (Makes IsExpression around s) := by
  refine skip_first hr (by simp [hw]) fun hne => (hx .lowest _ (some .parentheses)).bind fun inner t _ hi => ?_
  exact token (by simp) fun _ _ hr' hne' hw' => pure (.enclosed hr hne hw rfl (hi.shut hr' hne' hw' rfl))

theorem vector (hw : w.token.kind = .leftBrace) : Leaves s (m + 1) (Parse.vector expr) s (Makes IsExpression around s) := by
  refine advance_first hr (by simp [hw]) fun hne => (arguments hx rfl (by simp)).bind fun elements t _ he => madeFrom ?_
  exact .opened hr hne he.trace (Nests.enclosed hr (hw ▸ rfl) he.nests).give rfl (.values rfl he.kinds) rfl

end

theorem unexpected : Leaves s m Parse.unexpected s (Makes IsExpression around s) := current fun _ _ _ => failWith

theorem operand (hx : ReadsExpressions m expr) (around : Option Enclosure) :
    Leaves s (m + 1) (Parse.operand expr) s (Makes IsExpression around s) := by
  refine current fun w ws hr => ?_
  split
  · rename_i hl
    have hw := isOrdinary_of_literal hl
    exact skip_word hr hw.inside fun _ => made (.leaf hr hw rfl (.leaf rfl) rfl)
  split
  case h_1 hw => exact skip_word hr (by simp [hw]) fun _ => made (.name hr hw rfl (.leaf rfl) rfl)
  case h_2 hw => exact globalReference hr (hw ▸ ⟨rfl, by simp⟩)
  case h_3 hw => exact parenthesised hx hr hw
  case h_4 hw => exact vector hx hr hw
  case h_9 hw => exact procedure hx hr false hw
  case h_10 hw =>
    refine upcoming hr (by simp [hw]) (ite (fun hnext => skip_word hr (by simp [hw]) fun hne => ?_) fun _ => unexpected)
    cases ws with
    | nil => cases hnext
    | cons v vs =>
      have hprocedure : Leaves (s.pass w (v :: vs)) (m + 1) (Parse.procedure expr true) (s.pass w (v :: vs))
          (Makes IsExpression around (s.pass w (v :: vs))) := procedure hx rfl true (of_decide_eq_true hnext)
      exact hprocedure.mono fun n t _ hn => .after (.word hr hne hw rfl) hn
  case h_11 hw => exact conditional hx hr hw
  case h_12 hw => exact forLoop hx hr (hw ▸ ⟨rfl, by simp⟩)
  case h_13 hw => exact whileLoop hx hr (hw ▸ ⟨rfl, by simp⟩)
  case h_14 hw => exact plainLoop hx hr hw
  case h_15 hw => exact block hx hr hw
  case h_16 hw => exact protect hx hr hw
  case h_17 hw => exact attemptConstruct hx hr hw
  case h_18 hw => exact guarded (e := .lock) hx hr (by simp [hw]) (hw ▸ rfl) rfl rfl rfl rfl
  case h_19 hw => exact guarded (e := .catching) hx hr (by simp [hw]) (hw ▸ rfl) rfl rfl rfl rfl
  case h_20 => exact unexpected
  all_goals
    rename_i hw
    exact unaryOperation hx hr _ _ (hw ▸ ⟨rfl, by simp⟩)

theorem assignedValue (hx : ReadsExpressions m expr) (around : Option Enclosure) :
    Leaves s m (Parse.assignedValue expr) s fun x t => Bears IsExpression (Nests around) s x.2 t := by
  refine current fun w ws hr => ite (fun hw => ?_) fun _ => pure (.nil (.refl s))
  have hordinary : bracketing w.token.kind = .ordinary := by rcases hw with hw | hw <;> rw [hw] <;> rfl
  refine skip_word hr (by rcases hw with hw | hw <;> simp [hw]) fun hne => (hx .lowest _ around).bind fun v t _ hv => pure ?_
  exact .after (.word hr hne rfl hordinary) hv

theorem argumentsHere (hx : ReadsExpressions m expr) (around : Option Enclosure) :
    Leaves s m (Parse.argumentsHere expr) s (Bears IsExpression (Nests around) s) := by
  refine onSameLine fun here => kind fun w ws hr => ite (fun hw => ?_) fun _ => pure (.nil (.refl s))
  have hw : w.token.kind = .leftParen := of_decide_eq_true (Bool.and_eq_true_iff.mp hw).2
  exact skip_word hr (by simp [hw]) fun hne => (arguments hx rfl (by simp)).mono fun _ t _ ha => .enclosed hr hne hw rfl ha

section

variable (hx : ReadsExpressions m expr) {left : Node} (hl : Makes IsExpression around s left t) (hr : t.rest = w :: ws)
  {kind : Node.Kind} {u : State}

include hl hr

omit hl hr in
/-- A longer expression is made, further on. -/
def Extends (around : Option Enclosure) (s t : State) (n : Node) (u : State) : Prop :=
  Makes IsExpression around s n u ∧ u.rest.length < t.rest.length

omit hr in
/-- What is applied to arguments and, perhaps, a value to assign. -/
theorem appliedTo {v : Word} {vs : List Word} {args : List Node} (hr : t.rest = v :: vs) (hne : v.token.kind ≠ .endOfFile)
    (ha : Trace (t.pass v vs) args u) (hn : Nests around t u) (hargs : ∀ a ∈ args, IsExpression a) (hk : isPlain kind)
    (hv : kind.takesArguments) (he : kind.isExpression) :
    Leaves s m (Parse.nodeFrom kind left.span (left :: args)) u (Extends around s t) :=
  have h := Trace.leading hl.trace hl.kind_ne hr hne ha hk (.applied hv hl.fits hargs)
  nodeFrom h ⟨.single h (ne_body_of_isPlain hk) he (hl.nests.trans hn).give, Nat.lt_of_le_of_lt ha.length_le (Trace.pass_lt hr)⟩

include hx

theorem invocation (hw : w.token.kind = .dot) :
    Leaves s (m + 1) (Parse.invocation expr left) t (Extends around s t) := by
  refine skip_first hr (by simp [hw]) fun hne => identifier fun _ _ hr₁ hw₁ => ?_
  refine (argumentsHere hx around).bind fun args t₁ _ ha => ?_
  refine (assignedValue hx around).bind fun (chevron, value) t₂ _ hv => ?_
  have hargs := Bears.after (.word hr₁ (by simp [hw₁]) hw₁ rfl) (ha.append hv)
  exact appliedTo hl hr hne hargs.trace ((Nests.word hr (hw ▸ rfl)).trans hargs.nests) hargs.kinds rfl rfl rfl

theorem indexing (hw : w.token.kind = .leftBracket) :
    Leaves s (m + 1) (Parse.indexing expr left) t (Extends around s t) := by
  refine skip_first hr (by simp [hw]) fun hne => (arguments hx rfl (by simp)).bind fun args t₁ _ ha => ?_
  refine (assignedValue hx around).bind fun (chevron, value) t₂ _ hv => ?_
  have hargs : Bears IsExpression (Nests around) t args t₁ := .enclosed hr hne hw rfl ha
  exact appliedTo hl hr hne (ha.trace.append hv.trace (.inl ha.bodiless)) (hargs.nests.trans hv.nests)
    (hargs.append hv).kinds rfl rfl rfl

theorem call (hw : w.token.kind = .leftParen) : Leaves s (m + 1) (Parse.call expr left) t (Extends around s t) := by
  refine skip_first hr (by simp [hw]) fun hne => (arguments hx rfl (by simp)).bind fun args t₁ _ ha => ?_
  exact appliedTo hl hr hne ha.trace (.enclosed hr (hw ▸ rfl) ha.nests) ha.kinds rfl rfl rfl

omit hx in
/-- The right operand, after the operator. -/
theorem operationNode {right : Node} (hw : IsOrdinary w.token.kind)
    (hright : Makes IsExpression around (t.pass w ws) right u) (hk : isPlain kind) (layout : Layout kind [left, right])
    (he : kind.isExpression) : Leaves s m (Parse.operationNode left right kind) u (Extends around s t) :=
  have h := Trace.joining hl.trace hl.kind_ne hr hw.inside hright.trace hright.kind_ne hk layout
  node h ⟨.single h (ne_body_of_isPlain hk) he (hl.nests.trans ((Nests.word hr hw.ordinary).trans hright.nests)).give,
    Nat.lt_of_le_of_lt hright.trace.length_le (Trace.pass_lt hr)⟩

theorem assignmentTo (hw : IsOrdinary w.token.kind) (hk : isPlain kind) (ha : kind.isSingleAssignment)
    (he : kind.isExpression) :
    Leaves s m (Parse.assignmentTo expr left kind) (t.pass w ws) (Extends around s t) := by
  refine (hx .lowest _ around).bind fun right u _ hright => ite (fun hname => ?_) fun _ => failWith
  refine operationNode hl hr hw hright hk (.assignment ha ?_ hright.fits) he
  -- only an identifier has a name
  cases hkind : left.kind with
  | identifier name => exact ⟨name, rfl⟩
  | _ => simp [Node.identifierName?, hkind] at hname

theorem operation (op : Operation) (hw : IsOrdinary w.token.kind) :
    Leaves s (m + 1) (Parse.operation expr left op) t (Extends around s t) := by
  refine skip_first hr hw.inside fun _ => ?_
  cases op with
  | assign | augment operator => exact assignmentTo hx hl hr hw rfl rfl rfl
  | combine operator =>
    exact (hx _ _ around).bind fun right u _ hright =>
      operationNode hl hr hw hright rfl (.binary hl.fits hright.fits) rfl

omit hr in
theorem extend (precedence : Precedence) :
    Leaves s (m + 1) (Parse.extend expr precedence left) t
      (RoundLeaves (Makes IsExpression around s) (Makes IsExpression around s) t) := by
  refine kind fun w ws hr => onSameLine fun _ => ?_
  have again {p : Parse Node} (h : Leaves s (m + 1) p t (Extends around s t)) :
      Leaves s (m + 1) (p >>= fun n => Pure.pure (.again n)) t
        (RoundLeaves (Makes IsExpression around s) (Makes IsExpression around s) t) :=
    follow .refl hl.trace.drop h fun _ _ _ _ hn => pure hn
  refine ite (fun hw => again (invocation hx hl hr hw)) fun _ => ?_
  refine ite (fun hw => again (call hx hl hr hw.1)) fun _ => ?_
  refine ite (fun hw => again (indexing hx hl hr hw.1)) fun _ => ?_
  split
  · exact pure hl
  · rename_i hop
    exact ite (fun _ => pure hl) fun _ => again (operation hx hl hr _ (isOrdinary_of_operation hop))

end

theorem reads_expression : ReadsExpressions m Parse.expression := by
  intro precedence s around
  -- inner expressions are read further on, where the induction hypothesis holds
  induction hn : s.rest.length using Nat.strongRecOn generalizing m precedence s around with
  | ind n ih =>
    subst hn
    let inner : Parse.ReadsExpression := fun p t =>
      if t.rest.length < s.rest.length then Parse.expression p t else .fault .noProgress
    have hinner : ReadsExpressions s.rest.length inner := by
      intro p t around
      by_cases hlt : t.rest.length < s.rest.length
      · exact of_eq (by simp [inner, hlt]) (ih _ hlt p t around rfl)
      · exact of_fault .noProgress (by simp [inner, hlt]) fun _ => Nat.le_of_not_lt hlt
    have hwith : Leaves s (s.rest.length + 1) (Parse.expressionWith inner precedence) s (Makes IsExpression around s) :=
      (operand hinner around).bind fun first t _ hf =>
        loop (Makes IsExpression around s) hf fun left u _ hl => extend hinner hl precedence
    exact (of_eq (by rw [Parse.expression]) hwith).faultless

/-! ## Files -/

theorem packageItem (hr : s.rest = w :: ws) (hw : IsOrdinary w.token.kind) :
    Leaves s m Parse.packageItem s (Makes IsItem around s) :=
  advance_word hr hw.inside fun _ => identifier fun _ _ hr' hw' =>
    made ((Crosses.word hr' (by simp [hw']) hw' rfl).begun hr hw rfl (.leaf rfl) rfl)

theorem parametersHere (around : Option Enclosure) :
    Leaves s m Parse.parametersHere s (Bears IsParameter (Nests around) s) := by
  refine onSameLine fun _ => kind fun w ws hr => ite (fun hw => ?_) fun _ => pure (.nil (.refl s))
  have hw : w.token.kind = .leftParen := of_decide_eq_true (Bool.and_eq_true_iff.mp hw).2
  exact skip_word hr (by simp [hw]) fun hne => (parameters rfl (by simp)).mono fun _ t _ hps => .enclosed hr hne hw rfl hps

theorem methodSignature (around : Option Enclosure) :
    Leaves s m Parse.methodSignature s fun x t => Bears IsParameter (Nests around) s x.2 t := by
  refine current fun w ws hr => ite (fun hw => ?_) fun _ => ite (fun hw => ?_) fun _ => failWith
  · refine skip_word hr (by simp [hw]) fun hne => identifier fun _ _ hr' hw' => (parametersHere around).bind fun ps t _ hps => pure ?_
    exact .after (.after (.word hr hne hw rfl) (.word hr' (by simp [hw']) hw' rfl)) hps
  · refine skip_word hr (by simp [hw]) fun hne => (parameters rfl (by simp)).bind fun ps t _ hps => pure ?_
    exact .enclosed hr hne hw rfl hps

theorem assignedParameter (around : Option Enclosure) :
    Leaves s m Parse.assignedParameter s fun x t => Bears IsParameter (Nests around) s x.2 t := by
  refine current fun w ws hr => ite (fun hw => ?_) fun _ => pure (.nil (.refl s))
  have hordinary : bracketing w.token.kind = .ordinary := by rcases hw with hw | hw <;> rw [hw] <;> rfl
  refine skip_word hr (by rcases hw with hw | hw <;> simp [hw]) fun hne => (parameter _ around).bind fun p t _ hp => pure ?_
  exact .after (.word hr hne rfl hordinary) hp

theorem methodItem (hr : s.rest = w :: ws) : Leaves s m (Parse.methodItem w.token.span) s (Makes IsItem around s) := by
  refine doc fun _ => remaining ?_
  have hmodifiers : ∀ w ∈ s.rest.takeWhile fun w => Parse.isMethodModifier w.token.kind,
      IsOrdinary w.token.kind := fun w hw =>
    isOrdinary_of_methodModifier (List.all_eq_true.mp List.all_takeWhile w hw)
  refine (skip_words _ _ List.takeWhile_append_dropWhile.symm (by simp) fun w hw => (hmodifiers w hw).inside).bind
    fun _ o ho hpassed => ?_
  replace hpassed := hpassed fun w hw => (hmodifiers w hw).ordinary
  refine token (by simp) fun w₁ ws₁ hr₁ hne₁ hw₁ => identifier fun _ _ hr₂ hw₂ => ?_
  refine (methodSignature (some .method)).bind fun (name, ps) t₁ _ hps => ?_
  refine (assignedParameter (some .method)).bind fun (chevron, value) t₂ _ hv => ?_
  have hparameters := Bears.after (.word hr₂ (by simp [hw₂]) hw₂ rfl) (hps.append hv)
  have hlength : t₂.rest.length < s.rest.length := by
    refine Nat.lt_of_le_of_lt hparameters.trace.length_le (Nat.lt_of_lt_of_le ?_ ho.length_le)
    simp [hr₁]
  -- the parameters are read from the first modifier on, but what they are nested in begins later
  have hall : Bears IsParameter (fun _ t => Nests (some .method) (o.pass w₁ ws₁) t) s (ps ++ value) t₂ :=
    ⟨⟨(ho.on (.pass hr₁ hne₁)).after hparameters.trace, hparameters.nests⟩, hparameters.kinds, hparameters.bodiless⟩
  have hlist : Leaves s m (Parse.parameterList (ps ++ value)) t₂
      (Bears IsParameterList (fun _ t => Nests (some .method) (o.pass w₁ ws₁) t) s [·]) :=
    previousSpan (made (.single (.listing hall.trace hall.bodiless hlength (.parameterList hall.kinds)) (by simp) rfl
      hall.nests.give))
  refine follow .refl hall.trace.drop hlist fun list t₃ _ ht₃ hl => doc fun _ => ?_
  refine (body reads_expression (some .method)).bind fun content t₄ ht₄ hb => ?_
  have hlength : t₄.rest.length < s.rest.length := Nat.lt_of_le_of_lt (Nat.le_trans ht₄.length_le ht₃) hlength
  exact closed hr rfl (hl.trace.append hb.trace (.inl hl.bodiless)) hlength (hpassed around).nests hr₁
    (hw₁ ▸ rfl) (hl.nests.trans hb.nests) rfl (.definition rfl hl.fits hb.isBody) fun _ _ => rfl

/-- A parser that gives up reports that, unless it stands at a pragma without an end. -/
def Confesses (m : Nat) (p : Parse α) (s : State) (Q : α → State → Prop) : Prop :=
  match p s with
  | .found a t => Trace s [] t ∧ Q a t
  | .gaveUp t => Trace s [] t ∧ (s.errors < t.errors ∨ OpenPragma s.rest)
  | .fault _ => s.Closed → m ≤ s.rest.length

theorem confesses {p : Parse α} {Q : α → State → Prop} (h : Leaves s m p s Q) : Confesses m p s Q := by
  have h := h .refl
  unfold Confesses
  cases hp : p s with
  | found a t =>
    simp only [hp] at h
    exact ⟨h.1, h.2.2⟩
  | gaveUp t =>
    simp only [hp] at h
    exact ⟨h.1, .inl h.2⟩
  | fault f => simpa only [hp] using h

theorem pragma (hr : s.rest = w :: ws) (hk : w.token.kind = .keyword .kwPragma) :
    Confesses m Parse.pragma s fun _ t => t.rest.length < s.rest.length := by
  by_cases hopen : OpenPragma s.rest
  · obtain ⟨opening, paren, rest, he, ho, hp, hnone⟩ := id hopen
    have hrun : Parse.pragma s =
        (Parse.skip (Parse.toEnd rest) >>= fun _ => Parse.fail) ((s.pass opening (paren :: rest)).pass paren rest) := by
      simp [Parse.pragma, Parse.token, Parse.skip, Parse.advance, Parse.current, Parse.remaining, Parse.bind_apply,
        Parse.pure_apply, State.pass, he, ho, hp, hnone]
    have hpassed : Trace s [] ((s.pass opening (paren :: rest)).pass paren rest) :=
      (Trace.pass he (by simp [ho])).on (.pass rfl (by simp [hp]))
    have hskip : Leaves ((s.pass opening (paren :: rest)).pass paren rest) m (Parse.skip (Parse.toEnd rest))
        ((s.pass opening (paren :: rest)).pass paren rest) _ :=
      skip_words _ _ List.takeWhile_append_dropWhile.symm rfl fun w hw => by
        simpa using List.all_eq_true.mp List.all_takeWhile w hw
    have hskip := hskip .refl
    unfold Confesses
    rw [hrun, Parse.bind_apply]
    cases hs : Parse.skip (Parse.toEnd rest) ((s.pass opening (paren :: rest)).pass paren rest) with
    | found _ t | gaveUp t =>
      simp only [hs] at hskip
      exact ⟨hpassed.on hskip.1, .inr hopen⟩
    | fault f =>
      simp only [hs] at hskip
      exact fun hc => Nat.le_trans (hskip (hpassed.closed hc)) hpassed.length_le
  · refine confesses (skip_word hr (by simp [hk]) fun _ => token (by simp) fun w₂ ws₂ hr₂ _ hk₂ => remaining ?_)
    cases hrest : Parse.pragmaRest 1 ws₂ with
    | some k =>
      rw [State.pass_rest, hrest]
      obtain ⟨passed, rest, he, hl, hne⟩ := pragmaRest_split hrest
      refine (skip_words passed rest he hl hne).mono fun _ t ht _ => Nat.lt_of_le_of_lt ht.length_le ?_
      exact Nat.lt_trans (Trace.pass_lt hr₂) (Trace.pass_lt hr)
    | none =>
      rw [State.pass_rest] at hr₂
      exact absurd ⟨w, w₂, ws₂, by rw [hr, hr₂], hk, hk₂, hrest⟩ hopen

/-- An item is made or a pragma is passed. -/
def Adds (s : State) (x : Option Node) (t : State) : Prop := Bears IsItem Tidy s x.toList t ∧ t.rest.length < s.rest.length

theorem item : Confesses m Parse.item s (Adds s) := by
  have kept {p : Parse Node} (h : Leaves s m p s (Makes IsItem none s)) :
      Leaves s m (p >>= fun n => Pure.pure (some n)) s (Adds s) :=
    h.bind fun n t _ hn => pure ⟨hn.weaken fun h _ => h, hn.moved⟩
  have hstatement := kept ((statement reads_expression none).mono fun _ _ _ h => h.mono fun _ => Node.Kind.isItem_of_isStatement)
  cases hr : s.rest with
  | nil =>
    simp only [Confesses, Parse.item, Parse.bind_apply, Parse.current, hr]
    rintro ⟨e, hc⟩
    rw [hr] at hc
    cases hc
  | cons w ws =>
    by_cases hk : w.token.kind = .keyword .kwPragma
    · have hitem : Parse.item s = (Parse.pragma >>= fun _ => Pure.pure none) s := by
        simp [Parse.item, Parse.bind_apply, Parse.current, hr, hk]
      have h := pragma (m := m) hr hk
      unfold Confesses at h ⊢
      rw [hitem, Parse.bind_apply]
      cases hp : Parse.pragma s with
      | found a t =>
        simp only [hp] at h
        exact ⟨h.1, ⟨⟨h.1, fun hnone => absurd hk (hnone w (by simp [hr]))⟩, by simp, by simp⟩, h.2⟩
      | gaveUp t | fault f => simpa only [hp] using h
    · refine confesses (current fun w' ws' hr' => ?_)
      cases hr.symm.trans hr'
      split
      case h_1 hw => exact kept (packageItem hr (hw ▸ ⟨rfl, by simp⟩))
      case h_2 hw => exact absurd hw hk
      case h_6 hw => exact upcoming hr (by simp [hw]) (ite (fun _ => kept (methodItem hr)) fun _ => hstatement)
      case h_7 => exact hstatement
      all_goals exact kept (methodItem hr)

theorem attempt_item :
    Leaves s m (Parse.attempt Parse.item) s fun answer t => match answer with
      | some x => Adds s x t
      | none => s.errors < t.errors ∨ OpenPragma s.rest := by
  intro _
  have h : Confesses m Parse.item s (Adds s) := item
  unfold Confesses at h
  unfold Parse.attempt
  cases hr : Parse.item s with
  | found x t | gaveUp t =>
    simp only [hr] at h ⊢
    exact ⟨h.1, h.1.length_le, h.2⟩
  | fault f => simpa only [hr] using h

theorem itemRound : Leaves b m (Parse.itemRound ()) s (RoundLeaves (fun _ _ => True) (fun _ _ => True) s) :=
  kind fun _ _ hr => ite (fun _ => pure trivial) fun hk =>
    skip_word hr (fun he => hk (by simp [startsItem, he])) fun _ => pure ⟨trivial, Trace.pass_lt hr⟩

theorem skipItem (hr : s.rest = w :: ws) (hne : w.token.kind ≠ .endOfFile) (h : Trace s [] t)
    (hs : s.errors < t.errors ∨ OpenPragma s.rest) :
    Leaves s m (Parse.skipItem s.rest) t fun n u => Bears IsItem Tidy s [n] u := by
  refine (leave hr hne h).bind fun _ u hu hl => ?_
  have hrounds : Leaves u m (Parse.loop Parse.itemRound ()) u fun _ _ => True :=
    loop (fun _ _ => True) trivial fun _ _ _ _ => itemRound
  refine hrounds.bind fun _ v hv _ => ?_
  have hs' := hs.imp_left fun hs => Nat.lt_of_lt_of_le hs (hu.on hv).errors_le
  refine syntaxError ((h.on hu).on hv) (Nat.lt_of_le_of_lt hv.length_le hl) hs' fun n x hn hk he => ?_
  refine .single hn (by simp [hk]) (by rw [IsItem, hk]; rfl) fun hnone => ?_
  rcases hs' with hlt | ⟨opening, _, _, hr, ho, -⟩
  · exact .of_lt (he ▸ hlt)
  · exact absurd ho (hnone opening (by simp [hr]))

theorem addItem (hr : s.rest = w :: ws) (hne : w.token.kind ≠ .endOfFile) :
    Leaves s m (Parse.addItem items) s fun items' t => ∃ x, items' = items ++ x.toList ∧ Adds s x t := by
  refine upcoming hr hne (attempt_item.bind fun answer u hu hanswer => ?_)
  match answer with
  | some (some n) => exact pure ⟨some n, rfl, hanswer⟩
  | some none => exact pure ⟨none, by simp, hanswer⟩
  | none =>
    rw [← hr]
    exact follow .refl hu (skipItem hr hne hu hanswer) fun n v _ _ hn => pure ⟨some n, rfl, hn, hn.moved⟩

/-- A round passes a separator or adds an item, or it is the last. -/
theorem fileRound :
    Leaves s m (Parse.fileRound items) s (RoundLeaves (fun items' t => ∃ ms, items' = items ++ ms ∧ Bears IsItem Tidy s ms t)
      (fun items' t => items' = items ∧ t = s ∧ ∃ w ws, s.rest = w :: ws ∧ w.token.kind = .endOfFile) s) := by
  refine kind fun w ws hr => ite (fun hw => pure ⟨rfl, rfl, w, ws, hr, hw⟩) fun hne => ite (fun hw => ?_) fun _ => ?_
  · have hone : Nested none [w.token.kind] := by
      rcases hw with hw | hw
      · exact .separator (hw ▸ rfl) .nil
      · exact .ordinary (hw ▸ rfl) .nil
    exact skip_word hr hne fun _ =>
      pure ⟨⟨[], by simp, ⟨.pass hr hne, fun _ => .pass hr hone⟩, by simp, by simp⟩, Trace.pass_lt hr⟩
  · exact (addItem hr hne).bind fun _ _ _ ⟨x, he, hx, hl⟩ => pure ⟨⟨x.toList, he, hx⟩, hl⟩

theorem fileItems : Leaves s m Parse.fileItems s fun items t =>
    Bears IsItem Tidy s items t ∧ ∃ w ws, t.rest = w :: ws ∧ w.token.kind = .endOfFile := by
  refine loop (Bears IsItem Tidy s) ⟨⟨.refl, fun _ => .refl s⟩, by simp, by simp⟩ fun items t _ h => ?_
  refine fileRound.mono fun r u _ hr => ?_
  match r, hr with
  | .again _, ⟨⟨ms, he, hms⟩, hl⟩ => exact ⟨he ▸ h.append_tidy hms, hl⟩
  | .done _, ⟨he, ht, hend⟩ => exact ⟨he ▸ ht ▸ h, ht ▸ hend⟩

end Leaves

/-- The items of a file are the trees of a trace, the file is around them, and what is wrong with it is what
    was reported on the way. -/
theorem parse_traced (tokens : List Token) :
    ∃ items t, Bears IsItem Tidy (.start tokens) items t ∧
      let root : Node := ⟨t.next, .file, Span.nowhere.around (items.map Node.span), items⟩
      parse tokens = (⟨root, t.arena.add root⟩, t.diagnostics) := by
  have h := Leaves.fileItems (m := 0) (s := .start tokens) .refl
  cases hr : Parse.fileItems (.start tokens) with
  | found items t =>
    simp only [hr] at h
    exact ⟨items, t, h.2.2.1, by simp [parse, Parse.file, Parse.bind_apply, Parse.node, hr]⟩
  | _ =>
    refine ⟨[], .start tokens, ⟨⟨.refl, fun _ => .refl _⟩, by simp, by simp⟩, ?_⟩
    simp only [parse, Parse.file, Parse.bind_apply, hr]
    rfl

/-- Whatever the tokens are, their tree is a formed file. -/
theorem parse_formedFile (tokens : List Token) : (parse tokens).1.FormedFile := by
  obtain ⟨items, t, h, hparse⟩ := parse_traced tokens
  obtain ⟨hle, hbuilt⟩ := h.trace.built
  obtain ⟨hfresh, hformed⟩ := hbuilt.node hle (.file h.kinds) (Span.nowhere.around (items.map Node.span))
  rw [hparse]
  refine ⟨hformed _ (by simp), rfl, by simpa using hfresh.1, ?_, Arena.holds_add h.trace.kept.2 hbuilt hle⟩
  exact (t.arena.size_add _).symm

end Magik.Grammar
