/-
  Magik.Proofs.Grammar.Precedence — how operators between operands group.

  A formula is operands joined by binary operators, each operand under signs of its own. It
  is grouped if the operators that bind tighter stand further down, those that bind alike
  group to the left and powers to the right. The parser reads every grouped formula from the
  tokens that spell it (`expression_reads`, by induction on the formula: its left operand is
  what the loop already has, its right operand an inner expression). A chain of operands has
  a grouped formula, built by attaching one operand after the other (`Formula.attach`). It
  has no other, for the parser would read that one too.
-/

import Magik.Proofs.Grammar.Isolation
import Mathlib.Data.List.Forall2

namespace Magik.Grammar

variable {p q : BinaryOperator}

/-! ## Formulas -/

/-- What a token of a formula stands for. -/
inductive Mark where
  | atom (kind : Node.Kind)
  | sign (operator : UnaryOperator)
  | join (operator : BinaryOperator)

/-- The kind of the token a binary operator is written as. -/
def joinKind : BinaryOperator → Token.Kind
  | .identical => .keyword .kwIs
  | .notIdentical => .keyword .kwIsnt
  | .equal => .equal
  | .notEqual => .notEqual
  | .less => .less
  | .lessEqual => .lessEqual
  | .greater => .greater
  | .greaterEqual => .greaterEqual
  | .add => .plus
  | .subtract => .minus
  | .multiply => .star
  | .divide => .slash
  | .div => .keyword .kwDiv
  | .mod => .keyword .kwMod
  | .power => .starStar
  | .and => .keyword .kwAnd
  | .andIf => .keyword .kwAndIf
  | .or => .keyword .kwOr
  | .orIf => .keyword .kwOrIf
  | .xor => .keyword .kwXor

/-- The kind of the token a literal is; a reference to a global is written as two. -/
def literalKind? : Literal → Option Token.Kind
  | .integer value => some (.integer value)
  | .float value => some (.float value)
  | .string value => some (.string value)
  | .symbol name => some (.symbol name)
  | .character value => some (.character value)
  | .unset => some (.keyword .kwUnset)
  | .maybe => some (.keyword .kwMaybe)
  | .true => some (.keyword .kwTrue)
  | .false => some (.keyword .kwFalse)
  | .self => some (.keyword .kwSelfRef)
  | .clone => some (.keyword .kwClone)
  | .super => some (.keyword .kwSuper)
  | .thisThread => some (.keyword .kwThisThread)
  | .globalReference _ => none

theorem operation?_of_joinKind {k : Token.Kind} (h : k = joinKind p) : operation? k = some (.combine p) := by
  cases p <;> exact h ▸ rfl

theorem literal?_of_literalKind? {k : Token.Kind} {value : Literal} (h : literalKind? value = some k) :
    Parse.literal? k = some value := by
  cases value <;> cases h <;> rfl

inductive Mark.Spelled : Token → Mark → Prop
  | identifier {t : Token} : t.kind = .identifier → Spelled t (.atom (.identifier t.lexeme))
  | literal {t : Token} {value : Literal} : literalKind? value = some t.kind → Spelled t (.atom (.literal value))
  | minus {t : Token} : t.kind = .minus → Spelled t (.sign .negate)
  | plus {t : Token} : t.kind = .plus → Spelled t (.sign .plus)
  | tilde {t : Token} : t.kind = .tilde → Spelled t (.sign .tilde)
  | join {t : Token} {p : BinaryOperator} : t.kind = joinKind p → Spelled t (.join p)

inductive Formula where
  | atom (kind : Node.Kind)
  | signed (operator : UnaryOperator) (operand : Formula)
  | joined (operator : BinaryOperator) (left right : Formula)

/-- How tightly an operator binds, from the connectives to powers. -/
def tightness : BinaryOperator → Nat
  | .or | .orIf | .xor => 0
  | .and | .andIf => 1
  | .identical | .notIdentical | .equal | .notEqual | .less | .lessEqual | .greater | .greaterEqual => 2
  | .add | .subtract => 3
  | .multiply | .divide | .div | .mod => 4
  | .power => 5

namespace Formula

/-- From left to right, each operator between its operands. -/
def marks : Formula → List Mark
  | .atom kind => [.atom kind]
  | .signed u f => .sign u :: f.marks
  | .joined p f g => f.marks ++ .join p :: g.marks

/-- The binary operator on top. -/
def root? : Formula → Option BinaryOperator
  | .joined p _ _ => some p
  | _ => none

def Grouped : Formula → Prop
  | .atom _ => True
  | .signed _ f => f.root? = none ∧ f.Grouped
  | .joined p f g => f.Grouped ∧ g.Grouped ∧
      (∀ q ∈ f.root?, tightness p ≤ tightness q ∧ (p = .power → tightness p < tightness q)) ∧
      (∀ q ∈ g.root?, tightness p < tightness q ∨ p = .power ∧ tightness p = tightness q)

/-- A node has the shape of the formula and its marks. -/
def Renders : Formula → Node → Prop
  | .atom kind, n => n.kind = kind ∧ n.children = []
  | .signed u f, n => n.kind = .unary u ∧ ∃ c, n.children = [c] ∧ f.Renders c
  | .joined p f g, n => n.kind = .binary p ∧ ∃ l r, n.children = [l, r] ∧ f.Renders l ∧ g.Renders r

theorem Renders.eq {f g : Formula} {n : Node} (hf : f.Renders n) (hg : g.Renders n) : f = g := by
  induction f generalizing g n with
  | atom kind => cases g <;> simp_all [Renders]
  | signed u f ih =>
    obtain ⟨hk, c, hc, hf⟩ := hf
    cases g with
    | signed v g =>
      obtain ⟨hk', c', hc', hg⟩ := hg
      cases hk.symm.trans hk'
      cases hc.symm.trans hc'
      rw [ih hf hg]
    | _ => simp_all [Renders]
  | joined p f₁ f₂ ih₁ ih₂ =>
    obtain ⟨hk, l, r, hc, hl, hr⟩ := hf
    cases g with
    | joined q g₁ g₂ =>
      obtain ⟨hk', l', r', hc', hl', hr'⟩ := hg
      cases hk.symm.trans hk'
      cases hc.symm.trans hc'
      rw [ih₁ hl hl', ih₂ hr hr']
    | _ => simp_all [Renders]

end Formula

/-! ## Which of two operators takes the operand between them -/

/-- An operator `q` to the right of `p` takes what stands between them. -/
def Yields (p q : BinaryOperator) : Prop := tightness p < tightness q ∨ p = .power ∧ q = .power

theorem Yields.trans {r : BinaryOperator} (h : Yields p q) (h' : Yields q r) : Yields p r := by
  rcases h with h | ⟨rfl, rfl⟩
  · rcases h' with h' | ⟨rfl, rfl⟩
    · exact .inl (Nat.lt_trans h h')
    · exact .inl h
  · exact h'

theorem tightness_eq_five : tightness p = 5 ↔ p = .power := by cases p <;> decide

theorem tightness_le_five (p : BinaryOperator) : tightness p ≤ 5 := by cases p <;> decide

theorem level_precedenceOf (p : BinaryOperator) :
    (precedenceOf p).level = tightness p + if tightness p ≤ 1 then 2 else 3 := by
  cases p <;> rfl

theorem level_precedenceOf_le (h : tightness p ≤ tightness q) : (precedenceOf p).level ≤ (precedenceOf q).level := by
  rw [level_precedenceOf, level_precedenceOf]
  split <;> split <;> omega

/-- The parser leaves the operand to the left operator unless that one yields. -/
theorem level_le_right_iff : (precedenceOf q).level ≤ (rightPrecedence p).level ↔ ¬ Yields p q := by
  have hq := level_precedenceOf q
  have hp := level_precedenceOf p
  have hq' := @tightness_eq_five q
  have hlq := tightness_le_five q
  by_cases h : p = .power
  · subst h
    have hr : (rightPrecedence .power).level = 7 := rfl
    have ht : tightness .power = 5 := rfl
    rw [hq, hr, Yields, ht, ← hq']
    simp only [true_and]
    split <;> omega
  · have hr : rightPrecedence p = precedenceOf p := by cases p <;> first | rfl | exact absurd rfl h
    rw [hr, hq, hp, Yields]
    simp only [h, false_and, or_false]
    split <;> split <;> omega

/-! ## The grouped formula of a chain -/

structure Operand where
  signs : List UnaryOperator
  kind : Node.Kind

/-- Operands with binary operators between them. -/
structure Chain where
  first : Operand
  more : List (BinaryOperator × Operand)

def Operand.marks (o : Operand) : List Mark := o.signs.map .sign ++ [.atom o.kind]

def Chain.marks (c : Chain) : List Mark := c.first.marks ++ c.more.flatMap fun m => .join m.1 :: m.2.marks

def Operand.formula (o : Operand) : Formula := o.signs.foldr .signed (.atom o.kind)

namespace Operand

variable (o : Operand)

theorem marks_formula : o.formula.marks = o.marks := by
  obtain ⟨signs, kind⟩ := o
  induction signs with
  | nil => rfl
  | cons u signs ih => exact congrArg (Mark.sign u :: ·) ih

theorem root?_formula : o.formula.root? = none := by
  obtain ⟨signs, kind⟩ := o
  cases signs <;> rfl

theorem grouped_formula : o.formula.Grouped := by
  obtain ⟨signs, kind⟩ := o
  induction signs with
  | nil => trivial
  | cons u signs ih => exact ⟨root?_formula ⟨signs, kind⟩, ih⟩

end Operand

namespace Formula

variable {p : BinaryOperator} {f x : Formula}

theorem grouped_joined {g : Formula} : (Formula.joined p f g).Grouped ↔
      f.Grouped ∧ g.Grouped ∧ (∀ q ∈ f.root?, ¬ Yields q p) ∧ (∀ q ∈ g.root?, Yields p q) := by
  have left (q : BinaryOperator) :
      (tightness p ≤ tightness q ∧ (p = .power → tightness p < tightness q)) ↔ ¬ Yields q p := by
    have hp := @tightness_eq_five p
    have hq := @tightness_eq_five q
    have hl := tightness_le_five q
    rw [Yields, ← hp, ← hq]
    omega
  have right (q : BinaryOperator) :
      (tightness p < tightness q ∨ p = .power ∧ tightness p = tightness q) ↔ Yields p q := by
    have hp := @tightness_eq_five p
    have hq := @tightness_eq_five q
    rw [Yields, ← hp, ← hq]
    omega
  simp only [Grouped, left, right]

/-- Puts an operator and an operand behind a formula, as far down as operators yield. -/
def attach : Formula → BinaryOperator → Formula → Formula
  | .joined q f g, p, x =>
    if tightness q < tightness p ∨ q = .power ∧ p = .power then .joined q f (g.attach p x)
    else .joined p (.joined q f g) x
  | f, p, x => .joined p f x

theorem marks_attach (f : Formula) (p : BinaryOperator) (x : Formula) : (f.attach p x).marks = f.marks ++ .join p :: x.marks := by
  induction f with
  | atom kind => rfl
  | signed u f _ => rfl
  | joined q f g _ ih =>
    unfold attach
    split
    · simp [marks, ih]
    · rfl

theorem root?_attach (h : q ∈ (f.attach p x).root?) : q = p ∨ q ∈ f.root? := by
  cases f with
  | joined r f g =>
    unfold attach at h
    split at h
    · exact .inr h
    · exact .inl (Option.some.inj h).symm
  | _ => exact .inl (Option.some.inj h).symm

theorem Grouped.attach (hf : f.Grouped) (hx : x.Grouped) (hr : x.root? = none) : (f.attach p x).Grouped := by
  -- where the operator goes on top, its right operand is the new one
  have top {f : Formula} (hf : f.Grouped) (h : ∀ q ∈ f.root?, ¬ Yields q p) : (Formula.joined p f x).Grouped :=
    grouped_joined.mpr ⟨hf, hx, h, by simp [hr]⟩
  induction f with
  | atom kind | signed u f _ => exact top hf (by simp [root?])
  | joined q f g _ ih =>
    unfold Formula.attach
    split
    · rename_i hy
      obtain ⟨hl, hg, hfq, hgq⟩ := grouped_joined.mp hf
      refine grouped_joined.mpr ⟨hl, ih hg, hfq, fun r hr => ?_⟩
      rcases root?_attach hr with rfl | hr
      · exact hy
      · exact hgq r hr
    · rename_i hy
      exact top hf fun r hr => Option.some.inj hr ▸ hy

end Formula

def Chain.formula (c : Chain) : Formula := c.more.foldl (fun f m => f.attach m.1 m.2.formula) c.first.formula

theorem Chain.formula_spec (c : Chain) : c.formula.Grouped ∧ c.formula.marks = c.marks := by
  obtain ⟨first, more⟩ := c
  suffices ∀ f : Formula, f.Grouped →
      (more.foldl (fun f m => f.attach m.1 m.2.formula) f).Grouped ∧
        (more.foldl (fun f m => f.attach m.1 m.2.formula) f).marks =
          f.marks ++ more.flatMap fun m => .join m.1 :: m.2.marks by
    simpa [Chain.formula, Chain.marks, Operand.marks_formula] using this first.formula first.grouped_formula
  induction more with
  | nil => simp
  | cons m more ih =>
    intro f hf
    obtain ⟨hg, hm⟩ := ih _ (hf.attach m.2.grouped_formula m.2.root?_formula)
    exact ⟨hg, by simpa [Formula.marks_attach, Operand.marks_formula] using hm⟩

/-! ## Reading a formula -/

namespace Parse

variable {t : State} {words : List Word} {k : Token.Kind} {left : Node} {value : Literal}

/-- How an expression from `s` on reads those inside it. -/
def inner (s : State) : ReadsExpression := fun p t =>
  if t.rest.length < s.rest.length then expression p t else .fault .noProgress

theorem expression_of_operand {m : Precedence} {s : State} {first : Node} (h : operand (inner s) s = .found first t) :
    expression m s = loop (extend (inner s) m) first t := by
  rw [expression]
  exact bind_found h

theorem inner_eq {s : State} (h : t.rest.length < s.rest.length) (m : Precedence) : inner s m t = expression m t :=
  if_pos h

/-- The file ends, or an operator of a kind follows. -/
def Followed (P : BinaryOperator → Prop) (words : List Word) : Prop :=
  ∃ w ws, words = w :: ws ∧ (w.token.kind = .endOfFile ∨ ∃ q, operation? w.token.kind = some (.combine q) ∧ P q)

theorem Followed.mono {P Q : BinaryOperator → Prop} (h : Followed P words) (hq : ∀ q, P q → Q q) : Followed Q words := by
  obtain ⟨w, ws, hw, hk⟩ := h
  exact ⟨w, ws, hw, hk.imp_right fun ⟨q, ho, hp⟩ => ⟨q, ho, hq q hp⟩⟩

variable {e : ReadsExpression} {m : Precedence} {s : State} {w : Word} {ws : List Word}

/-- A binary operator is no token that goes on with an operand or ends the file. -/
theorem combines_ne (h : operation? k = some (.combine p)) :
    k ≠ .dot ∧ k ≠ .leftParen ∧ k ≠ .leftBracket ∧ k ≠ .endOfFile := by
  refine ⟨?_, ?_, ?_, ?_⟩ <;> rintro rfl <;> simp [operation?] at h

/-- The loop ends where nothing binds more tightly. -/
theorem loop_extend_done (h : Followed (fun q => (precedenceOf q).level ≤ m.level) s.rest) :
    loop (extend e m) left s = .found left s := by
  obtain ⟨w, ws, hr, hk | ⟨q, ho, hq⟩⟩ := h
  · rw [loop]
    simp [extend, bind_apply, pure_apply, kind, current, onSameLine, previous, hr, hk, operation?]
  · obtain ⟨hd, hp, hb, -⟩ := combines_ne ho
    rw [loop]
    simp [extend, bind_apply, pure_apply, kind, current, onSameLine, previous, hr, hd, hp, hb, ho,
      Operation.precedence, hq]

/-- The loop goes round where an operator binds more tightly and its right operand is read. -/
theorem loop_extend_join {right : Node} (hr : s.rest = w :: ws) (ho : operation? w.token.kind = some (.combine p))
    (hm : m.level < (precedenceOf p).level)
    (he : e (rightPrecedence p) { s with previous := some w.token, rest := ws } = .found right t)
    (ht : t.rest.length < s.rest.length) :
    loop (extend e m) left s =
      loop (extend e m) ⟨t.next, .binary p, left.span.union right.span, [left, right]⟩
        (t.give (.binary p) (left.span.union right.span) [left, right]) := by
  obtain ⟨hd, hp, hb, hend⟩ := combines_ne ho
  conv => lhs; rw [loop]
  have ht' : t.rest.length < ws.length + 1 := by simpa [hr] using ht
  simp [extend, operation, operationNode, node, State.give, bind_apply, pure_apply, kind, current, onSameLine, previous, skip,
    advance, hr, hd, hp, hb, hend, ho, Operation.precedence, Nat.not_le.mpr hm, he, ht']

theorem ends_of_literal (h : literal? k = some value) :
    k ≠ .endOfFile ∧ k ≠ .dollar ∧ k ≠ .semicolon ∧ ∀ text, k ≠ .docComment text := by
  refine ⟨?_, ?_, ?_, fun text => ?_⟩ <;> rintro rfl <;> cases h

theorem operand_atom {k : Node.Kind} (hr : s.rest = w :: ws) (hw : Mark.Spelled w.token (.atom k)) :
    operand e s = .found ⟨s.next, k, w.token.span, []⟩ ((s.pass w ws).give k w.token.span []) := by
  cases hw with
  | identifier h =>
    have hl : literal? .identifier = none := rfl
    simp [operand, bind_apply, pure_apply, current, skip, advance, node, State.give, State.pass, State.next, hr, h, hl]
  | literal hkind =>
    have h := literal?_of_literalKind? hkind
    simp [operand, bind_apply, pure_apply, current, skip, advance, node, State.give, State.pass, State.next, hr, h, ends_of_literal h]

/-- A sign reads its operand to bind more tightly than any operator. -/
theorem operand_sign {u : UnaryOperator} {inside : Node} (hr : s.rest = w :: ws) (hw : Mark.Spelled w.token (.sign u))
    (he : e .unary { s with previous := some w.token, rest := ws } = .found inside t) :
    operand e s = .found ⟨t.next, .unary u, w.token.span.union inside.span, [inside]⟩
      (t.give (.unary u) (w.token.span.union inside.span) [inside]) := by
  have hnone : literal? .minus = none ∧ literal? .plus = none ∧ literal? .tilde = none := ⟨rfl, rfl, rfl⟩
  cases hw with
  | _ h => simp [operand, unaryOperation, bind_apply, current, advance, node, State.give, State.next, hr, h, hnone, he]

theorem level_lt_unary (q : BinaryOperator) : (precedenceOf q).level ≤ Precedence.unary.level := by cases q <;> decide

/-- Reading gets through a grouped formula, if nothing that follows takes a part of it away. -/
theorem expression_reads (f : Formula) {rest : List Word} (hg : f.Grouped)
    (hm : ∀ q ∈ f.root?, m.level < (precedenceOf q).level) (hs : s.rest = words ++ rest)
    (hw : List.Forall₂ (fun w => Mark.Spelled w.token) words f.marks)
    (hf : Followed (fun q => ∀ p ∈ f.root?, ¬ Yields p q) rest) :
    ∃ n t, f.Renders n ∧ t.rest = rest ∧ t.diagnostics = s.diagnostics ∧
      expression m s = loop (extend (inner s) m) n t := by
  induction f generalizing m s words rest with
  | atom kind =>
    obtain ⟨w, ws, hk, hws, rfl⟩ := List.forall₂_cons_right_iff.mp hw
    cases hws
    exact ⟨⟨s.next, kind, w.token.span, []⟩, (s.pass w rest).give kind w.token.span [], ⟨rfl, rfl⟩, rfl, rfl,
      expression_of_operand (operand_atom hs hk)⟩
  | signed u f ih =>
    obtain ⟨w, ws, hk, hws, rfl⟩ := List.forall₂_cons_right_iff.mp hw
    obtain ⟨hnone, hg⟩ := hg
    obtain ⟨n, t, hn, ht, hd, he⟩ := ih (m := .unary) (s := { s with previous := some w.token, rest := ws ++ rest }) hg
      (by simp [hnone]) rfl hws (hf.mono fun q _ => by simp [hnone])
    rw [loop_extend_done (by rw [ht]; exact hf.mono fun q _ => level_lt_unary q)] at he
    have hi := inner_eq (s := s) (t := { s with previous := some w.token, rest := ws ++ rest }) (by simp [hs]) .unary
    exact ⟨⟨t.next, .unary u, w.token.span.union n.span, [n]⟩, t.give (.unary u) (w.token.span.union n.span) [n],
      ⟨rfl, n, rfl, hn⟩, ht, hd, expression_of_operand (operand_sign hs hk (hi.trans he))⟩
  | joined p f g ihf ihg =>
    obtain ⟨hgf, hgg, hleft, hright⟩ := Formula.grouped_joined.mp hg
    have hwf := List.forall₂_take_append _ _ _ hw
    obtain ⟨w, ws, hop, hwg, hdrop⟩ := List.forall₂_cons_right_iff.mp (List.forall₂_drop_append _ _ _ hw)
    cases hop with
    | join hkind =>
    have ho := operation?_of_joinKind hkind
    have hmp : m.level < (precedenceOf p).level := hm p rfl
    have hsplit : words ++ rest = words.take f.marks.length ++ w :: (ws ++ rest) := by
      rw [← List.cons_append, ← hdrop, ← List.append_assoc, List.take_append_drop]
    -- the left operand is what the loop has when it comes to the operator
    obtain ⟨l, t, hl, ht, hd, he⟩ := ihf (m := m) (s := s) hgf
      (fun q hq => Nat.lt_of_lt_of_le hmp (level_precedenceOf_le (Nat.not_lt.mp fun h => hleft q hq (.inl h))))
      (hs.trans hsplit) hwf ⟨w, _, rfl, .inr ⟨p, ho, hleft⟩⟩
    -- the right operand is an inner expression, and ends where the formula does
    obtain ⟨r, v, hr, hv, hd', he'⟩ := ihg (m := rightPrecedence p)
      (s := { t with previous := some w.token, rest := ws ++ rest }) hgg
      (fun q hq => Nat.not_le.mp fun h => level_le_right_iff.mp h (hright q hq)) rfl hwg
      (hf.mono fun q hq r hr hy => hq p rfl ((hright r hr).trans hy))
    rw [loop_extend_done (by rw [hv]; exact hf.mono fun q hq => level_le_right_iff.mpr (hq p rfl))] at he'
    have hlen : (ws ++ rest).length < s.rest.length := by
      rw [hs, hsplit]
      simp only [List.length_append, List.length_cons]
      omega
    have hi := inner_eq (s := s) (t := { t with previous := some w.token, rest := ws ++ rest }) hlen (rightPrecedence p)
    refine ⟨⟨v.next, .binary p, l.span.union r.span, [l, r]⟩, v.give (.binary p) (l.span.union r.span) [l, r],
      ⟨rfl, l, r, rfl, hl, hr⟩, hv, hd'.trans hd, ?_⟩
    rw [he, loop_extend_join ht ho hmp (hi.trans he') (by rw [hv, ht, List.length_cons, List.length_append]; omega)]

/-- A literal begins no other statement than an expression. -/
theorem statement_literal (hr : s.rest = w :: ws) (h : literal? w.token.kind = some value) :
    statement e s = e .lowest s := by
  have hkind : Parse.kind s = .found w.token.kind s := by simp [Parse.kind, bind_apply, pure_apply, current, hr]
  refine (bind_found hkind).trans (congrFun (?_ : _ = e .lowest) s)
  generalize w.token.kind = k at h
  split
  case h_14 => rfl
  all_goals cases h

/-- A token that begins a formula begins no other item. -/
theorem fileRound_formula {items : List Node} {mark : Mark} {n : Node} (hr : s.rest = w :: ws)
    (hw : Mark.Spelled w.token mark) (hm : ∀ p, mark ≠ .join p) (he : expression .lowest s = .found n t) :
    fileRound items s = .found (.again (items ++ [n])) t := by
  have added : item s = .found (some n) t ∧ w.token.kind ≠ .endOfFile ∧ w.token.kind ≠ .dollar ∧
      w.token.kind ≠ .semicolon := by
    cases hw with
    | literal hkind =>
      have h := literal?_of_literalKind? hkind
      obtain ⟨hend, hdollar, hsemicolon, -⟩ := ends_of_literal h
      refine ⟨?_, hend, hdollar, hsemicolon⟩
      have hstatement : statement expression s = .found n t := (statement_literal hr h).trans he
      have hcurrent : current s = .found w.token s := by simp [current, hr]
      refine (bind_found hcurrent).trans ((congrFun (?_ : _ = some <$> statement expression) s).trans (bind_found hstatement))
      generalize w.token.kind = k at h
      split
      case h_7 => rfl
      all_goals cases h
    | join h => exact absurd rfl (hm _)
    | _ h => simp [item, statement, Parse.kind, current, bind_apply, pure_apply, hr, h, he]
  simp [fileRound, addItem, attempt, Parse.kind, current, upcoming, bind_apply, pure_apply, hr, added]

end Parse

theorem attachDocs_of_spelled {tokens : List Token} {marks : List Mark} {stop : Token}
    (hw : List.Forall₂ Mark.Spelled tokens marks) (hs : stop.kind = .endOfFile) :
    attachDocs [] (tokens ++ [stop]) = tokens.map (⟨·, []⟩) ++ [⟨stop, []⟩] := by
  induction hw with
  | nil => simp [attachDocs, hs]
  | @cons t mark tokens marks ht _ ih =>
    rw [List.cons_append, attachDocs]
    split
    · rename_i hd
      cases ht with
      | literal h => exact absurd hd ((Parse.ends_of_literal (literal?_of_literalKind? h)).2.2.2 _)
      | join h => cases hd ▸ operation?_of_joinKind h
      | _ h => simp [hd] at h
    · rw [ih]
      rfl

namespace Formula

variable {f : Formula} {tokens : List Token} {stop : Token}

/-- The first token of a formula is none between operands. -/
theorem marks_eq_cons (f : Formula) : ∃ mark marks, f.marks = mark :: marks ∧ ∀ p, mark ≠ .join p := by
  induction f with
  | atom kind | signed u f _ => exact ⟨_, _, rfl, by simp⟩
  | joined p f g ih _ =>
    obtain ⟨mark, more, hf, hm⟩ := ih
    exact ⟨mark, more ++ .join p :: g.marks, by rw [Formula.marks, hf, List.cons_append], hm⟩

/-- What is read from the tokens of a grouped formula. -/
theorem expression_start (hg : f.Grouped) (hw : List.Forall₂ Mark.Spelled tokens f.marks) (hs : stop.kind = .endOfFile) :
    ∃ n t, f.Renders n ∧ t.rest = [⟨stop, []⟩] ∧ t.diagnostics = [] ∧
      Parse.expression .lowest (.start (tokens ++ [stop])) = .found n t := by
  have hwords : List.Forall₂ (fun w => Mark.Spelled w.token) (tokens.map (⟨·, []⟩ : Token → Word)) f.marks :=
    List.forall₂_map_left_iff.mpr hw
  have hend (P : BinaryOperator → Prop) : Parse.Followed P [⟨stop, []⟩] := ⟨_, _, rfl, .inl hs⟩
  obtain ⟨n, t, hn, ht, hd, he⟩ := Parse.expression_reads f (m := .lowest) (s := .start (tokens ++ [stop])) hg
    (fun q _ => by cases q <;> decide) (attachDocs_of_spelled hw hs) hwords (hend _)
  rw [Parse.loop_extend_done (ht ▸ hend _)] at he
  exact ⟨n, t, hn, ht, hd, he⟩

theorem unique_of_spelled {g : Formula} (hf : f.Grouped) (hg : g.Grouped) (hm : g.marks = f.marks)
    (hw : List.Forall₂ Mark.Spelled tokens f.marks) (hs : stop.kind = .endOfFile) : g = f := by
  obtain ⟨n, t, hn, -, -, he⟩ := expression_start hf hw hs
  obtain ⟨n', t', hn', -, -, he'⟩ := expression_start hg (hm ▸ hw) hs
  cases he.symm.trans he'
  exact hn'.eq hn

/-- The tokens of a grouped formula are a file with one item and nothing wrong with it. -/
theorem parse_formula (hg : f.Grouped) (hw : List.Forall₂ Mark.Spelled tokens f.marks) (hs : stop.kind = .endOfFile) :
    ∃ item, f.Renders item ∧ (parse (tokens ++ [stop])).1.root.kind = .file ∧
      (parse (tokens ++ [stop])).1.root.children = [item] ∧ (parse (tokens ++ [stop])).2 = [] := by
  obtain ⟨n, t, hn, ht, hd, he⟩ := expression_start hg hw hs
  obtain ⟨mark, marks, hmarks, hm⟩ := f.marks_eq_cons
  rw [hmarks] at hw
  obtain ⟨first, more, hfirst, hmore, rfl⟩ := List.forall₂_cons_right_iff.mp hw
  have hstart : (State.start (first :: more ++ [stop])).rest = ⟨first, []⟩ :: (more.map (⟨·, []⟩) ++ [⟨stop, []⟩]) :=
    attachDocs_of_spelled hw hs
  have hitems : Parse.fileItems (.start (first :: more ++ [stop])) = .found [n] t := by
    rw [Parse.fileItems, Parse.loop, Parse.fileRound_formula hstart hfirst hm he]
    have hlt : t.rest.length < (State.start (first :: more ++ [stop])).rest.length := by
      rw [hstart, ht]
      simp
    simp only [List.nil_append, hlt, if_true, loop_fileRound_at_end ht hs]
  have hfile : Parse.file (.start (first :: more ++ [stop])) =
      .found ⟨t.next, .file, Span.nowhere.around [n.span], [n]⟩ (t.give .file (Span.nowhere.around [n.span]) [n]) :=
    Parse.bind_found hitems
  exact ⟨n, hn, by simp only [parse, hfile, State.give, hd, and_self]⟩

end Formula

/-- Operators bind in the order of their tightness, those of one tightness from left to
    right and powers from right to left, and a sign belongs to the operand after it. A chain
    of operands is read whole, as the one formula with its marks that is grouped so. -/
theorem operators_group_by_tightness (chain : Chain) (tokens : List Token) (stop : Token)
    (hw : List.Forall₂ Mark.Spelled tokens chain.marks) (hs : stop.kind = .endOfFile) :
    ∃ (item : Node) (f : Formula),
      (parse (tokens ++ [stop])).1.root.kind = .file ∧ (parse (tokens ++ [stop])).1.root.children = [item] ∧
      (parse (tokens ++ [stop])).2 = [] ∧
      f.Renders item ∧ f.marks = chain.marks ∧ f.Grouped ∧ ∀ g : Formula, g.Grouped → g.marks = chain.marks → g = f := by
  obtain ⟨hg, hm⟩ := chain.formula_spec
  rw [← hm] at hw ⊢
  obtain ⟨item, hr, hk, hc, hd⟩ := Formula.parse_formula hg hw hs
  exact ⟨item, chain.formula, hk, hc, hd, hr, rfl, hg, fun g hgg hgm => Formula.unique_of_spelled hg hgg hgm hw hs⟩

/-- `- a ** b ** 2 + c`. -/
def powersAndSum : List Token :=
  [⟨.minus, "-", 1, 1⟩, .name "a" 1 3, ⟨.starStar, "**", 1, 5⟩, .name "b" 1 8,
   ⟨.starStar, "**", 1, 10⟩, ⟨.integer 2, "2", 1, 13⟩, ⟨.plus, "+", 1, 15⟩, .name "c" 1 17]

theorem operators_group_by_tightness_powers :
    ∃ item : Node, (parse (powersAndSum ++ [⟨.endOfFile, "", 1, 18⟩])).1.root.children = [item] ∧
      (Formula.joined .add
        (.joined .power (.signed .negate (.atom (.identifier "a")))
          (.joined .power (.atom (.identifier "b")) (.atom (.literal (.integer 2)))))
        (.atom (.identifier "c"))).Renders item := by
  obtain ⟨item, f, -, hc, -, hr, -, -, unique⟩ := operators_group_by_tightness
    ⟨⟨[.negate], .identifier "a"⟩, [(.power, ⟨[], .identifier "b"⟩), (.power, ⟨[], .literal (.integer 2)⟩),
      (.add, ⟨[], .identifier "c"⟩)]⟩ powersAndSum ⟨.endOfFile, "", 1, 18⟩
    (.cons (.minus rfl) (.cons (.identifier rfl) (.cons (.join rfl) (.cons (.identifier rfl) (.cons (.join rfl)
      (.cons (.literal rfl) (.cons (.join rfl) (.cons (.identifier rfl) .nil)))))))) rfl
  refine ⟨item, hc, Eq.subst (motive := fun g => Formula.Renders g item) (unique _ ?_ rfl).symm hr⟩
  simp [Formula.Grouped, Formula.root?, tightness]

end Magik.Grammar
