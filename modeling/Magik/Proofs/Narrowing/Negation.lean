/-
  Magik.Proofs.Narrowing.Negation — conditions and their negation normal forms.

  A condition is built with negations and connectives from atoms, which are all other
  expressions. In a normal form only atoms are denied. `NormalForm` relates a condition, or
  its denial, to the normal forms of it; the atoms may stand at other nodes there. Both
  have the same restriction (`derive_normal_form`), down to the order of the entries of
  which nothing can be said.
-/

import Mathlib.Data.List.Forall2
import Magik.Proofs.Narrowing.Decision
import Magik.Proofs.Narrowing.Naming

namespace Magik

open Running

/-! ## Negation and composition -/

/-- De Morgan. -/
theorem Restriction.compose_negate (disjunction : Bool) (a b : Restriction) :
    a.negate.compose (!disjunction) b.negate = (a.compose disjunction b).negate := by
  cases a with
  | value left leftTypes leftTest leftHolds =>
    cases b with
    | value right rightTypes rightTest rightHolds =>
      by_cases h : left = right ∧ leftHolds = disjunction ∧ rightHolds = disjunction
      · simp [negate, compose, h]
      · simp [negate, compose, h]
    | _ => rfl
  | _ => cases b <;> rfl

namespace Evidence

variable {e e' : Evidence} {b : Bool} {c c' n n' left right : Node} {x : Nat} {number : Nat} {span : Span}

theorem outcome_negated {operator : UnaryOperator} (ho : operator = .not ∨ operator = .tilde) :
    e.outcome ⟨number, .unary operator, span, [c]⟩ b = e.outcome c (!b) := by
  cases b <;> simp [outcome, derive_negated ho, Restriction.negate_negate]

/-- Deciding a connective joins what was decided of its operands. -/
theorem outcome_joined {operator : BinaryOperator} (ho : operator.isLogical = true) :
    e.outcome ⟨number, .binary operator, span, [left, right]⟩ b =
      let both := (e.outcome left b).compose (!(operator.isConjunction == b)) (e.outcome right b)
      if isUndeterminable both then e.undeterminable ⟨number, .binary operator, span, [left, right]⟩ else both := by
  cases b with
  | true =>
    simp only [outcome, if_true, derive_joined ho]
    cases operator.isConjunction <;> rfl
  | false =>
    have hdual : (!(operator.isConjunction == false)) = !(!operator.isConjunction) := by
      cases operator.isConjunction <;> rfl
    simp only [outcome, Bool.false_eq_true, if_false, derive_joined ho, hdual, Restriction.compose_negate,
      isUndeterminable_negate]
    split <;> rfl

/-! ## The same expression at other nodes -/

/-- Whether an entry is the global name of an exemplar. -/
def standsForExemplar (e : Evidence) (entry : Nat) : Bool :=
  (e.scopes.entryAt? entry).any fun entry => entry.kind = .global && e.isExemplar entry.name

/-- Two expressions of one form, at corresponding nodes of which the same entries and types are known. -/
inductive Alike (e e' : Evidence) : Node → Node → Prop
  | node {n n' : Node} (kind : n'.kind = n.kind) (entry : e'.scopes.entryOf? n'.number = e.scopes.entryOf? n.number)
      (types : e'.valueTypes n'.number = e.valueTypes n.number) (children : List.Forall₂ (Alike e e') n.children n'.children) :
      Alike e e' n n'

theorem Alike.named? (h : Alike e e' n n') : e'.named? n' = e.named? n := by
  obtain ⟨hk, he, -, -⟩ := h
  simp only [Evidence.named?, Node.identifierName?, hk, he]

/-- The entries that are read in an expression, each as often as it is read. -/
def reads (e : Evidence) (n : Node) : List Nat := n.preorder.filterMap e.readBy?

theorem undeterminable_eq_reads (e : Evidence) (n : Node) : e.undeterminable n = .undeterminable (e.reads n).eraseDups :=
  undeterminable_eq e n

theorem reads_eq (e : Evidence) (n : Node) : e.reads n = (e.readBy? n).toList ++ n.children.flatMap e.reads := by
  have hall : ∀ ns, (Node.preorderAll ns).filterMap e.readBy? = ns.flatMap e.reads := by
    intro ns
    induction ns with
    | nil => simp [Node.preorderAll]
    | cons m ms ih => simp [Node.preorderAll, ih, reads]
  rw [reads, n.preorder_eq, List.filterMap_cons, hall]
  cases e.readBy? n <;> rfl

/-- Where a node names nothing, what is read is read below it. -/
theorem reads_eq_flatMap (hn : n.identifierName? = none) : e.reads n = n.children.flatMap e.reads := by
  have hself : e.readBy? n = none := by simp [readBy?, named?, hn]
  rw [reads_eq, hself, Option.toList_none, List.nil_append]

/-- What is so of expressions that are alike is so of their operands. -/
theorem Alike.children {P : Node → Node → Prop} (h : Alike e e' n n') (hp : ∀ c ∈ n.children, ∀ c', Alike e e' c c' → P c c') :
    List.Forall₂ (fun c c' => Alike e e' c c' ∧ P c c') n.children n'.children := by
  obtain ⟨-, -, -, hc⟩ := h
  exact ((List.forall₂_and_left _ _).mpr ⟨hp, hc⟩).imp fun _ _ hboth => ⟨hboth.2, hboth.1 _ hboth.2⟩

theorem Alike.reads (hx : e'.standsForExemplar = e.standsForExemplar) (h : Alike e e' n n') : e'.reads n' = e.reads n := by
  induction n using Node.induction_children generalizing n' with
  | node n ih =>
    have hread : e'.readBy? n' = e.readBy? n := by
      have hs : ∀ entry, e'.standsForExemplar entry = e.standsForExemplar entry := fun entry => congrFun hx entry
      unfold standsForExemplar at hs
      simp only [readBy?, h.named?, hs]
    have hbelow : ∀ {ns ns' : List Node}, List.Forall₂ (fun c c' => Alike e e' c c' ∧ e'.reads c' = e.reads c) ns ns' →
        ns'.flatMap e'.reads = ns.flatMap e.reads := by
      intro ns ns' hc
      induction hc with
      | nil => rfl
      | cons hc _ ihrest => rw [List.flatMap_cons, List.flatMap_cons, hc.2, ihrest]
    rw [reads_eq, reads_eq, hread, hbelow (h.children fun c hc c' => ih c hc)]

/-- A condition says what follows from its kind and what is known of its operands. -/
theorem derive_congr (hk : n'.kind = n.kind) (hnothing : e'.undeterminable n' = e.undeterminable n)
    (hc : List.Forall₂ (fun c c' => Alike e e' c c' ∧ e'.derive c' = e.derive c) n.children n'.children) :
    e'.derive n' = e.derive n := by
  obtain ⟨number, kind, span, children⟩ := n
  obtain ⟨number', _, span', children'⟩ := n'
  cases hk
  have hsame : ∀ {c c'}, Alike e e' c c' → e'.valueTypes c'.number = e.valueTypes c.number := fun h => by
    obtain ⟨-, -, ht, -⟩ := h
    exact ht
  cases kind with
  | binary operator =>
    rcases hc with _ | ⟨⟨hl, hdl⟩, _ | ⟨⟨hr, hdr⟩, _ | _⟩⟩
    case cons.cons.nil =>
      cases operator with
      | identical | notIdentical =>
        simp only [derive, identity?, hl.named?, hr.named?, hsame hl, hsame hr, hnothing]
      | and | andIf | or | orIf => rw [derive_joined rfl, derive_joined rfl, hdl, hdr, hnothing]
      | _ => simpa [derive, BinaryOperator.isLogical] using hnothing
    all_goals simpa [derive] using hnothing
  | unary operator =>
    rcases hc with _ | ⟨⟨-, hd⟩, _ | _⟩
    case cons.nil =>
      cases operator with
      | not | tilde => rw [derive_negated (by simp), derive_negated (by simp), hd]
      | _ => simpa [derive] using hnothing
    all_goals simpa [derive] using hnothing
  | invocation name =>
    have hkind : e'.kind? children' = e.kind? children := by
      rcases hc with _ | ⟨⟨ht, -⟩, _ | ⟨⟨hx, -⟩, _ | _⟩⟩
      case cons.cons.nil => simp only [kind?, ht.named?, hsame hx]
      all_goals rfl
    simp only [derive, hkind, hnothing]
  | _ => simpa [derive] using hnothing

theorem Alike.derive (hx : e'.standsForExemplar = e.standsForExemplar) (h : Alike e e' n n') : e'.derive n' = e.derive n := by
  induction n using Node.induction_children generalizing n' with
  | node n ih =>
    have hnothing : e'.undeterminable n' = e.undeterminable n := by
      rw [undeterminable_eq_reads, undeterminable_eq_reads, h.reads hx]
    have hc := h.children fun c hc c' => ih c hc
    obtain ⟨hk, -, -, -⟩ := h
    exact derive_congr hk hnothing hc

/-! ## Normal forms -/

/-- Negations and connectives; all other expressions are atoms. -/
def isConnective : Node → Bool
  | ⟨_, .unary operator, _, [_]⟩ => operator = .not || operator = .tilde
  | ⟨_, .binary operator, _, [_, _]⟩ => operator.isLogical
  | _ => false

/-- The second condition says that the first comes out as `b`, and denies atoms only: negations are pushed
    inward, by which connectives turn into their duals. -/
inductive NormalForm (Same : Node → Node → Prop) : Bool → Node → Node → Prop
  | atom {c c' : Node} (hc : isConnective c = false) (hs : Same c c') : NormalForm Same true c c'
  | denied {c c' : Node} {number : Nat} {span : Span} {operator : UnaryOperator} (hc : isConnective c = false) (hs : Same c c')
      (ho : operator = .not ∨ operator = .tilde) : NormalForm Same false c ⟨number, .unary operator, span, [c']⟩
  | negation {b : Bool} {c c' : Node} {number : Nat} {span : Span} {operator : UnaryOperator}
      (ho : operator = .not ∨ operator = .tilde) (h : NormalForm Same (!b) c c') :
      NormalForm Same b ⟨number, .unary operator, span, [c]⟩ c'
  | joined {b : Bool} {left right left' right' : Node} {number number' : Nat} {span span' : Span}
      {operator operator' : BinaryOperator} (ho : operator.isLogical = true) (ho' : operator'.isLogical = true)
      (hd : operator'.isConjunction = (operator.isConjunction == b)) (hl : NormalForm Same b left left')
      (hr : NormalForm Same b right right') :
      NormalForm Same b ⟨number, .binary operator, span, [left, right]⟩ ⟨number', .binary operator', span', [left', right']⟩

/-- A normal form reads what the condition reads, in the same order. -/
theorem NormalForm.reads (hx : e'.standsForExemplar = e.standsForExemplar) (h : NormalForm (Alike e e') b c c') :
    e'.reads c' = e.reads c := by
  induction h with
  | atom _ hs => exact hs.reads hx
  | denied _ hs _ => rw [reads_eq_flatMap rfl, List.flatMap_singleton, hs.reads hx]
  | negation _ _ ih => rw [reads_eq_flatMap (n := ⟨_, .unary _, _, _⟩) rfl, List.flatMap_singleton, ih]
  | joined _ _ _ _ _ ihl ihr =>
    rw [reads_eq_flatMap rfl, reads_eq_flatMap rfl]
    simp only [List.flatMap_cons, ihl, ihr, List.flatMap_nil]

theorem NormalForm.derive (hx : e'.standsForExemplar = e.standsForExemplar) (h : NormalForm (Alike e e') b c c') :
    e'.derive c' = e.outcome c b := by
  induction h with
  | atom _ hs => exact hs.derive hx
  | denied _ hs ho => rw [derive_negated ho, hs.derive hx]; rfl
  | negation ho _ ih => rw [ih, outcome_negated ho]
  | @joined b left right left' right' number number' span span' operator operator' ho ho' hd hl hr ihl ihr =>
    have hnothing : e'.undeterminable ⟨number', .binary operator', span', [left', right']⟩ =
        e.undeterminable ⟨number, .binary operator, span, [left, right]⟩ := by
      rw [undeterminable_eq_reads, undeterminable_eq_reads, (NormalForm.joined ho ho' hd hl hr).reads hx]
    rw [derive_joined ho', outcome_joined ho, ihl, ihr, hd, hnothing]

/-- In every run a normal form comes out as it says. -/
theorem NormalForm.truth (h : NormalForm (· = ·) b c c') (r : Course) (t : ScopeTree) (σ : Store) :
    r.truth t σ c' = (r.truth t σ c == b) := by
  induction h with
  | atom _ hs => simp [hs]
  | denied _ hs ho => simp [truth_negated ho, hs]
  | negation ho _ ih => simp [truth_negated ho, ih]
  | @joined b left right left' right' _ _ _ _ operator _ ho ho' hd _ _ ihl ihr =>
    rw [truth_joined ho', truth_joined ho, ihl, ihr, hd]
    cases b <;> cases operator.isConjunction <;> cases r.truth t σ left <;> cases r.truth t σ right <;> rfl

theorem exists_dual (operator : BinaryOperator) (b : Bool) :
    ∃ operator' : BinaryOperator, operator'.isLogical = true ∧ operator'.isConjunction = (operator.isConjunction == b) := by
  cases operator.isConjunction == b
  · exact ⟨.or, rfl, rfl⟩
  · exact ⟨.and, rfl, rfl⟩

theorem exists_normalForm (b : Bool) (c : Node) : ∃ c', NormalForm (· = ·) b c c' := by
  induction c using Node.induction_children generalizing b with
  | node c ih =>
    by_cases hc : isConnective c = false
    · cases b
      · exact ⟨⟨0, .unary .not, default, [c]⟩, .denied hc rfl (by simp)⟩
      · exact ⟨c, .atom hc rfl⟩
    unfold isConnective at hc
    split at hc
    · rename_i operator _ operand
      obtain ⟨c', h⟩ := ih operand (by simp) (!b)
      exact ⟨c', .negation (by simpa [or_iff_not_imp_left] using hc) h⟩
    · rename_i operator _ left right
      obtain ⟨left', hl⟩ := ih left (by simp) b
      obtain ⟨right', hr⟩ := ih right (by simp) b
      obtain ⟨operator', ho', hd⟩ := exists_dual operator b
      exact ⟨⟨0, .binary operator', default, [left', right']⟩, .joined (by simpa using hc) ho' hd hl hr⟩
    · exact absurd rfl hc

/-- A condition and its normal form have the same restriction, a normal form of the denied condition has the
    negated one, and negating twice is nothing. Every condition has a normal form, which comes out
    as the condition does in every run. -/
theorem derive_normal_form (e e' : Evidence) (hx : e'.standsForExemplar = e.standsForExemplar) (c : Node) :
    (∀ c', NormalForm (Alike e e') true c c' → e'.derive c' = e.derive c) ∧
    (∀ number operator span c', operator = .not ∨ operator = .tilde →
      NormalForm (Alike e e') true ⟨number, .unary operator, span, [c]⟩ c' → e'.derive c' = (e.derive c).negate) ∧
    (∀ r : Restriction, r.negate.negate = r) ∧
    (∃ c', NormalForm (· = ·) true c c') ∧
    ∀ c', NormalForm (· = ·) true c c' → ∀ (r : Course) t σ, r.truth t σ c' = r.truth t σ c := by
  refine ⟨fun c' h => h.derive hx, fun number operator span c' ho h => ?_, Restriction.negate_negate,
    exists_normalForm true c, fun c' h r t σ => ?_⟩
  · rw [h.derive hx]
    exact derive_negated ho
  · rw [h.truth]
    simp

/-- `~p _is 5 _and _not p.is_kind_of?(symbol)` -/
def neitherFiveNorSymbol : Node :=
  ⟨10, .binary .and, default,
    [⟨11, .unary .tilde, default,
      [⟨12, .binary .identical, default, [⟨13, .identifier "p", default, []⟩, ⟨14, .literal (.integer 5), default, []⟩]⟩]⟩,
     ⟨15, .unary .not, default,
      [⟨16, .invocation "is_kind_of?", default,
        [⟨17, .identifier "p", default, []⟩, ⟨18, .identifier "symbol", default, []⟩]⟩]⟩]⟩

def neitherFiveNorSymbolEvidence : Evidence where
  scopes := ⟨[], [], .empty, .empty, ⟨[(13, 0), (17, 0)]⟩⟩
  valueTypes number := if number = 14 then .single .integer else if number = 18 then .single .symbol else .undefined
  isExemplar name := name = "symbol"

/-- The disjunction is a normal form of the denied conjunction. -/
theorem derive_five_or_symbol :
    neitherFiveNorSymbolEvidence.derive neitherFiveNorSymbol = .value 0 (.ofList [.integer, .symbol]) .kindOf false ∧
      fiveOrSymbolEvidence.derive fiveOrSymbol = (neitherFiveNorSymbolEvidence.derive neitherFiveNorSymbol).negate := by
  refine ⟨by decide, ?_⟩
  refine (derive_normal_form neitherFiveNorSymbolEvidence fiveOrSymbolEvidence rfl neitherFiveNorSymbol).2.1
    9 .not default fiveOrSymbol (by simp) (.negation (by simp) (.joined rfl rfl rfl ?_ ?_))
  all_goals
    exact .negation (by simp) (.atom rfl
      (.node rfl rfl rfl (.cons (.node rfl rfl rfl .nil) (.cons (.node rfl rfl rfl .nil) .nil))))

end Evidence

end Magik
