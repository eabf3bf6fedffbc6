/-
  Magik.Proofs.Narrowing.Tests — what the restriction of a condition stands for.

  Where a condition restricts one entry, it is, up to negation, a disjunction of tests of
  that entry: the restriction has the types of all of them. Where it restricts a pair, it
  says whether the two are identical.
-/

import Magik.Proofs.Narrowing.Soundness

namespace Magik.Evidence

open Running

variable {e : Evidence} {c left right : Node} {x y number : Nat} {types : TypeSet} {test : TypeTest} {holds : Bool}
  {span : Span} {operator : BinaryOperator} {n : Node} {a b : Restriction} {disjunction same : Bool}

/-! ## The restriction of each form -/

/-- An operand names an entry or is a literal. -/
theorem named?_or_literal (h : Operand e.scopes n) :
    (∃ entry, e.named? n = some entry ∧ Test.all n = [] ∧ ∀ (r : Course) σ, r.value e.scopes σ n = σ entry) ∨
      (e.named? n = none ∧ ∃ value, Test.all n = [.literal n.number value] ∧
        ∀ (r : Course) σ, r.value e.scopes σ n = r.literal n.number) := by
  cases h with
  | name h => exact .inl ⟨_, by simpa [named?, Node.identifierName?] using h, by simp [Test.all], fun r σ => by
      simp [Course.value, ScopeTree.named?, Node.identifierName?, h]⟩
  | @literal number value span => exact .inr ⟨rfl, value, by simp [Test.all], fun r σ => rfl⟩

theorem derive_negated {operator : UnaryOperator} (ho : operator = .not ∨ operator = .tilde) :
    e.derive ⟨number, .unary operator, span, [c]⟩ = (e.derive c).negate := by
  rcases ho with rfl | rfl <;> simp [derive]

theorem eq_negate (h : a.negate = b) : a = b.negate := by
  rw [← h, Restriction.negate_negate]

theorem derive_joined (ho : operator.isLogical = true) : e.derive ⟨number, .binary operator, span, [left, right]⟩ =
      if isUndeterminable ((e.derive left).compose (!operator.isConjunction) (e.derive right)) then
        e.undeterminable ⟨number, .binary operator, span, [left, right]⟩
      else (e.derive left).compose (!operator.isConjunction) (e.derive right) := by
  cases operator <;> simp [derive, BinaryOperator.isLogical] at ho ⊢

theorem derive_compared (ho : operator.isComparison = true) : e.derive ⟨number, .binary operator, span, [left, right]⟩ =
      e.undeterminable ⟨number, .binary operator, span, [left, right]⟩ := by
  cases operator <;> simp [derive, BinaryOperator.isLogical, BinaryOperator.isComparison] at ho ⊢

/-- A composition that restricts an entry is one of two restrictions of it that say the same. -/
theorem compose_eq_value (h : a.compose disjunction b = .value x types test holds) :
    holds = disjunction ∧ ∃ aTypes aTest bTypes bTest, a = .value x aTypes aTest disjunction ∧
      b = .value x bTypes bTest disjunction ∧ types = aTypes.union bTypes ∧ test = Restriction.eitherTest aTest bTest := by
  unfold Restriction.compose at h
  split at h
  · split at h
    · rename_i hh
      obtain ⟨rfl, rfl, rfl⟩ := hh
      cases h
      exact ⟨rfl, _, _, _, _, rfl, rfl, rfl, rfl⟩
    · cases h
  · cases h

theorem compose_ne_pair : a.compose disjunction b ≠ .pair x y holds := by
  unfold Restriction.compose
  split
  · split <;> simp
  · simp

/-! ## Tests of one entry -/

/-- The types are those of a disjunction of tests. -/
structure Disjoins (e : Evidence) (tests : List Test) (types : TypeSet) (test : TypeTest) : Prop where
  isUndefined : ∀ q ∈ tests, (e.valueTypes q.number).isUndefined = true → types.isUndefined = true
  members (h : types.isUndefined = false) (t : TypeName) :
    t ∈ types.members ↔ ∃ q ∈ tests, t ∈ (e.valueTypes q.number).members
  kind : test = .kindOf → ∃ q ∈ tests, q.isKind = true

theorem disjoins_literal {value : Literal} : e.Disjoins [.literal number value] (e.valueTypes number) .identity := by
  constructor
  · simp [Test.number]
  · simp [Test.number]
  · intro h
    cases h

theorem disjoins_exemplar : e.Disjoins [.exemplar number] (e.valueTypes number) .kindOf := by
  constructor
  · simp [Test.number]
  · simp [Test.number]
  · simp [Test.isKind]

theorem Disjoins.append {a b : List Test} {aTypes bTypes : TypeSet} {aTest bTest : TypeTest}
    (ha : e.Disjoins a aTypes aTest) (hb : e.Disjoins b bTypes bTest) :
    e.Disjoins (a ++ b) (aTypes.union bTypes) (Restriction.eitherTest aTest bTest) := by
  constructor
  · intro q hq hu
    rcases List.mem_append.mp hq with hq | hq
    · exact TypeSet.isUndefined_union_left (ha.isUndefined q hq hu)
    · exact TypeSet.isUndefined_union_right (hb.isUndefined q hq hu)
  · intro h t
    obtain ⟨hau, hbu⟩ := TypeSet.isUndefined_of_union h
    rw [TypeSet.union_eq_ofList hau hbu] at h ⊢
    rw [TypeSet.mem_ofList h, List.mem_append, ha.members hau, hb.members hbu]
    simp only [List.mem_append, or_and_right, exists_or]
  · intro h
    cases aTest with
    | kindOf =>
      obtain ⟨q, hq, hk⟩ := ha.kind rfl
      exact ⟨q, List.mem_append_left _ hq, hk⟩
    | identity =>
      cases bTest with
      | kindOf =>
        obtain ⟨q, hq, hk⟩ := hb.kind rfl
        exact ⟨q, List.mem_append_right _ hq, hk⟩
      | identity => cases h

/-- What a test of identity that restricts one entry says: the other operand is a literal. -/
theorem identity?_eq_value (hl : Operand e.scopes left) (hr : Operand e.scopes right)
    (h : (e.identity? left right same).getD (e.undeterminable c) = .value x types test holds) :
    holds = same ∧ test = .identity ∧ ∃ number value,
      Test.all left ++ Test.all right = [.literal number value] ∧ types = e.valueTypes number ∧
      ∀ (r : Course) (σ : Store), r.value e.scopes σ left = r.value e.scopes σ right ↔ σ x = r.literal number := by
  rcases named?_or_literal hl with ⟨l, hln, hlt, hlv⟩ | ⟨hln, lit, hlt, hlv⟩
  all_goals rcases named?_or_literal hr with ⟨r, hrn, hrt, hrv⟩ | ⟨hrn, lit', hrt, hrv⟩
  all_goals simp only [identity?, hln, hrn, Option.getD_some, Option.getD_none] at h
  · cases h
  · cases h
    refine ⟨rfl, rfl, right.number, lit', by simp [hlt, hrt], rfl, fun course σ => ?_⟩
    rw [hlv, hrv]
  · cases h
    refine ⟨rfl, rfl, left.number, lit, by simp [hlt, hrt], rfl, fun course σ => ?_⟩
    rw [hlv, hrv, eq_comm]
  · cases h

theorem identity?_eq_pair (hl : Operand e.scopes left) (hr : Operand e.scopes right)
    (h : (e.identity? left right same).getD (e.undeterminable c) = .pair x y holds) :
    holds = same ∧ e.named? left = some x ∧ e.named? right = some y ∧
      ∀ (r : Course) (σ : Store), r.value e.scopes σ left = r.value e.scopes σ right ↔ σ x = σ y := by
  rcases named?_or_literal hl with ⟨l, hln, hlt, hlv⟩ | ⟨hln, lit, hlt, hlv⟩
  all_goals rcases named?_or_literal hr with ⟨r, hrn, hrt, hrv⟩ | ⟨hrn, lit', hrt, hrv⟩
  all_goals simp only [identity?, hln, hrn, Option.getD_some, Option.getD_none] at h
  · cases h
    exact ⟨rfl, hln, hrn, fun course σ => by rw [hlv, hrv]⟩
  · cases h
  · cases h
  · cases h

/-! ## What a condition comes to -/

theorem truth_joined (ho : operator.isLogical = true) (r : Course) (t : ScopeTree) (σ : Store) :
    r.truth t σ ⟨number, .binary operator, span, [left, right]⟩ =
      if operator.isConjunction then r.truth t σ left && r.truth t σ right else r.truth t σ left || r.truth t σ right := by
  cases operator <;> simp [Course.truth, BinaryOperator.isLogical] at ho ⊢

theorem truth_negated {operator : UnaryOperator} (ho : operator = .not ∨ operator = .tilde) (r : Course) (t : ScopeTree)
    (σ : Store) : r.truth t σ ⟨number, .unary operator, span, [c]⟩ = !r.truth t σ c := by
  rcases ho with rfl | rfl <;> simp [Course.truth]

@[simp] theorem all_binary :
    Test.all ⟨number, .binary operator, span, [left, right]⟩ = Test.all left ++ Test.all right := by
  simp [Test.all]

@[simp] theorem all_unary {operator : UnaryOperator} : Test.all ⟨number, .unary operator, span, [c]⟩ = Test.all c := by
  simp [Test.all]

/-- The condition comes to `holds` exactly where one of its tests of the entry is passed. -/
def Decides (e : Evidence) (c : Node) (x : Nat) (holds : Bool) : Prop :=
  ∀ (r : Course) (σ : Store), r.truth e.scopes σ c = holds ↔ ∃ q ∈ Test.all c, q.Passes r (σ x)

theorem decides_identity (hl : Operand e.scopes left) (hr : Operand e.scopes right)
    (hn : ∀ (r : Course) (σ : Store), r.truth e.scopes σ c = same ↔ r.value e.scopes σ left = r.value e.scopes σ right)
    (ht : Test.all c = Test.all left ++ Test.all right)
    (h : (e.identity? left right same).getD (e.undeterminable n) = .value x types test holds) :
    e.Disjoins (Test.all c) types test ∧ e.Decides c x holds := by
  obtain ⟨rfl, rfl, number, value, htests, rfl, hv⟩ := identity?_eq_value hl hr h
  rw [htests] at ht
  refine ⟨ht ▸ disjoins_literal, fun r σ => ?_⟩
  rw [hn, hv, ht]
  simp [Test.Passes]

theorem derive_eq_value (hc : BuiltFrom (Testing e.scopes) c) (h : e.derive c = .value x types test holds) :
    e.Disjoins (Test.all c) types test ∧ e.Decides c x holds := by
  induction hc generalizing types test holds with
  | atom ha =>
    cases ha with
    | comparison hk =>
      cases hk with
      | identical hl hr | notIdentical hl hr =>
        simp only [derive] at h
        exact decides_identity hl hr (fun r σ => by simp [Course.truth]) all_binary h
      | compared ho hl hr =>
        rw [derive_compared ho] at h
        cases h
    | kind hm hx =>
      simp only [derive, hm, kind?, named?, Node.identifierName?, Option.bind_some, hx, Option.map_some,
        Option.getD_some, if_true] at h
      cases h
      refine ⟨by simpa [Test.all] using disjoins_exemplar, fun r σ => ?_⟩
      simp [Course.truth, Test.all, Test.Passes, Course.value, ScopeTree.named?, Node.identifierName?, hx]
  | negated ho _ ih =>
    rw [derive_negated ho] at h
    obtain ⟨hdis, hdec⟩ := ih (eq_negate h)
    rw [all_unary]
    refine ⟨hdis, fun r σ => ?_⟩
    rw [truth_negated ho, all_unary, ← hdec r σ]
    simp
  | joined ho _ _ ihl ihr =>
    rw [derive_joined ho] at h
    split at h
    · cases h
    · obtain ⟨rfl, lTypes, lTest, rTypes, rTest, hl, hr, rfl, rfl⟩ := compose_eq_value h
      obtain ⟨hld, hlt⟩ := ihl hl
      obtain ⟨hrd, hrt⟩ := ihr hr
      rw [all_binary]
      refine ⟨hld.append hrd, fun r σ => ?_⟩
      rw [truth_joined ho, all_binary]
      simp only [List.mem_append, or_and_right, exists_or, ← hlt r σ, ← hrt r σ]
      cases BinaryOperator.isConjunction _ with
      | true => simp only [if_true, Bool.not_true, Bool.and_eq_false_iff]
      | false => simp only [Bool.false_eq_true, if_false, Bool.not_false, Bool.or_eq_true]

/-- The condition comes to `holds` exactly where the entries are identical, and names both. -/
theorem derive_eq_pair (hc : BuiltFrom (Testing e.scopes) c) (h : e.derive c = .pair x y holds) :
    (∀ (r : Course) (σ : Store), r.truth e.scopes σ c = holds ↔ σ x = σ y) ∧
      (∃ k ∈ c.withDescendants, e.named? k = some x) ∧ ∃ k ∈ c.withDescendants, e.named? k = some y := by
  induction hc generalizing holds with
  | atom ha =>
    cases ha with
    | comparison hk =>
      cases hk with
      | identical hl hr | notIdentical hl hr =>
        simp only [derive] at h
        obtain ⟨rfl, hx, hy, hv⟩ := identity?_eq_pair hl hr h
        have hself : ∀ n : Node, n ∈ n.withDescendants := fun _ => (.head _)
        refine ⟨fun r σ => by simp [Course.truth, hv], ⟨_, Node.mem_withDescendants (by simp) (hself _), hx⟩, ?_⟩
        exact ⟨_, Node.mem_withDescendants (by simp) (hself _), hy⟩
      | compared ho hl hr =>
        rw [derive_compared ho] at h
        cases h
    | kind hm hx =>
      simp only [derive, hm, kind?, named?, Node.identifierName?, Option.bind_some, hx, Option.map_some,
        Option.getD_some, if_true] at h
      cases h
  | negated ho _ ih =>
    rw [derive_negated ho] at h
    obtain ⟨htruth, ⟨j, hj, hx⟩, k, hk, hy⟩ := ih (eq_negate h)
    refine ⟨fun r σ => ?_, ⟨j, Node.mem_withDescendants (by simp) hj, hx⟩, k, Node.mem_withDescendants (by simp) hk, hy⟩
    rw [truth_negated ho, ← htruth r σ]
    simp
  | joined ho _ _ _ _ =>
    rw [derive_joined ho] at h
    split at h
    · cases h
    · exact absurd h compose_ne_pair

/-! ## Comparisons alone -/

theorem isKind_eq_false (hc : BuiltFrom (Comparison e.scopes) c) {q : Test} (hq : q ∈ Test.all c) : q.isKind = false := by
  have hoperand : ∀ {n}, Operand e.scopes n → q ∈ Test.all n → q.isKind = false := by
    intro n hn hq
    rcases named?_or_literal hn with ⟨_, -, hall, -⟩ | ⟨-, value, hall, -⟩
    · rw [hall] at hq
      cases hq
    · rw [hall] at hq
      rw [List.mem_singleton.mp hq]
      rfl
  induction hc with
  | atom ha =>
    cases ha with
    | identical hl hr | notIdentical hl hr | compared _ hl hr =>
      rw [all_binary] at hq
      exact (List.mem_append.mp hq).elim (hoperand hl) (hoperand hr)
  | negated _ _ ih =>
    rw [all_unary] at hq
    exact ih hq
  | joined _ _ _ ihl ihr =>
    rw [all_binary] at hq
    exact (List.mem_append.mp hq).elim ihl ihr

end Magik.Evidence
