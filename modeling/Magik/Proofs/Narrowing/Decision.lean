/-
  Magik.Proofs.Narrowing.Decision — narrowing by a condition that has been decided.

  A condition that came out true restricts by its own restriction, one that came out false
  by the negation. That keeps the types of all values unless the condition blurs: joined
  with a test of kind, a test of identity counts as one too, and failing it then rules out
  a type of which there are other values.
-/

import Magik.Proofs.Lists
import Magik.Proofs.Narrowing.Tests

namespace Magik

open Running

namespace Evidence

variable {e : Evidence} {c : Node} {r : Course} {frame : Frame} {σ : Store} {t u : TypeName} {types : TypeSet} {q : Test}
  {v : Value} {test : TypeTest} {x y : Nat} {holds : Bool}

/-- The restriction of a condition that came out true or false. -/
def outcome (e : Evidence) (c : Node) (b : Bool) : Restriction := if b then e.derive c else (e.derive c).negate

/-- The condition tests an entry for its kind and for identity with a literal, and the literal's type
    has other instances and is none of the kinds. -/
def Blurs (e : Evidence) (c : Node) : Prop :=
  ∃ x types holds t, e.derive c = .value x types .kindOf holds ∧ types.isUndefined = false ∧ t ∈ types.members ∧
    t.isIdentity = false ∧ ∀ q ∈ Test.all c, q.isKind = true → t ∉ (e.valueTypes q.number).members

/-! ## Passing a test -/

theorem literalTypes_eq_single {value : Literal} (hs : frame.receiverTypes = .single u)
    (ht : t ∈ (World.literalTypes frame value).members) (hi : t.isIdentity = true) :
    World.literalTypes frame value = .single t := by
  have hone : ∀ u, World.literalTypes frame value = .single u → World.literalTypes frame value = .single t := by
    intro u hu
    rw [hu] at ht ⊢
    rw [TypeSet.mem_single ht]
  cases value with
  | self => exact hone u hs
  | clone => exact hone u hs
  | super =>
    have htu : t = .undefined := by simpa [World.literalTypes, TypeSet.undefined] using ht
    rw [htu] at hi
    exact absurd hi (by decide)
  | thisThread =>
    have htu : t = .lightThread ∨ t = .heavyThread := by
      simpa using (TypeSet.mem_ofList (by decide : (TypeSet.ofList [.lightThread, .heavyThread]).isUndefined = false)).mp ht
    rcases htu with rfl | rfl <;> exact absurd hi (by decide)
  | unset => exact hone .unset rfl
  | _ => exact hone _ rfl

/-- Of a type with one instance, what is tested against is that one. -/
theorem passes_of_isIdentity (hf : r.Fits e frame c) (hs : frame.receiverTypes = .single u) (hq : q ∈ Test.all c)
    (hv : v.type ∈ (e.valueTypes q.number).members) (hi : v.type.isIdentity = true) : q.Passes r v := by
  have hdef : v.type ≠ .undefined := by
    intro h
    rw [h] at hi
    exact absurd hi (by decide)
  cases q with
  | literal number value =>
    obtain ⟨htypes, hcov⟩ := hf.literal hq
    rw [Test.number, htypes] at hv
    rw [literalTypes_eq_single hs hv hi] at hcov
    exact Value.eq_of_isIdentity (TypeSet.eq_of_covers_single hcov hdef).symm hi
  | exemplar number =>
    rw [Test.number, hf.exemplar hq] at hv
    exact TypeSet.mem_single hv

theorem passes_of_isKind (hf : r.Fits e frame c) (hq : q ∈ Test.all c) (hk : q.isKind = true)
    (hv : v.type ∈ (e.valueTypes q.number).members) : q.Passes r v := by
  cases q with
  | literal number value => cases hk
  | exemplar number =>
    rw [Test.number, hf.exemplar hq] at hv
    exact TypeSet.mem_single hv

theorem covers_of_passes (hf : r.Fits e frame c) (hq : q ∈ Test.all c) (hp : q.Passes r v) :
    (e.valueTypes q.number).Covers v.type := by
  cases q with
  | literal number value =>
    obtain ⟨htypes, hcov⟩ := hf.literal hq
    have hv : v = r.literal number := hp
    rw [Test.number, htypes, hv]
    exact hcov
  | exemplar number =>
    have hv : v.type = r.exemplar number := hp
    rw [Test.number, hf.exemplar hq, hv]
    exact TypeSet.covers_single _

/-! ## Decided conditions -/

theorem Disjoins.covers {tests : List Test} (h : e.Disjoins tests types test) (hq : q ∈ tests)
    (ht : (e.valueTypes q.number).Covers t) : types.Covers t := by
  cases hu : types.isUndefined with
  | true => exact .inl hu
  | false =>
    have hqu : ¬ (e.valueTypes q.number).isUndefined = true := by
      intro hqu
      rw [h.isUndefined q hq hqu] at hu
      cases hu
    exact .inr ((h.members hu t).mpr ⟨q, hq, ht.resolve_left hqu⟩)

/-- Deciding a condition that restricts an entry says whether the entry passed one of its tests. -/
theorem outcome_eq_value (hd : e.derive c = .value x types test holds) (b : Bool) :
    e.outcome c b = .value x types test (b == holds) := by
  cases b <;> cases holds <;> simp [outcome, hd, Restriction.negate]

theorem outcome_eq_pair (hd : e.derive c = .pair x y holds) (b : Bool) : e.outcome c b = .pair x y (b == holds) := by
  cases b <;> cases holds <;> simp [outcome, hd, Restriction.negate]

theorem outcome_eq_undeterminable {entries : List Nat} (hd : e.derive c = .undeterminable entries) (b : Bool) :
    e.outcome c b = .undeterminable entries := by
  cases b <;> simp [outcome, hd, Restriction.negate]

theorem not_blurs_of_comparisons (hc : BuiltFrom (Comparison e.scopes) c) : ¬ e.Blurs c := by
  intro h
  obtain ⟨x, types, holds, t, hd, -⟩ := h
  obtain ⟨hdis, -⟩ := derive_eq_value (hc.mono fun _ => .comparison) hd
  obtain ⟨q, hq, hk⟩ := hdis.kind rfl
  rw [isKind_eq_false hc hq] at hk
  cases hk

/-- Deciding a condition compares no other entries than are named in it. -/
theorem exists_named_of_mem_compared (hc : BuiltFrom (Comparison e.scopes) c) {b : Bool}
    (hy : y ∈ (e.outcome c b).compared) : ∃ k ∈ c.withDescendants, e.named? k = some y := by
  cases hd : e.derive c with
  | value _ _ _ _ =>
    rw [outcome_eq_value hd] at hy
    cases hy
  | undeterminable _ =>
    rw [outcome_eq_undeterminable hd] at hy
    cases hy
  | pair l r holds =>
    rw [outcome_eq_pair hd] at hy
    obtain ⟨-, hl, hr⟩ := derive_eq_pair (hc.mono fun _ => .comparison) hd
    rcases List.mem_cons.mp hy with rfl | hy
    · exact hl
    · rw [List.mem_singleton.mp hy]
      exact hr

theorem outcome_holds (hc : BuiltFrom (Testing e.scopes) c) (hf : r.Fits e frame c) (hs : frame.receiverTypes = .single u)
    (hb : ¬ e.Blurs c) : (e.outcome c (r.truth e.scopes σ c)).Holds σ := by
  cases hd : e.derive c with
  | undeterminable entries =>
    rw [outcome_eq_undeterminable hd]
    exact trivial
  | pair x y holds =>
    rw [outcome_eq_pair hd]
    have hxy := (derive_eq_pair hc hd).1 r σ
    by_cases h : r.truth e.scopes σ c = holds
    · rw [beq_iff_eq.mpr h]
      exact hxy.mp h
    · rw [beq_eq_false_iff_ne.mpr h]
      exact fun heq => h (hxy.mpr heq)
  | value x types test holds =>
    rw [outcome_eq_value hd]
    obtain ⟨hdis, hdec⟩ := derive_eq_value hc hd
    by_cases h : r.truth e.scopes σ c = holds
    · obtain ⟨q, hq, hp⟩ := (hdec r σ).mp h
      rw [beq_iff_eq.mpr h]
      exact hdis.covers hq (covers_of_passes hf hq hp)
    rw [beq_eq_false_iff_ne.mpr h]
    -- a type with one instance that is tested against cannot be that of a value that fails
    have hone : (σ x).type.isIdentity = true → types.Spares (σ x).type := by
      intro hi
      cases hu : types.isUndefined with
      | true => exact .inl hu
      | false =>
        refine .inr fun hm => h ((hdec r σ).mpr ?_)
        obtain ⟨q, hq, hv⟩ := (hdis.members hu _).mp hm
        exact ⟨q, hq, passes_of_isIdentity hf hs hq hv hi⟩
    cases test with
    | identity =>
      intro hall
      by_cases hm : (σ x).type ∈ types.members
      · exact hone (List.all_eq_true.mp hall _ hm)
      · exact .inr hm
    | kindOf =>
      by_cases hi : (σ x).type.isIdentity = true
      · exact hone hi
      cases hu : types.isUndefined with
      | true => exact .inl hu
      | false =>
        refine .inr fun hm => hb ⟨x, types, holds, (σ x).type, hd, hu, hm, by simpa using hi, ?_⟩
        intro q hq hk hv
        exact h ((hdec r σ).mpr ⟨q, hq, passes_of_isKind hf hq hk hv⟩)

/-! ## Blurred tests -/

theorem exists_other_type (ts : List TypeName) : ∃ u, u ∉ ts ∧ u ≠ .undefined := by
  obtain ⟨n, hn⟩ := exists_above (fun t : TypeName => t.name.length) ts
  refine ⟨.named none (String.ofList (List.replicate n 'a')), fun hm => ?_, by simp⟩
  have := hn _ hm
  simp [TypeName.name] at this

/-- What a value is tested against, by its place among those of its type. -/
def testedIndex (r : Course) : Test → Nat
  | .literal number _ => (r.literal number).index
  | .exemplar _ => 0

/-- A value of a blurred type that fails all tests. -/
theorem exists_value_failing (hf : r.Fits e frame c) (ht : t.isIdentity = false) (hu : t ≠ .undefined)
    (hk : ∀ q ∈ Test.all c, q.isKind = true → t ∉ (e.valueTypes q.number).members) :
    ∃ v : Value, v.type = t ∧ ∀ q ∈ Test.all c, ¬ q.Passes r v := by
  obtain ⟨n, hn⟩ := exists_above (testedIndex r) (Test.all c)
  refine ⟨⟨t, n, by simp [ht]⟩, rfl, fun q hq hp => ?_⟩
  cases q with
  | literal number value =>
    have hlt : (r.literal number).index < n := hn _ hq
    have hv : (⟨t, n, by simp [ht]⟩ : Value) = r.literal number := hp
    rw [← hv] at hlt
    exact Nat.lt_irrefl _ hlt
  | exemplar number =>
    have hv : t = r.exemplar number := hp
    apply hk _ hq rfl
    rw [Test.number, hf.exemplar hq, ← hv]
    exact (TypeSet.covers_single t).resolve_left fun h => hu (TypeSet.mem_single (TypeSet.isUndefined_iff.mp h)).symm

/-- Failing a test of kind takes a type away wherever another one is left. -/
theorem not_covers_typesLeft (ht : t ∈ types.members) (htypes : types.isUndefined = false) (hu : u ∉ types.members)
    (hud : u ≠ .undefined) :
    ¬ (Restriction.typesLeft [.value x types .kindOf false] (fun _ => .ofList [t, u]) x).Covers t := by
  have htd : t ≠ .undefined := TypeSet.ne_undefined_of_mem htypes ht
  have hne : u ≠ t := fun h => hu (h ▸ ht)
  have hcur : TypeSet.ofList [t, u] = ⟨[t, u]⟩ := by
    simp [TypeSet.ofList, TypeSet.distinct, htd.symm, hud.symm, hne]
  have hmem : .undefined ∉ types.members := by simpa [TypeSet.isUndefined, TypeSet.contains] using htypes
  have hdiff : (⟨[t, u]⟩ : TypeSet).difference types = some ⟨[u]⟩ := by
    simp [TypeSet.difference, TypeSet.isUndefined, TypeSet.contains, TypeSet.size, hmem, ht, hu, htd.symm, hud.symm]
  have hleft : Restriction.typesLeft [.value x types .kindOf false] (fun _ => .ofList [t, u]) x = ⟨[u]⟩ := by
    simp [Restriction.typesLeft, Restriction.combine, Restriction.narrowings, Restriction.fold, Narrowing.apply, hcur,
      hdiff]
  rw [hleft]
  intro h
  rcases h with h | h
  · exact hud (by simpa [eq_comm] using TypeSet.isUndefined_iff.mp h)
  · exact hne (by simpa [eq_comm] using h)

/-- Narrowing by how a condition came out keeps the type of every value, whatever the values and whatever
    was believed of them, exactly if the condition does not blur. -/
theorem typesLeft_covers_iff_not_blurs (hc : BuiltFrom (Testing e.scopes) c) (hf : r.Fits e frame c)
    (hs : ∃ u, frame.receiverTypes = .single u) :
    (∀ (σ : Store) (current : Nat → TypeSet), (∀ x, (current x).Covers (σ x).type) → ∀ x,
      (Restriction.typesLeft [e.outcome c (r.truth e.scopes σ c)] current x).Covers (σ x).type) ↔ ¬ e.Blurs c := by
  obtain ⟨u, hs⟩ := hs
  constructor
  · intro hall hblurs
    obtain ⟨x, types, holds, t, hd, htypes, ht, hi, hk⟩ := hblurs
    obtain ⟨other, hother, hdef⟩ := exists_other_type types.members
    have htd : t ≠ .undefined := TypeSet.ne_undefined_of_mem htypes ht
    obtain ⟨v, hvt, hfails⟩ := exists_value_failing hf hi htd hk
    -- every entry has the failing value, and all that is believed is that it is of its type or of another
    have htruth : r.truth e.scopes (fun _ => v) c ≠ holds := by
      intro h
      obtain ⟨q, hq, hp⟩ := ((derive_eq_value hc hd).2 r fun _ => v).mp h
      exact hfails q hq hp
    have hkeeps := hall (fun _ => v) (fun _ => .ofList [t, other])
      (fun _ => by rw [hvt]; exact TypeSet.covers_ofList (by simp)) x
    rw [outcome_eq_value hd, beq_eq_false_iff_ne.mpr htruth, hvt] at hkeeps
    exact not_covers_typesLeft ht htypes hother hdef hkeeps
  · intro hb σ current hcur x
    refine Restriction.covers_typesLeft ?_ (fun _ _ y _ => hcur y) (hcur x)
    intro restriction hr
    rw [List.mem_singleton.mp hr]
    exact outcome_holds hc hf hs hb

/-- `p _is 5 _orif p.is_kind_of?(symbol)` -/
def fiveOrSymbol : Node :=
  ⟨0, .binary .orIf, default,
    [⟨1, .binary .identical, default, [⟨2, .identifier "p", default, []⟩, ⟨3, .literal (.integer 5), default, []⟩]⟩,
     ⟨4, .invocation "is_kind_of?", default,
       [⟨5, .identifier "p", default, []⟩, ⟨6, .identifier "symbol", default, []⟩]⟩]⟩

/-- The name is an entry, five is an integer, and the exemplar is known. -/
def fiveOrSymbolEvidence : Evidence where
  scopes := ⟨[], [], .empty, .empty, ⟨[(2, 0), (5, 0)]⟩⟩
  valueTypes number := if number = 3 then .single .integer else if number = 6 then .single .symbol else .undefined
  isExemplar name := name = "symbol"

/-- The integer five and the exemplar of symbols. -/
def fiveOrSymbolCourse : Course := ⟨fun _ => ⟨.integer, 5, by decide⟩, fun _ => .symbol, fun _ => false⟩

/-- Where this condition comes out false, other integers than five are taken for ruled out. -/
theorem typesLeft_five_or_symbol :
    ¬ ∀ (σ : Store) (current : Nat → TypeSet), (∀ x, (current x).Covers (σ x).type) → ∀ x,
      (Restriction.typesLeft [fiveOrSymbolEvidence.outcome fiveOrSymbol
        (fiveOrSymbolCourse.truth fiveOrSymbolEvidence.scopes σ fiveOrSymbol)] current x).Covers (σ x).type := by
  have hc : BuiltFrom (Testing fiveOrSymbolEvidence.scopes) fiveOrSymbol :=
    .joined rfl (.atom (.comparison (.identical (.name rfl) .literal))) (.atom (.kind (by decide) rfl))
  have htests : Test.all fiveOrSymbol = [.literal 3 (.integer 5), .exemplar 6] := rfl
  have hf : fiveOrSymbolCourse.Fits fiveOrSymbolEvidence .outermost fiveOrSymbol := by
    constructor
    · intro number value h
      obtain ⟨rfl, rfl⟩ : number = 3 ∧ value = .integer 5 := by simpa [htests] using h
      exact ⟨by decide, by decide⟩
    · intro number h
      obtain rfl : number = 6 := by simpa [htests] using h
      decide
  have hb : fiveOrSymbolEvidence.Blurs fiveOrSymbol := by
    refine ⟨0, _, _, .integer, rfl, by decide, by decide, by decide, ?_⟩
    simp only [htests, List.forall_mem_cons]
    decide
  have hs : ∃ u, Frame.outermost.receiverTypes = .single u := ⟨.receiver, rfl⟩
  exact fun h => (typesLeft_covers_iff_not_blurs hc hf hs).mp h hb

end Evidence

end Magik
