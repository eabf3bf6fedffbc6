/-
  Magik.Proofs.Narrowing.Naming — the entries that the restriction of a condition names.

  They are entries that names in the condition refer to. Which of them they are depends on
  how the condition is built and on the package in force, and not on the types that were
  found for its parts (`entries_restriction`).
-/

import Magik.Proofs.Reasoning.Agreement

namespace Magik

namespace Restriction

/-- A restriction without its types. -/
def outline : Restriction → Restriction
  | .value entry _ _ holds => .value entry .undefined .identity holds
  | r => r

theorem entries_outline (r : Restriction) : r.outline.entries = r.entries := by
  cases r <;> rfl

theorem outline_negate (r : Restriction) : r.negate.outline = r.outline.negate := by
  cases r <;> rfl

theorem isUndeterminable_outline (r : Restriction) :
    Evidence.isUndeterminable r.outline = Evidence.isUndeterminable r := by
  cases r <;> rfl

/-- How two restrictions are joined does not depend on their types. -/
theorem outline_compose (disjunction : Bool) (a b : Restriction) :
    (a.compose disjunction b).outline = (a.outline.compose disjunction b.outline).outline := by
  cases a with
  | value left leftTypes leftTest leftHolds =>
    cases b with
    | value right rightTypes rightTest rightHolds =>
      by_cases h : left = right ∧ leftHolds = disjunction ∧ rightHolds = disjunction
      · simp [outline, compose, h]
      · simp [outline, compose, h]
    | _ => rfl
  | _ => cases b <;> rfl

/-- What is joined to a list is what it lacks, each of it once. -/
theorem joinEntries_eq_append (a b : List Nat) :
    joinEntries a b = a ++ (b.filter fun x => !a.elem x).eraseDups := by
  unfold joinEntries
  induction b generalizing a with
  | nil => simp
  | cons x b ih =>
    rw [List.foldl_cons, ih]
    by_cases hx : x ∈ a
    · rw [if_pos hx, List.filter_cons_of_neg (by simp [hx])]
    · have hrest : (fun y => !(a ++ [x]).elem y) = fun y => !y == x && !a.elem y := by
        funext y
        simp [Bool.and_comm, Bool.beq_eq_decide_eq]
      rw [if_neg hx, List.filter_cons_of_pos (by simp [hx]), List.eraseDups_cons, List.filter_filter, hrest,
        List.append_assoc, List.singleton_append]

end Restriction

namespace Evidence

variable {e e' : Evidence} {x : Nat} {n : Node}

theorem outline_getD {o o' : Option Restriction} {r r' : Restriction} (ho : o'.map (·.outline) = o.map (·.outline))
    (hr : r'.outline = r.outline) : (o'.getD r').outline = (o.getD r).outline := by
  cases o <;> cases o' <;> simp_all

/-- Two looks at a condition that differ in the types of values only. -/
theorem outline_derive (hs : e'.scopes = e.scopes) (hx : e'.isExemplar = e.isExemplar) (n : Node) :
    (e'.derive n).outline = (e.derive n).outline := by
  have hnamed : ∀ k, e'.named? k = e.named? k := fun k => by rw [named?, named?, hs]
  have hnothing : ∀ k, e'.undeterminable k = e.undeterminable k := by
    intro k
    have hread : e'.readBy? = e.readBy? := funext fun j => by rw [readBy?, readBy?, hnamed, hs, hx]
    rw [undeterminable, undeterminable, hread]
  induction n using Node.induction_children with
  | node n ih =>
    rcases derive_cases n with ⟨left, right, same, hc, hd⟩ | ⟨left, right, disjunction, hc, hd⟩ | ⟨operand, hc, -, hd⟩ | hd | hd
    · rw [hd, hd, hnothing]
      refine outline_getD ?_ rfl
      unfold identity?
      rw [hnamed, hnamed]
      cases e.named? left <;> cases e.named? right <;> rfl
    · have hboth : ((e'.derive left).compose disjunction (e'.derive right)).outline =
          ((e.derive left).compose disjunction (e.derive right)).outline := by
        rw [Restriction.outline_compose, ih left (by simp [hc]), ih right (by simp [hc]), ← Restriction.outline_compose]
      have hsame : isUndeterminable ((e'.derive left).compose disjunction (e'.derive right)) =
          isUndeterminable ((e.derive left).compose disjunction (e.derive right)) := by
        rw [← Restriction.isUndeterminable_outline, hboth, Restriction.isUndeterminable_outline]
      rw [hd, hd, hsame, hnothing]
      split
      · rfl
      · exact hboth
    · rw [hd, hd, Restriction.outline_negate, Restriction.outline_negate, ih operand (by simp [hc])]
    · rw [hd, hd, hnothing]
      refine outline_getD ?_ rfl
      unfold kind?
      split
      · rw [hnamed]
        cases e.named? _ <;> rfl
      · rfl
    · rw [hd, hd, hnothing]

/-- A condition restricts only what names in it refer to. -/
theorem exists_named_of_mem_entries (n : Node) (h : x ∈ (e.derive n).entries) :
    ∃ k ∈ n.withDescendants, e.named? k = some x := by
  have hnothing : ∀ {n}, x ∈ (e.undeterminable n).entries → ∃ k ∈ n.withDescendants, e.named? k = some x := by
    intro n hx
    rcases Restriction.mem_joinEntries hx with hx | hx
    · cases hx
    · obtain ⟨k, hk, hread⟩ := List.mem_filterMap.mp hx
      obtain ⟨y, hy, hif⟩ := Option.bind_eq_some_iff.mp hread
      refine ⟨k, hk, ?_⟩
      split at hif
      · cases hif
      · cases hif
        exact hy
  induction n using Node.induction_children with
  | node n ih =>
    have hpart : ∀ {c}, c ∈ n.children → ∀ k ∈ c.withDescendants, k ∈ n.withDescendants :=
      fun hc _ hk => Node.mem_withDescendants hc hk
    have hself : ∀ {c}, c ∈ n.children → c ∈ n.withDescendants := fun hc => hpart hc _ (by simp [Node.withDescendants])
    rcases derive_cases n with ⟨left, right, same, hc, hd⟩ | ⟨left, right, disjunction, hc, hd⟩ | ⟨operand, hc, -, hd⟩ | hd | hd
    · rw [hd] at h
      have hl := hself (c := left) (by simp [hc])
      have hr := hself (c := right) (by simp [hc])
      unfold identity? at h
      split at h
      · rename_i l r hnl hnr
        rcases List.mem_pair.mp h with rfl | rfl
        · exact ⟨left, hl, hnl⟩
        · exact ⟨right, hr, hnr⟩
      · rename_i l hnl _
        rw [List.mem_singleton.mp h]
        exact ⟨left, hl, hnl⟩
      · rename_i r _ hnr
        rw [List.mem_singleton.mp h]
        exact ⟨right, hr, hnr⟩
      · exact hnothing h
    · rw [hd] at h
      split at h
      · exact hnothing h
      · rcases Restriction.mem_entries_compose h with h | h
        · obtain ⟨k, hk, hx⟩ := ih left (by simp [hc]) h
          exact ⟨k, hpart (by simp [hc]) k hk, hx⟩
        · obtain ⟨k, hk, hx⟩ := ih right (by simp [hc]) h
          exact ⟨k, hpart (by simp [hc]) k hk, hx⟩
    · rw [hd, Restriction.entries_negate] at h
      obtain ⟨k, hk, hx⟩ := ih operand (by simp [hc]) h
      exact ⟨k, hpart (by simp [hc]) k hk, hx⟩
    · rw [hd] at h
      unfold kind? at h
      split at h
      · rename_i tested exemplar hc
        cases hn : e.named? tested with
        | none => exact hnothing (by simpa [hn] using h)
        | some y =>
          rw [hn] at h
          rw [List.mem_singleton.mp h]
          exact ⟨tested, hself (by simp [hc]), hn⟩
      · exact hnothing h
    · rw [hd] at h
      exact hnothing h

/-! ## What is read -/

theorem named?_eq_some_iff : e.named? n = some x ↔ (∃ name, n.kind = .identifier name) ∧ e.scopes.entryOf? n.number = some x := by
  unfold named? Node.identifierName?
  cases n.kind <;> simp

theorem readBy?_eq_some_iff :
    e.readBy? n = some x ↔ e.named? n = some x ∧
      ∀ entry, e.scopes.entryAt? x = some entry → entry.kind = .global → e.isExemplar entry.name = false := by
  unfold readBy?
  cases e.named? n with
  | none => simp
  | some y =>
    rw [Option.bind_some, Option.some.injEq]
    constructor
    · intro h
      split at h
      · cases h
      · rename_i hexemplar
        cases h
        refine ⟨rfl, fun entry hat hglobal => ?_⟩
        simpa [hat, hglobal] using hexemplar
    · rintro ⟨rfl, h⟩
      rw [if_neg]
      cases hat : e.scopes.entryAt? y with
      | none => simp
      | some entry => simpa using h entry hat

theorem isUndeterminable_negate (r : Restriction) : isUndeterminable r.negate = isUndeterminable r := by
  cases r <;> rfl

theorem undeterminable_eq (e : Evidence) (n : Node) :
    e.undeterminable n = .undeterminable (n.preorder.filterMap e.readBy?).eraseDups := by
  rw [undeterminable, Restriction.joinEntries_eq_append, Node.withDescendants_eq_preorder]
  simp

theorem derive_eq_undeterminable (h : isUndeterminable (e.derive n) = true) : e.derive n = e.undeterminable n := by
  induction n using Node.induction_children with
  | node n ih =>
    have hgetD : ∀ {o : Option Restriction}, (∀ r, o = some r → isUndeterminable r = false) →
        e.derive n = o.getD (e.undeterminable n) → e.derive n = e.undeterminable n := by
      intro o ho hd
      cases o with
      | none => exact hd
      | some r =>
        rw [hd, Option.getD_some, ho r rfl] at h
        cases h
    rcases derive_cases n with ⟨left, right, same, hc, hd⟩ | ⟨left, right, disjunction, hc, hd⟩ | ⟨operand, hc, hn, hd⟩ | hd | hd
    · refine hgetD (fun r hr => ?_) (hd e)
      unfold identity? at hr
      split at hr <;> cases hr <;> rfl
    · rw [hd] at h ⊢
      split
      · rfl
      · rename_i hboth
        rw [if_neg hboth] at h
        exact absurd h hboth
    · rw [hd, isUndeterminable_negate] at h
      -- a denial reads nothing of its own
      have hself : e.readBy? n = none := by simp [readBy?, named?, hn]
      rw [hd, ih operand (by simp [hc]) h, undeterminable_eq, undeterminable_eq, n.preorder_eq, hc]
      simp [Restriction.negate, Node.preorderAll, hself]
    · refine hgetD (fun r hr => ?_) (hd e)
      unfold kind? at hr
      split at hr
      · obtain ⟨entry, -, rfl⟩ := Option.map_eq_some_iff.mp hr
        rfl
      · cases hr
    · exact hd e

/-- A condition that says nothing names what it reads: the entries of the names in it, save for exemplars,
    each once and in the order in which they come first. And what any other condition names are
    entries of names in it. -/
theorem derive_names_what_is_read (e : Evidence) (n : Node) :
    (∀ entries, e.derive n = .undeterminable entries → entries = (n.preorder.filterMap e.readBy?).eraseDups) ∧
    (∀ k x, e.readBy? k = some x ↔ (∃ name, k.kind = .identifier name) ∧ e.scopes.entryOf? k.number = some x ∧
      ∀ entry, e.scopes.entryAt? x = some entry → entry.kind = .global → e.isExemplar entry.name = false) ∧
    ∀ x ∈ (e.derive n).entries, ∃ k ∈ n.preorder, (∃ name, k.kind = .identifier name) ∧ e.scopes.entryOf? k.number = some x := by
  refine ⟨fun entries hd => ?_, fun k x => ?_, fun x hx => ?_⟩
  · have hall := derive_eq_undeterminable (e := e) (n := n) (by rw [hd]; rfl)
    rw [hd, undeterminable_eq] at hall
    exact Restriction.undeterminable.inj hall
  · rw [readBy?_eq_some_iff, named?_eq_some_iff, and_assoc]
  · obtain ⟨k, hk, hx⟩ := exists_named_of_mem_entries n hx
    exact ⟨k, n.withDescendants_eq_preorder ▸ hk, named?_eq_some_iff.mp hx⟩

/-- `_not (b _and (a = symbol _and b))` -/
def deniedComparison : Node :=
  ⟨0, .unary .not, default, [⟨1, .binary .and, default,
    [⟨2, .identifier "b", default, []⟩, ⟨3, .binary .and, default,
      [⟨4, .binary .equal, default, [⟨5, .identifier "a", default, []⟩, ⟨6, .identifier "symbol", default, []⟩]⟩,
       ⟨7, .identifier "b", default, []⟩]⟩]⟩]⟩

/-- Two variables and an exemplar. -/
def deniedComparisonEvidence : Evidence where
  scopes := ⟨[], [⟨.localVariable, "a", 5, 1, none, []⟩, ⟨.localVariable, "b", 2, 1, none, []⟩,
    ⟨.global, "symbol", 6, 0, none, []⟩], .empty, .empty, ⟨[(2, 1), (5, 0), (6, 2), (7, 1)]⟩⟩
  valueTypes _ := .undefined
  isExemplar name := name = "symbol"

/-- The denial of a comparison names the two variables in the order in which they are read. -/
theorem denied_comparison_names_what_is_read :
    deniedComparisonEvidence.derive deniedComparison = .undeterminable [1, 0] ∧
      [1, 0] = (deniedComparison.preorder.filterMap deniedComparisonEvidence.readBy?).eraseDups :=
  have hd : deniedComparisonEvidence.derive deniedComparison = .undeterminable [1, 0] := by
    rw [derive_eq_undeterminable (by decide), undeterminable_eq]
    decide
  ⟨hd, (derive_names_what_is_read deniedComparisonEvidence deniedComparison).1 _ hd⟩

end Evidence

namespace World

/-- The entries that a condition names in a package. -/
def namedBy (w : World) (package : String) (condition : Node) : List Nat := (w.restriction (.start package) condition).entries

theorem entries_restriction (w : World) (k : Memory) (condition : Node) :
    (w.restriction k condition).entries = w.namedBy k.package condition := by
  have houtline : (w.restriction k condition).outline = (w.restriction (.start k.package) condition).outline := by
    unfold restriction
    exact Evidence.outline_derive (by rfl) (by rfl) condition
  rw [namedBy, ← Restriction.entries_outline, houtline, Restriction.entries_outline]

end World

end Magik
