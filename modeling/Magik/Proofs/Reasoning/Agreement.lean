/-
  Magik.Proofs.Reasoning.Agreement — what reasoning looks at in the scopes of a file.

  Two trees of scopes agree on some nodes if these mean the same entries in both, and on a
  domain of entries if these have the same kinds, names and links, and are stored inside
  the same of the nodes (`ScopeTree.Agree`). What reasoning about the nodes asks of its world
  comes to the same in both: what a condition says, how flows narrow and merge, which
  procedure is called. And a flow about entries of the domain (`Flow.Within`) stays one.
-/

import Magik.Proofs.Narrowing.Tests
import Magik.Proofs.Reasoning.Frame
import Mathlib.Data.List.Basic

namespace Magik

/-! ## Entries of a domain -/

/-- A flow about entries of a domain. -/
def Flow.Within (domain : Nat → Prop) (f : Flow) : Prop := ∀ x ∈ f.believed.keys, domain x

/-- A restriction of entries of a domain. -/
def Restriction.Within (domain : Nat → Prop) (r : Restriction) : Prop := ∀ x ∈ r.entries, domain x

namespace Table

variable {α β : Type} [DecidableEq α]

theorem mem_keys_insert {t : Table α β} {k j : α} {v : β} (h : j ∈ (t.insert k v).keys) : j = k ∨ j ∈ t.keys := by
  obtain ⟨p, hp, rfl⟩ := List.mem_map.mp h
  rcases mem_insertIn hp with rfl | hp
  · exact .inl rfl
  · exact .inr (List.mem_map_of_mem hp)

end Table

variable {domain : Nat → Prop}

namespace Flow.Within

variable {f : Flow}

theorem start : Flow.start.Within domain := by
  intro x hx
  simp [Flow.start, Table.keys, Table.empty] at hx

theorem believe (h : f.Within domain) {entry : Nat} (he : domain entry) (types : TypeSet) :
    (f.believe entry types).Within domain := by
  intro x hx
  rcases Table.mem_keys_insert hx with rfl | hx
  · exact he
  · exact h x hx

theorem exit (h : f.Within domain) : f.exit.Within domain := h

end Flow.Within

namespace Restriction

variable {current : Nat → TypeSet} {a b r : Restriction} {x : Nat} {current' : Nat → TypeSet} {rs : List Restriction}

theorem entries_negate (r : Restriction) : r.negate.entries = r.entries := by
  cases r <;> rfl

theorem Within.negate (h : r.Within domain) : r.negate.Within domain := by
  intro x hx
  rw [entries_negate] at hx
  exact h x hx

theorem mem_joinEntries {a b : List Nat} (h : x ∈ joinEntries a b) : x ∈ a ∨ x ∈ b := by
  induction b generalizing a with
  | nil => exact .inl h
  | cons e b ih =>
    rcases ih h with hx | hx
    · dsimp only at hx
      split at hx
      · exact .inl hx
      · rcases List.mem_append.mp hx with hx | hx
        · exact .inl hx
        · exact .inr (by simp_all)
    · exact .inr (.tail _ hx)

/-- Two restrictions together are about the entries of both. -/
theorem mem_entries_compose {disjunction : Bool} (h : x ∈ (a.compose disjunction b).entries) :
    x ∈ a.entries ∨ x ∈ b.entries := by
  unfold Restriction.compose at h
  split at h
  · split at h
    · exact .inl h
    · exact mem_joinEntries h
  · exact mem_joinEntries h

theorem Within.compose (ha : a.Within domain) (hb : b.Within domain) (disjunction : Bool) :
    (a.compose disjunction b).Within domain :=
  fun x hx => (mem_entries_compose hx).elim (ha x) (hb x)

/-- What a restriction does to entries is about its own entries. -/
theorem mem_entries_of_narrowings {p : Nat × Narrowing} (h : p ∈ r.narrowings current) : p.1 ∈ r.entries := by
  cases r with
  | value entry types test holds => cases holds <;> cases test <;> grind [narrowings, entries]
  | pair left right holds => cases holds <;> grind [narrowings, entries]
  | undeterminable es => grind [narrowings, entries]

theorem narrowings_congr (h : ∀ x ∈ r.entries, current' x = current x) :
    r.narrowings current' = r.narrowings current := by
  cases r with
  | value entry types test holds => cases holds <;> cases test <;> rfl
  | pair left right holds =>
    have hl := h left (by simp [entries])
    have hr := h right (by simp [entries])
    cases holds <;> simp only [narrowings, hl, hr]
  | undeterminable es => rfl

theorem combine_congr (h : ∀ r ∈ rs, ∀ x ∈ r.entries, current' x = current x) :
    combine rs current' = combine rs current := by
  unfold combine
  rw [List.flatMap_congr fun r hr => narrowings_congr (h r hr)]

theorem mem_keys_combine (h : x ∈ (combine rs current).keys) : ∃ r ∈ rs, x ∈ r.entries := by
  rcases mem_keys_foldl_fold.mp h with hx | ⟨n, hn⟩
  · simp [Table.keys, Table.empty] at hx
  · obtain ⟨r, hr, hn⟩ := List.mem_flatMap.mp hn
    exact ⟨r, hr, mem_entries_of_narrowings hn⟩

end Restriction

/-! ## Trees of scopes that agree -/

/-- The second tree is as the first where reasoning about these nodes looks at it: entries
    of the domain are all it comes to. -/
structure ScopeTree.Agree (domain : Nat → Prop) (ns : List Nat) (s s' : ScopeTree) : Prop where
  resolved : ∀ j ∈ ns, s'.entryOf? j = s.entryOf? j
  below : ∀ j ∈ ns, ∀ x, s.entryOf? j = some x → domain x
  down : ∀ x, domain x → ∀ y < x, domain y
  entries : ∀ x, domain x → (s.entryAt? x = none ∧ s'.entryAt? x = none) ∨
    ∃ e e', s.entryAt? x = some e ∧ s'.entryAt? x = some e' ∧ e'.kind = e.kind ∧ e'.name = e.name ∧
      e'.imported = e.imported
  stored : ∀ x, domain x → ∀ inside, (∀ j ∈ inside, j ∈ ns) → ∀ w : World,
    { w with scopes := s' }.isStoredWithin inside x = { w with scopes := s }.isStoredWithin inside x
  caught : ∀ j ∈ ns, ∀ name, (s'.scopeOpenedBy? j).bind (s'.entryIn? name) = (s.scopeOpenedBy? j).bind (s.entryIn? name)
  caughtBelow : ∀ j ∈ ns, ∀ name x, (s.scopeOpenedBy? j).bind (s.entryIn? name) = some x → domain x

variable {ns : List Nat} {s' : ScopeTree}

/-- On all entries, a tree agrees with itself. -/
theorem ScopeTree.Agree.refl (s : ScopeTree) (ns : List Nat) : s.Agree (fun _ => True) ns s where
  resolved _ _ := rfl
  below _ _ _ _ := trivial
  down _ _ _ _ := trivial
  entries x _ := by
    cases hx : s.entryAt? x with
    | none => exact .inl ⟨rfl, rfl⟩
    | some e => exact .inr ⟨e, e, rfl, rfl, rfl, rfl, rfl⟩
  stored _ _ _ _ _ := rfl
  caught _ _ _ := rfl
  caughtBelow _ _ _ _ _ := trivial

theorem ScopeTree.Agree.link {s : ScopeTree} (h : s.Agree domain ns s') {x : Nat} (hx : domain x) :
    (s'.entryAt? x).bind (·.imported) = (s.entryAt? x).bind (·.imported) := by
  rcases h.entries x hx with ⟨he, he'⟩ | ⟨e, e', he, he', -, -, hi⟩ <;> simp [*]

/-! ### Conditions -/

theorem Node.number_mem_of_mem_withDescendants {k n : Node} (hk : k ∈ n.withDescendants) : k.number ∈ n.numbers := by
  rw [withDescendants, descendants, List.mem_cons] at hk
  rw [numbers_eq, ← map_number_drain, List.mem_cons]
  rcases hk with rfl | hk
  · exact .inl rfl
  · exact .inr (List.mem_map_of_mem hk)

namespace Evidence

variable {e : Evidence} {n : Node} {x : Nat}

/-- What is known, with other scopes. -/
def inScopes (e : Evidence) (scopes : ScopeTree) : Evidence := { e with scopes }

section

variable (h : e.scopes.Agree domain ns s') {left right : Node} {r : Restriction} {children : List Node}
include h

theorem named?_agree (hn : n.number ∈ ns) : (e.inScopes s').named? n = e.named? n := by
  simp only [named?, inScopes, h.resolved n.number hn]

theorem named?_lt (hn : n.number ∈ ns) (hx : e.named? n = some x) : domain x := by
  obtain ⟨_, -, hx⟩ := Option.bind_eq_some_iff.mp hx
  exact h.below n.number hn x hx

theorem readBy?_agree (hn : n.number ∈ ns) : (e.inScopes s').readBy? n = e.readBy? n := by
  unfold readBy?
  rw [named?_agree h hn]
  cases hx : e.named? n with
  | none => rfl
  | some x =>
    rcases h.entries x (named?_lt h hn hx) with ⟨he, he'⟩ | ⟨entry, entry', he, he', hk, hname, -⟩
    · simp only [Option.bind_some, inScopes, he, he']
    · simp only [Option.bind_some, inScopes, he, he', Option.any_some, hk, hname]

theorem readBy?_lt (hn : n.number ∈ ns) (hx : e.readBy? n = some x) : domain x := by
  obtain ⟨y, hy, hx⟩ := Option.bind_eq_some_iff.mp hx
  split at hx
  · cases hx
  · cases hx
    exact named?_lt h hn hy

theorem undeterminable_agree (hn : ∀ j ∈ n.numbers, j ∈ ns) :
    (e.inScopes s').undeterminable n = e.undeterminable n := by
  unfold undeterminable
  rw [List.filterMap_congr fun k hk => readBy?_agree h (hn _ (Node.number_mem_of_mem_withDescendants hk))]

theorem within_undeterminable (hn : ∀ j ∈ n.numbers, j ∈ ns) :
    (e.undeterminable n).Within domain := by
  intro x hx
  rcases Restriction.mem_joinEntries hx with hx | hx
  · cases hx
  · obtain ⟨k, hk, hx⟩ := List.mem_filterMap.mp hx
    exact readBy?_lt h (hn _ (Node.number_mem_of_mem_withDescendants hk)) hx

theorem identity?_agree (hl : left.number ∈ ns) (hr : right.number ∈ ns) (holds : Bool) :
    (e.inScopes s').identity? left right holds = e.identity? left right holds := by
  unfold identity?
  rw [named?_agree h hl, named?_agree h hr]
  rfl

theorem within_identity? (hl : left.number ∈ ns) (hr : right.number ∈ ns) {holds : Bool}
    (hm : e.identity? left right holds = some r) : r.Within domain := by
  unfold identity? at hm
  split at hm
  · rename_i hx hy
    cases hm
    intro z hz
    rcases List.mem_cons.mp hz with rfl | hz
    · exact named?_lt h hl hx
    · exact List.mem_singleton.mp hz ▸ named?_lt h hr hy
  · rename_i hx hy
    cases hm
    exact fun z hz => List.mem_singleton.mp hz ▸ named?_lt h hl hx
  · rename_i hx hy
    cases hm
    exact fun z hz => List.mem_singleton.mp hz ▸ named?_lt h hr hy
  · cases hm

theorem kind?_agree (hn : ∀ c ∈ children, c.number ∈ ns) : (e.inScopes s').kind? children = e.kind? children := by
  unfold kind?
  split
  · rw [named?_agree h (hn _ (by simp))]
    rfl
  · rfl

theorem within_kind? (hn : ∀ c ∈ children, c.number ∈ ns) (hm : e.kind? children = some r) : r.Within domain := by
  unfold kind? at hm
  split at hm
  · obtain ⟨x, hx, rfl⟩ := Option.map_eq_some_iff.mp hm
    exact fun z hz => List.mem_singleton.mp hz ▸ named?_lt h (hn _ (by simp)) hx
  · cases hm

end

theorem within_getD {o : Option Restriction} {r : Restriction} (ho : ∀ {q}, o = some q → q.Within domain)
    (hr : r.Within domain) : (o.getD r).Within domain := by
  cases o with
  | none => exact hr
  | some q => exact ho rfl

/-- What a condition says comes from its parts: it compares two of them, joins what two of them say, denies
    what one says, or tests a kind; or it says nothing. -/
theorem derive_cases (n : Node) :
    (∃ left right same, n.children = [left, right] ∧
      ∀ e : Evidence, e.derive n = (e.identity? left right same).getD (e.undeterminable n)) ∨
    (∃ left right disjunction, n.children = [left, right] ∧ ∀ e : Evidence,
      e.derive n = if isUndeterminable ((e.derive left).compose disjunction (e.derive right)) then e.undeterminable n
        else (e.derive left).compose disjunction (e.derive right)) ∨
    (∃ operand, n.children = [operand] ∧ n.identifierName? = none ∧ ∀ e : Evidence, e.derive n = (e.derive operand).negate) ∨
    (∀ e : Evidence, e.derive n = (e.kind? n.children).getD (e.undeterminable n)) ∨
    ∀ e : Evidence, e.derive n = e.undeterminable n := by
  obtain ⟨number, kind, span, children⟩ := n
  cases kind with
  | binary operator =>
    rcases children with _ | ⟨left, _ | ⟨right, _ | ⟨c, rest⟩⟩⟩
    case cons.cons.nil =>
      cases operator with
      | identical => exact .inl ⟨left, right, true, rfl, fun e => by rw [derive]⟩
      | notIdentical => exact .inl ⟨left, right, false, rfl, fun e => by rw [derive]⟩
      | and | andIf | or | orIf => exact .inr (.inl ⟨left, right, _, rfl, fun e => derive_joined rfl⟩)
      | _ => exact .inr (.inr (.inr (.inr fun e => by rw [derive, if_neg (by decide)] <;> simp)))
    all_goals exact .inr (.inr (.inr (.inr fun e => by rw [derive] <;> simp)))
  | unary operator =>
    rcases children with _ | ⟨operand, _ | ⟨c, rest⟩⟩
    case cons.nil =>
      cases operator with
      | not | tilde => exact .inr (.inr (.inl ⟨operand, rfl, rfl, fun e => derive_negated (by simp)⟩))
      | _ => exact .inr (.inr (.inr (.inr fun e => by rw [derive] <;> simp)))
    all_goals exact .inr (.inr (.inr (.inr fun e => by rw [derive] <;> simp)))
  | invocation name =>
    by_cases hkind : isKindTest name
    · exact .inr (.inr (.inr (.inl fun e => by rw [derive, if_pos hkind])))
    · exact .inr (.inr (.inr (.inr fun e => by rw [derive, if_neg hkind])))
  | _ => exact .inr (.inr (.inr (.inr fun e => by rw [derive] <;> simp)))

/-- A condition says the same in both, and says it of entries of the domain. -/
theorem derive_agree (h : e.scopes.Agree domain ns s') (n : Node) (hn : ∀ j ∈ n.numbers, j ∈ ns) :
    (e.inScopes s').derive n = e.derive n ∧ (e.derive n).Within domain := by
  induction n using Node.induction_children with
  | node n ih =>
  have hchild : ∀ {c}, c ∈ n.children → ∀ j ∈ c.numbers, j ∈ ns := fun hc j hj => hn j (Node.mem_numbers_of_child hc hj)
  have hnumber : ∀ {c : Node}, c ∈ n.children → c.number ∈ ns := fun {c} hc => hchild hc _ c.number_mem_numbers
  have hnothing := undeterminable_agree h hn
  rcases derive_cases n with ⟨left, right, same, hc, hd⟩ | ⟨left, right, disjunction, hc, hd⟩ | ⟨operand, hc, -, hd⟩ | hd | hd
  · have hl := hnumber (c := left) (by simp [hc])
    have hr := hnumber (c := right) (by simp [hc])
    rw [hd, hd, identity?_agree h hl hr, hnothing]
    exact ⟨rfl, within_getD (within_identity? h hl hr) (within_undeterminable h hn)⟩
  · obtain ⟨hl, hwl⟩ := ih left (by simp [hc]) (hchild (by simp [hc]))
    obtain ⟨hr, hwr⟩ := ih right (by simp [hc]) (hchild (by simp [hc]))
    rw [hd, hd, hl, hr, hnothing]
    refine ⟨rfl, ?_⟩
    split
    · exact within_undeterminable h hn
    · exact hwl.compose hwr _
  · obtain ⟨ho, hw⟩ := ih operand (by simp [hc]) (hchild (by simp [hc]))
    rw [hd, hd, ho]
    exact ⟨rfl, hw.negate⟩
  · rw [hd, hd, kind?_agree h fun c => hnumber, hnothing]
    exact ⟨rfl, within_getD (within_kind? h fun c => hnumber) (within_undeterminable h hn)⟩
  · rw [hd, hd, hnothing]
    exact ⟨rfl, within_undeterminable h hn⟩

end Evidence

/-! ### Flows -/

namespace World

variable {w : World} {x : Nat} {package : String} {f base : Flow} {inside : List Nat} {rs : List Restriction}
  {live : List Flow}

/-- The world with other scopes. -/
def inScopes (w : World) (scopes : ScopeTree) : World := { w with scopes }

theorem entryTypes_agree (h : w.scopes.Agree domain ns s') (hx : domain x) (package : String) (f : Flow) :
    (w.inScopes s').entryTypes package f x = w.entryTypes package f x := by
  unfold entryTypes
  rcases h.entries x hx with ⟨he, he'⟩ | ⟨e, e', he, he', hk, hname, -⟩
  · simp only [inScopes, he, he']
  · simp only [inScopes, he, he', hk, hname]
    rfl

theorem restriction_agree (h : w.scopes.Agree domain ns s') {condition : Node} (hn : ∀ j ∈ condition.numbers, j ∈ ns)
    (k : Memory) :
    (w.inScopes s').restriction k condition = w.restriction k condition ∧ (w.restriction k condition).Within domain :=
  Evidence.derive_agree (e := ⟨w.scopes, _, w.isExemplar k.package⟩) h condition hn

theorem narrowed_agree (h : w.scopes.Agree domain ns s') (hr : ∀ r ∈ rs, r.Within domain) (package : String) (base : Flow) :
    (w.inScopes s').narrowed package base rs = w.narrowed package base rs := by
  have hcurrent : ∀ r ∈ rs, ∀ x ∈ r.entries, (w.inScopes s').entryTypes package base x = w.entryTypes package base x :=
    fun r hm x hx => entryTypes_agree h (hr r hm x hx) package base
  unfold narrowed
  dsimp only
  rw [Restriction.combine_congr hcurrent]
  refine List.foldl_ext _ _ _ fun f p hp => ?_
  obtain ⟨r, hm, hx⟩ := Restriction.mem_keys_combine (List.mem_map_of_mem hp)
  rw [hcurrent r hm _ hx]

theorem within_foldl_believe {ps : List (Nat × Narrowing)} (g : Nat × Narrowing → TypeSet) (hf : f.Within domain)
    (hp : ∀ p ∈ ps, domain p.1) : (ps.foldl (fun f p => f.believe p.1 (g p)) f).Within domain := by
  induction ps generalizing f with
  | nil => exact hf
  | cons p ps ih => exact ih (hf.believe (hp p (by simp)) _) fun q hq => hp q (.tail _ hq)

theorem within_narrowed (hr : ∀ r ∈ rs, r.Within domain) (hb : base.Within domain) :
    (w.narrowed package base rs).Within domain := by
  refine within_foldl_believe _ hb fun p hp => ?_
  obtain ⟨r, hm, hx⟩ := Restriction.mem_keys_combine (List.mem_map_of_mem hp)
  exact hr r hm _ hx

theorem mergedTypes?_agree (h : w.scopes.Agree domain ns s') (hx : domain x) (hi : ∀ j ∈ inside, j ∈ ns) (package : String)
    (live : List Flow) : (w.inScopes s').mergedTypes? package inside live x = w.mergedTypes? package inside live x := by
  have hstored : (w.inScopes s').isStoredWithin inside x = w.isStoredWithin inside x := h.stored x hx inside hi w
  unfold mergedTypes?
  simp only [hstored, entryTypes_agree h hx]

theorem mergeLive_agree (h : w.scopes.Agree domain ns s') (hi : ∀ j ∈ inside, j ∈ ns) (hl : ∀ f ∈ live, f.Within domain)
    (package : String) (before : Flow) :
    (w.inScopes s').mergeLive package inside before live = w.mergeLive package inside before live := by
  unfold mergeLive
  dsimp only
  congr 1
  refine List.foldl_ext _ _ _ fun merged entry he => ?_
  obtain ⟨f, hf, hx⟩ := List.mem_flatMap.mp (List.mem_eraseDups.mp he)
  rw [mergedTypes?_agree h (hl f hf entry hx) hi]

theorem mem_keys_foldl_insert {entries : List Nat} {g : Nat → Option TypeSet} {value : Nat → TypeSet → TypeSet}
    {t : Table Nat TypeSet}
    (h : x ∈ (entries.foldl (fun merged entry =>
      match g entry with
      | some types => merged.insert entry (value entry types)
      | none => merged) t).keys) : x ∈ t.keys ∨ x ∈ entries := by
  induction entries generalizing t with
  | nil => exact .inl h
  | cons entry entries ih =>
    rcases ih h with hx | hx
    · dsimp only at hx
      split at hx
      · exact (Table.mem_keys_insert hx).elim (fun he => .inr (by simp [he])) .inl
      · exact .inl hx
    · exact .inr (.tail _ hx)

theorem within_mergeLive {before : Flow} (hl : ∀ f ∈ live, f.Within domain) :
    (w.mergeLive package inside before live).Within domain := by
  intro x hx
  rcases mem_keys_foldl_insert hx with hx | hx
  · simp [Table.keys, Table.empty] at hx
  · obtain ⟨f, hf, hx⟩ := List.mem_flatMap.mp (List.mem_eraseDups.mp hx)
    exact hl f hf x hx

theorem procedureOf?_agree (h : w.scopes.Agree domain ns s') (procedures : Table Nat Nat) (hx : domain x) :
    (w.inScopes s').procedureOf? procedures x = w.procedureOf? procedures x := by
  induction x using Nat.strongRecOn with
  | ind x ih =>
    rw [procedureOf?, procedureOf?, show (w.inScopes s').scopes = s' from rfl, h.link hx]
    cases procedures.find? x with
    | some number => rfl
    | none =>
      cases (w.scopes.entryAt? x).bind (·.imported) with
      | none => rfl
      | some target =>
        by_cases hlt : target < x
        · simp only [if_pos hlt]
          exact ih target hlt (h.down x hx target hlt)
        · simp only [if_neg hlt]

theorem calledProcedure?_agree (h : w.scopes.Agree domain ns s') {callee : Node} (hn : callee.number ∈ ns) (k : Memory) :
    (w.inScopes s').calledProcedure? k callee = w.calledProcedure? k callee := by
  have hentry : (w.inScopes s').scopes.entryOf? callee.number = w.scopes.entryOf? callee.number := h.resolved _ hn
  unfold calledProcedure?
  rw [hentry]
  cases hx : w.scopes.entryOf? callee.number with
  | none => rfl
  | some x => simp only [Option.bind_some, procedureOf?_agree h k.procedures (h.below _ hn x hx)]

theorem handlerFlow_agree (h : w.scopes.Agree domain ns s') {handler : Node} (hn : ∀ j ∈ handler.numbers, j ∈ ns)
    (before : Flow) (binding : Option String) :
    (w.inScopes s').handlerFlow before binding handler = w.handlerFlow before binding handler ∧
      (before.Within domain → (w.handlerFlow before binding handler).Within domain) := by
  unfold handlerFlow
  cases hc : handler.child? 0 with
  | none => exact ⟨rfl, fun hb => hb⟩
  | some body =>
    have hbody : body.number ∈ ns :=
      hn _ (Node.mem_numbers_of_child (List.mem_of_getElem? hc) body.number_mem_numbers)
    cases binding with
    | none => simp
    | some name =>
      have he : ((w.inScopes s').scopes.scopeOpenedBy? body.number).bind ((w.inScopes s').scopes.entryIn? name) =
          (w.scopes.scopeOpenedBy? body.number).bind (w.scopes.entryIn? name) :=
        h.caught body.number hbody name
      simp only [Option.bind_some]
      rw [he]
      cases hx : (w.scopes.scopeOpenedBy? body.number).bind (w.scopes.entryIn? name) with
      | none => exact ⟨rfl, fun hb => hb⟩
      | some x => exact ⟨rfl, fun hb => hb.believe (h.caughtBelow body.number hbody name x hx) _⟩

end World

end Magik
