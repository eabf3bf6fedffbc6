/-
  Magik.Proofs.Grammar.Abreast — rules for two runs over lists that are alike.

  The lists hold the same words, up to a place where the first goes on with a `$` and the
  second ends, if there is one (`Fork`). The words may be in other places, as long as their
  lines are in the same order. Two states are abreast when what is left to them is alike and
  they differ only by how many nodes were made and what was reported before
  (`Abreast`). `Agree f b c R p q`: from states abreast `p` and `q` do the same,
  find answers related by `R` and stay abreast, unless `q` has a fault. No parser passes
  the place where the lists part: the second run would have a fault there.

  Right at the start the token before the cursor may differ. `b` says whether the cursor
  must have moved from there before, `c` whether it has when an answer is found. Along with
  the words goes something that is known of the spelling of identifiers, which then is known
  of the names in the trees.
-/

import Magik.Grammar.File
import Magik.Proofs.Syntax.Arenas
import Mathlib.Data.List.Forall2

namespace Magik

/-- What a diagnostic says, without the place. -/
def Diagnostic.said (d : Diagnostic) : Level × String := (d.level, d.message)

namespace Grammar

/-! ## Lists that are alike -/

/-- Where a list goes on with a `$` and another ends. -/
structure Parting where
  stop : Word
  more : List Word
  last : Word
  stop_kind : stop.token.kind = .dollar
  last_kind : last.token.kind = .endOfFile
  doc_eq : stop.doc = last.doc
  line_eq : stop.token.line = last.token.line
  column_eq : stop.token.column = last.token.column

structure Fork where
  /-- Where the lists part, if they do. -/
  parting : Option Parting
  /-- Whether the words are in the same places. -/
  placed : Bool
  /-- The lines that correspond. -/
  line : Nat → Nat → Prop
  /-- What is known of the spelling of identifiers. -/
  name : String → Prop
  /-- How many more nodes the first run has made. -/
  shift : Nat
  /-- What the first run has reported before. -/
  before : List Diagnostic
  /-- How many words are left to the second run at the start. -/
  origin : Nat
  lt_iff {a a' b b' : Nat} : line a a' → line b b' → (a < b ↔ a' < b')
  parting_line : ∀ p ∈ parting, line p.stop.token.line p.last.token.line

namespace Fork

/-- The lists do not part at all. -/
def Same (f : Fork) : Prop := f.parting = none

/-- How much more the first list has. -/
def extra (f : Fork) : Nat := f.parting.elim 0 fun p => p.more.length

structure SameToken (f : Fork) (t t' : Token) : Prop where
  kind : t.kind = t'.kind
  lexeme : t.lexeme = t'.lexeme
  line : f.line t.line t'.line
  name : t.kind = .identifier → f.name t.lexeme
  place : f.placed = true → t = t'

/-- Two lists that are alike up to where they part. A pragma would look further, so there is
    none before it, and no other end. -/
inductive Splits (f : Fork) : List Word → List Word → Prop
  | part {p : Parting} : f.parting = some p → Splits f (p.stop :: p.more) [p.last]
  | done : f.Same → Splits f [] []
  | word {w w' : Word} {l₁ l₂ : List Word} :
    f.SameToken w.token w'.token → w.doc = w'.doc → (w'.token.kind = .endOfFile → f.Same) →
      (w'.token.kind = .keyword .kwPragma → f.Same) → Splits f l₁ l₂ → Splits f (w :: l₁) (w' :: l₂)

/-- The same kind, or those where the lists part. -/
def KindAlike (k k' : Token.Kind) : Prop := k = k' ∨ k = .dollar ∧ k' = .endOfFile

/-- The same token, or those where the lists part. -/
structure Alike (f : Fork) (t t' : Token) : Prop where
  same_or : f.SameToken t t' ∨ ¬ f.Same ∧ t.kind = .dollar ∧ t'.kind = .endOfFile
  line : f.line t.line t'.line
  place : f.placed = true → t.line = t'.line ∧ t.column = t'.column
  pragma : t.kind = .keyword .kwPragma → f.Same

/-- The same span, unless the places differ. -/
def Spans (f : Fork) (a a' : Span) : Prop := f.placed = true → a = a'

/-- What comes next in two lists. -/
structure Next (f : Fork) (w w' : Word) (r₁ r₂ : List Word) : Prop where
  alike : f.Alike w.token w'.token
  doc : w.doc = w'.doc
  /-- Before the second list ends, it is the same word. -/
  word : w'.token.kind ≠ .endOfFile → f.SameToken w.token w'.token ∧ f.Splits r₁ r₂

variable {f : Fork} {t t' : Token} {k k' : Token.Kind} {l₁ l₂ : List Word} {j : Token.Kind}

theorem line_eq_iff {a a' b b' : Nat} (h : f.line a a') (h' : f.line b b') : a = b ↔ a' = b' := by
  have h₁ := f.lt_iff h h'
  have h₂ := f.lt_iff h' h
  omega

theorem SameToken.span (h : f.SameToken t t') : f.Spans t.span t'.span := fun hp => by rw [h.place hp]

theorem SameToken.message_unclosed (h : f.SameToken t t') (wanted : Wanted) :
    (Problem.unclosed wanted t).message = (Problem.unclosed wanted t').message := by
  unfold Problem.message
  dsimp only
  rw [h.kind, h.lexeme]

theorem SameToken.message_unexpected (h : f.SameToken t t') :
    (Problem.unexpected t).message = (Problem.unexpected t').message := by
  unfold Problem.message
  dsimp only
  rw [h.kind, h.lexeme]

theorem Alike.kind (h : f.Alike t t') : KindAlike t.kind t'.kind := h.same_or.imp (·.kind) (·.2)

theorem Alike.same (h : f.Alike t t') (hf : f.Same) : f.SameToken t t' := h.same_or.resolve_right fun hn => hn.1 hf

/-- Tokens of any other kind are the same. -/
theorem Alike.same_of_kind (h : f.Alike t t') (hk : t.kind ≠ .dollar) : f.SameToken t t' :=
  h.same_or.resolve_right fun h' => hk h'.2.1

/-- A function that makes no difference between a `$` and the end gives the same. -/
theorem KindAlike.apply_eq {β : Type} (h : KindAlike k k') (g : Token.Kind → β)
    (hg : g .dollar = g .endOfFile) : g k = g k' := by
  rcases h with rfl | ⟨rfl, rfl⟩
  · rfl
  · exact hg

theorem KindAlike.eq_iff (h : KindAlike k k') (hd : j ≠ .dollar) (he : j ≠ .endOfFile) : k = j ↔ k' = j := by
  rcases h with rfl | ⟨rfl, rfl⟩
  · rfl
  · exact ⟨fun h => absurd h.symm hd, fun h => absurd h.symm he⟩

theorem Alike.eq_iff (h : f.Alike t t') (hd : j ≠ .dollar) (he : j ≠ .endOfFile) : t.kind = j ↔ t'.kind = j :=
  h.kind.eq_iff hd he

theorem extra_of_same (h : f.Same) : f.extra = 0 := by rw [extra, show f.parting = none from h, Option.elim_none]

theorem Splits.length (h : f.Splits l₁ l₂) : l₁.length = l₂.length + f.extra := by
  induction h with
  | part hp =>
    simp only [extra, hp, Option.elim_some, List.length_cons, List.length_nil]
    omega
  | done hf => simp [extra_of_same hf]
  | word _ _ _ _ _ ih =>
    simp only [List.length_cons]
    omega

theorem Splits.cases (h : f.Splits l₁ l₂) : f.Same ∧ l₁ = [] ∧ l₂ = [] ∨
    ∃ w w' r₁ r₂, l₁ = w :: r₁ ∧ l₂ = w' :: r₂ ∧ f.Next w w' r₁ r₂ := by
  cases h with
  | @part p hp =>
    have hf : ¬ f.Same := by simp [Same, hp]
    refine .inr ⟨_, _, _, _, rfl, rfl, ⟨.inr ⟨hf, p.stop_kind, p.last_kind⟩, f.parting_line p hp, ?_, ?_⟩, p.doc_eq, ?_⟩
    · exact fun _ => ⟨p.line_eq, p.column_eq⟩
    · simp [p.stop_kind]
    · exact fun hne => absurd p.last_kind hne
  | done hf => exact .inl ⟨hf, rfl, rfl⟩
  | word hw hd _ hp hr =>
    refine .inr ⟨_, _, _, _, rfl, rfl, ⟨.inl hw, hw.line, fun h => by simp [hw.place h], ?_⟩, hd, fun _ => ⟨hw, hr⟩⟩
    rwa [hw.kind]

/-- Where the second list ends, the lists part, if they do. -/
theorem Splits.eq_last {p : Parting} {w : Word} {r₂ : List Word} (h : f.Splits l₁ (w :: r₂)) (hp : f.parting = some p)
    (hw : w.token.kind = .endOfFile) : l₁ = p.stop :: p.more := by
  cases h with
  | part hp' =>
    cases hp.symm.trans hp'
    rfl
  | word _ _ he _ _ => simp [Same, hp] at he; exact absurd hw he

end Fork

/-! ## Runs abreast -/

/-- The same report, but for the place where places differ. Where lists part, reports may, too. -/
def Fork.SameReport (f : Fork) (d d' : Diagnostic) : Prop :=
  f.Same → d.said = d'.said ∧ (f.placed = true → d = d')

/-- The tree, without its places unless these are the same. -/
def Fork.seen (f : Fork) (n : Node) : Node := if f.placed then n else n.unplaced

def Fork.seenSlot (f : Fork) (slot : Slot) : Slot := { slot with node := f.seen slot.node }

structure Abreast (f : Fork) (s₁ s₂ : State) : Prop where
  rest : f.Splits s₁.rest s₂.rest
  next : s₁.next = s₂.next + f.shift
  arena : ∀ i, s₁.arena[i + f.shift]?.map f.seenSlot = (s₂.arena[i]?.map (Slot.renumber (· + f.shift))).map f.seenSlot
  reported : ∃ new, s₁.diagnostics = f.before ++ new ∧ List.Forall₂ f.SameReport new s₂.diagnostics
  origin : s₂.rest.length ≤ f.origin
  previous : s₂.rest.length < f.origin → ∃ p p', s₁.previous = some p ∧ s₂.previous = some p' ∧ f.SameToken p p'

/-- Where the runs are, seen from an earlier state of the second. -/
structure Arrive (f : Fork) (moved : Bool) (s₂ t₁ t₂ : State) : Prop where
  abreast : Abreast f t₁ t₂
  rest_le : t₂.rest.length ≤ s₂.rest.length
  moved : moved = true → t₂.rest.length < f.origin

theorem Arrive.trans {f : Fork} {b c : Bool} {s₂ t₁ t₂ u₁ u₂ : State} (h : Arrive f b s₂ t₁ t₂)
    (h' : Arrive f c t₂ u₁ u₂) : Arrive f c s₂ u₁ u₂ :=
  ⟨h'.abreast, Nat.le_trans h'.rest_le h.rest_le, h'.moved⟩

def AgreeAt {α β : Type} (f : Fork) (moved : Bool) (R : α → β → Prop) (p : Parse α) (q : Parse β) (s₁ s₂ : State) :
    Prop :=
  match p s₁, q s₂ with
  | .found a t₁, .found b t₂ => Arrive f moved s₂ t₁ t₂ ∧ R a b
  | .gaveUp t₁, .gaveUp t₂ => Arrive f false s₂ t₁ t₂
  | _, .fault _ => True
  | _, _ => False

def Agree {α β : Type} (f : Fork) (moved moved' : Bool) (R : α → β → Prop) (p : Parse α) (q : Parse β) : Prop :=
  ∀ s₁ s₂, Abreast f s₁ s₂ → (moved = true → s₂.rest.length < f.origin) → AgreeAt f moved' R p q s₁ s₂

namespace AgreeAt

variable {α β α' β' : Type} {f : Fork} {b c : Bool} {R : α → β → Prop} {R' : α' → β' → Prop} {s₁ s₂ : State}
  {p : Parse α} {q : Parse β} {w w' : Word} {r₁ r₂ : List Word}

theorem bind {g : α → Parse α'} {h : β → Parse β'} (hp : AgreeAt f b R p q s₁ s₂)
    (hg : ∀ x y t₁ t₂, p s₁ = .found x t₁ → R x y → Arrive f b s₂ t₁ t₂ → AgreeAt f c R' (g x) (h y) t₁ t₂) :
    AgreeAt f c R' (p >>= g) (q >>= h) s₁ s₂ := by
  unfold AgreeAt at hp ⊢
  rw [Parse.bind_apply, Parse.bind_apply]
  cases hq : q s₂ <;> cases hr : p s₁ <;> simp only [hr, hq] at hp ⊢
  case gaveUp.gaveUp => exact hp
  case found.found y t₂ x t₁ =>
    have h' := hg x y t₁ t₂ hr hp.2 hp.1
    unfold AgreeAt at h'
    cases hq' : h y t₂ <;> cases hr' : g x t₁ <;> simp only [hr', hq'] at h' ⊢
    case gaveUp.gaveUp => exact hp.1.trans h'
    case found.found => exact ⟨hp.1.trans h'.1, h'.2⟩

/-- Having moved may be forgotten. -/
theorem mono {R' : α → β → Prop} (h : AgreeAt f b R p q s₁ s₂) (hb : c = true → b = true) (hR : ∀ x y, R x y → R' x y) :
    AgreeAt f c R' p q s₁ s₂ := by
  unfold AgreeAt at h ⊢
  split at h
  · exact ⟨⟨h.1.abreast, h.1.rest_le, fun hc => h.1.moved (hb hc)⟩, hR _ _ h.2⟩
  · exact h
  · trivial
  · exact h

theorem current {g : Token → Parse α} {h : Token → Parse β} (h₁ : s₁.rest = w :: r₁) (h₂ : s₂.rest = w' :: r₂) :
    AgreeAt f b R (Parse.current >>= g) (Parse.current >>= h) s₁ s₂ ↔ AgreeAt f b R (g w.token) (h w'.token) s₁ s₂ := by
  simp only [AgreeAt, Parse.bind_apply, Parse.current, h₁, h₂]

theorem kind {g : Token.Kind → Parse α} {h : Token.Kind → Parse β} (h₁ : s₁.rest = w :: r₁) (h₂ : s₂.rest = w' :: r₂) :
    AgreeAt f b R (Parse.kind >>= g) (Parse.kind >>= h) s₁ s₂ ↔ AgreeAt f b R (g w.token.kind) (h w'.token.kind) s₁ s₂ := by
  simp only [AgreeAt, Parse.bind_apply, Parse.kind, Parse.current, Parse.pure_apply, h₁, h₂]

/-- Both runs look without moving. -/
theorem looked {x : α} {y : β} (hs : Abreast f s₁ s₂) (hm : b = true → s₂.rest.length < f.origin)
    (hp : p s₁ = .found x s₁) (hq : q s₂ = .found y s₂) (h : R x y) : AgreeAt f b R p q s₁ s₂ := by
  simp only [AgreeAt, hp, hq]
  exact ⟨⟨hs, Nat.le_refl _, hm⟩, h⟩

end AgreeAt

namespace Agree

variable {α β α' β' σ τ : Type} {f : Fork} {b c : Bool} {R : α → β → Prop} {R' : α' → β' → Prop} {p : Parse α} {q : Parse β}
  {s₁ s₂ : State} {round : σ → Parse (Parse.Round σ α)} {round' : τ → Parse (Parse.Round τ β)} {d : Bool}
  {g : α → Parse α'}

/-! ## Composition -/

theorem pure {x : α} {y : β} (h : R x y) : Agree f b b R (Pure.pure x) (Pure.pure y) :=
  fun _ _ hs hm => .looked hs hm rfl rfl h

theorem fail : Agree f b c R Parse.fail Parse.fail := fun _ _ hs _ => ⟨hs, Nat.le_refl _, by simp⟩

theorem bind {h : β → Parse β'} (hp : Agree f b c R p q) (hg : ∀ x y, R x y → Agree f c d R' (g x) (h y)) :
    Agree f b d R' (p >>= g) (q >>= h) :=
  fun s₁ s₂ hs hm => (hp s₁ s₂ hs hm).bind fun x y t₁ t₂ _ hxy ha => hg x y hxy t₁ t₂ ha.abreast ha.moved

/-- Both find the same. -/
theorem bindEq {q : Parse α} {h : α → Parse β'} (hp : Agree f b c Eq p q) (hg : ∀ x, Agree f c d R' (g x) (h x)) :
    Agree f b d R' (p >>= g) (q >>= h) :=
  hp.bind fun x _ hx => hx ▸ hg x

theorem forget (h : Agree f b true R p q) : Agree f b c R p q :=
  fun s₁ s₂ hs hm => (h s₁ s₂ hs hm).mono (fun _ => rfl) fun _ _ => id

theorem ite {C C' : Prop} [Decidable C] [Decidable C'] {p' : Parse α} {q' : Parse β} (hc : C ↔ C')
    (hp : C → Agree f b c R p q) (hq : ¬ C → Agree f b c R p' q') :
    Agree f b c R (if C then p else p') (if C' then q else q') := by
  by_cases h : C
  · rw [if_pos h, if_pos (hc.mp h)]
    exact hp h
  · rw [if_neg h, if_neg fun h' => h (hc.mpr h')]
    exact hq h

theorem here (h : Agree f false c R p q) (hs : Abreast f s₁ s₂) : AgreeAt f c R p q s₁ s₂ :=
  h s₁ s₂ hs (by simp)

/-- Both have an answer, or neither. -/
def Options (R : α → β → Prop) : Option α → Option β → Prop
  | some x, some y => R x y
  | none, none => True
  | _, _ => False

theorem attempt (h : Agree f b c R p q) : Agree f b b (Options R) (Parse.attempt p) (Parse.attempt q) := by
  intro s₁ s₂ hs hm
  have h := h s₁ s₂ hs hm
  unfold AgreeAt Parse.attempt at *
  -- what is left only gets less, so the cursor has moved if it had before
  have later {t₂ : State} (hle : t₂.rest.length ≤ s₂.rest.length) : b = true → t₂.rest.length < f.origin :=
    fun hb => Nat.lt_of_le_of_lt hle (hm hb)
  cases hq : q s₂ <;> cases hp : p s₁ <;> simp only [hp, hq] at h ⊢
  case gaveUp.gaveUp => exact ⟨⟨h.abreast, h.rest_le, later h.rest_le⟩, trivial⟩
  case found.found => exact ⟨⟨h.1.abreast, h.1.rest_le, later h.1.rest_le⟩, h.2⟩

/-- Rounds that end alike. -/
def Rounds (S : σ → τ → Prop) (R : α → β → Prop) : Parse.Round σ α → Parse.Round τ β → Prop
  | .again x, .again y => S x y
  | .done x, .done y => R x y
  | _, _ => False

/-- Rounds that do the same as long as something holds of where the first run is, and keep
    that. -/
theorem loopAt {S : σ → τ → Prop} {I : State → Prop}
    (hround : ∀ x y s₁ s₂, S x y → I s₁ → Abreast f s₁ s₂ → (b = true → s₂.rest.length < f.origin) →
      AgreeAt f c (Rounds S R) (round x) (round' y) s₁ s₂)
    (hkeep : ∀ x s x' t, I s → round x s = .found (.again x') t → I t) {x : σ} {y : τ} (hx : S x y) (hi : I s₁)
    (hs : Abreast f s₁ s₂) (hm : b = true → s₂.rest.length < f.origin) :
    AgreeAt f c R (Parse.loop round x) (Parse.loop round' y) s₁ s₂ := by
  induction hn : s₂.rest.length using Nat.strongRecOn generalizing x y s₁ s₂ with
  | _ n ih =>
    have h := hround x y s₁ s₂ hx hi hs hm
    unfold AgreeAt at h ⊢
    rw [Parse.loop, Parse.loop]
    cases hq : round' y s₂ with
    | fault e => simp
    | gaveUp t₂ =>
      cases hp : round x s₁ with
      | gaveUp t₁ => simpa only [hp, hq] using h
      | found r t₁ | fault e => simp [hp, hq] at h
    | found r' t₂ =>
      cases hp : round x s₁ with
      | gaveUp t₁ | fault e => simp [hp, hq] at h
      | found r t₁ =>
        simp only [hp, hq] at h
        obtain ⟨ha, hr⟩ := h
        cases r with
        | done a =>
          cases r' with
          | again y' => exact hr.elim
          | done a' => exact ⟨ha, hr⟩
        | again x' =>
          cases r' with
          | done a' => exact hr.elim
          | again y' =>
            have h₁ := hs.rest.length
            have h₂ := ha.abreast.rest.length
            by_cases hl : t₂.rest.length < s₂.rest.length
            · have hl' : t₁.rest.length < s₁.rest.length := by omega
              have hrec := ih t₂.rest.length (by omega) hr (hkeep _ _ _ _ hi hp) ha.abreast
                (fun hb => Nat.lt_trans hl (hm hb)) rfl
              simp only [hl, hl', if_true]
              unfold AgreeAt at hrec
              split at hrec
              · exact ⟨ha.trans hrec.1, hrec.2⟩
              · exact ha.trans hrec
              · trivial
              · exact hrec
            · simp only [hl, if_false]

theorem loop {S : σ → τ → Prop} {x : σ} {y : τ} (hround : ∀ x y, S x y → Agree f b c (Rounds S R) (round x) (round' y))
    (hx : S x y) : Agree f b c R (Parse.loop round x) (Parse.loop round' y) :=
  fun _ _ hs hm => loopAt (I := fun _ => True) (fun x y s₁ s₂ h _ => hround x y h s₁ s₂) (fun _ _ _ _ _ _ => trivial) hx
    trivial hs hm

/-! ## The cursor -/

theorem current : Agree f b b f.Alike Parse.current Parse.current := by
  intro s₁ s₂ hs hm
  rcases hs.rest.cases with ⟨-, h₁, h₂⟩ | ⟨w, w', r₁, r₂, h₁, h₂, hw⟩
  · simp [AgreeAt, Parse.current, h₁, h₂]
  · exact .looked hs hm (by simp [Parse.current, h₁]) (by simp [Parse.current, h₂]) hw.alike

theorem kind : Agree f b b Fork.KindAlike Parse.kind Parse.kind := current.bind fun _ _ h => pure h.kind

theorem remaining : Agree f b b f.Splits Parse.remaining Parse.remaining :=
  fun _ _ hs hm => .looked hs hm rfl rfl hs.rest

/-- What is left to two runs, from where the same word comes next. -/
structure Starts (f : Fork) (start start' : List Word) : Prop where
  splits : f.Splits start start'
  origin : start'.length ≤ f.origin
  tail : f.Splits start.tail start'.tail
  head : ∃ w w' r₁ r₂, start = w :: r₁ ∧ start' = w' :: r₂ ∧ f.SameToken w.token w'.token

/-- Where the second run has more than its end left, the same word comes next. -/
theorem upcomingAt (hs : Abreast f s₁ s₂) (hm : b = true → s₂.rest.length < f.origin) :
    AgreeAt f b (fun l₁ l₂ => Starts f l₁ l₂ ∧ l₁ = s₁.rest) Parse.upcoming Parse.upcoming s₁ s₂ := by
  rcases hs.rest.cases with ⟨-, h₁, h₂⟩ | ⟨w, w', r₁, r₂, h₁, h₂, hw⟩
  · simp [AgreeAt, Parse.upcoming, h₁, h₂]
  by_cases he : w'.token.kind = .endOfFile
  · simp [AgreeAt, Parse.upcoming, h₂, he]
  · obtain ⟨ht, hr⟩ := hw.word he
    refine .looked (x := s₁.rest) (y := s₂.rest) hs hm (by simp [Parse.upcoming, h₁, ht.kind, he])
      (by simp [Parse.upcoming, h₂, he]) ⟨⟨hs.rest, hs.origin, by rw [h₁, h₂]; exact hr, w, w', r₁, r₂, h₁, h₂, ht⟩, rfl⟩

theorem upcoming : Agree f b b (Starts f) Parse.upcoming Parse.upcoming :=
  fun _ _ hs hm => (upcomingAt hs hm).mono id fun _ _ => And.left

theorem isKeyword (word : Keyword) : Agree f b b Eq (Parse.isKeyword word) (Parse.isKeyword word) :=
  kind.bind fun _ _ h => pure (decide_eq_decide.mpr (h.eq_iff (by simp) (by simp)))

theorem previous : Agree f true true (fun p p' => ∃ t t', p = some t ∧ p' = some t' ∧ f.SameToken t t') Parse.previous
    Parse.previous :=
  fun _ _ hs hm => .looked hs hm rfl rfl (hs.previous (hm rfl))

/-- Tokens are on one line in the one list if and only if they are in the other. -/
theorem onSameLine : Agree f true true Eq Parse.onSameLine Parse.onSameLine := by
  refine current.bind fun t t' ht => previous.bind ?_
  rintro _ _ ⟨p, p', rfl, rfl, hp⟩
  exact pure (by simpa using Fork.line_eq_iff hp.line ht.line)

theorem previousSpan : Agree f true true (fun a a' => f.Spans a a' ∧ f.line a.endLine a'.endLine) Parse.previousSpan
    Parse.previousSpan := by
  refine previous.bind ?_
  rintro _ _ ⟨p, p', rfl, rfl, hp⟩
  exact pure ⟨hp.span, hp.line⟩

theorem doc : Agree f b b Eq Parse.doc Parse.doc := by
  intro s₁ s₂ hs hm
  refine .looked hs hm rfl rfl ?_
  rcases hs.rest.cases with ⟨-, h₁, h₂⟩ | ⟨w, w', r₁, r₂, h₁, h₂, hw⟩
  · rw [h₁, h₂]
  · simp [h₁, h₂, hw.doc]

/-- The second run does not pass its end, so the first does not pass the `$`. -/
theorem advanceAt (hs : Abreast f s₁ s₂) :
    AgreeAt f true (fun t t' => f.SameToken t t' ∧ ∃ w r₁, s₁.rest = w :: r₁ ∧ w.token = t) Parse.advance Parse.advance
      s₁ s₂ := by
  rcases hs.rest.cases with ⟨-, h₁, h₂⟩ | ⟨w, w', r₁, r₂, h₁, h₂, hw⟩
  · simp [AgreeAt, Parse.advance, h₁, h₂]
  by_cases he : w'.token.kind = .endOfFile
  · simp [AgreeAt, Parse.advance, h₂, he]
  · obtain ⟨ht, hr⟩ := hw.word he
    have hl : r₂.length < s₂.rest.length := by simp [h₂]
    have ho := hs.origin
    simp only [AgreeAt, Parse.advance, h₁, h₂, ht.kind, he, if_false]
    refine ⟨⟨⟨hr, hs.next, hs.arena, hs.reported, ?_, fun _ => ⟨_, _, rfl, rfl, ht⟩⟩, ?_, fun _ => ?_⟩, ht, w, r₁, rfl, rfl⟩
    all_goals
      dsimp only
      omega

theorem advance : Agree f b true f.SameToken Parse.advance Parse.advance :=
  fun _ _ hs _ => (advanceAt hs).mono id fun _ _ => And.left

theorem skip (n : Nat) : Agree f b b Eq (Parse.skip n) (Parse.skip n) := by
  induction n with
  | zero => exact pure rfl
  | succ n ih => exact advance.forget.bind fun _ _ _ => ih

theorem skip_one : Agree f b true Eq (Parse.skip 1) (Parse.skip 1) := advance.bind fun _ _ _ => pure rfl

end Agree

/-! ## Nodes and problems -/

/-- The same tree, but for the numbers and, where places differ, the places. -/
structure Twin (f : Fork) (n n' : Node) : Prop where
  seen : f.seen n = f.seen (n'.renumber (· + f.shift))
  names : n.Names f.name

structure Twins (f : Fork) (ns ns' : List Node) : Prop where
  seen : ns.map f.seen = (ns'.map (Node.renumber (· + f.shift))).map f.seen
  names : ∀ n ∈ ns, n.Names f.name

section Twins

variable {f : Fork} {n n' : Node} {ns ns' ms ms' : List Node}

theorem Fork.seen_mk (f : Fork) (number : Nat) (kind : Node.Kind) (span : Span) (ns : List Node) :
    f.seen ⟨number, kind, span, ns⟩ = ⟨number, kind, if f.placed then span else .nowhere, ns.map f.seen⟩ := by
  unfold seen
  cases f.placed <;> simp [Node.unplaced_mk]

theorem Fork.seen_eq (f : Fork) (n : Node) :
    f.seen n = ⟨n.number, n.kind, if f.placed then n.span else .nowhere, n.children.map f.seen⟩ := by
  cases n
  rw [f.seen_mk]

theorem Twin.kind (h : Twin f n n') : n.kind = n'.kind := by
  have hs := congrArg Node.kind h.seen
  rw [f.seen_eq, f.seen_eq] at hs
  simpa using hs

theorem Twin.span (h : Twin f n n') : f.Spans n.span n'.span := by
  intro hp
  have hs := congrArg Node.span h.seen
  rw [f.seen_eq, f.seen_eq] at hs
  simpa [hp] using hs

theorem twin_mk {number : Nat} {kind : Node.Kind} {span span' : Span} (hn : ∀ name ∈ kind.names, f.name name)
    (hs : f.Spans span span') (h : Twins f ns ns') : Twin f ⟨number + f.shift, kind, span, ns⟩ ⟨number, kind, span', ns'⟩ := by
  refine ⟨?_, Node.names_of_children hn h.names⟩
  rw [Node.renumber_mk, f.seen_mk, f.seen_mk, h.seen]
  by_cases hp : f.placed = true
  · rw [hs hp]
  · simp [hp]

theorem Twins.nil : Twins f [] [] := ⟨rfl, by simp⟩

theorem Twins.cons (h : Twin f n n') (hs : Twins f ns ns') : Twins f (n :: ns) (n' :: ns') :=
  ⟨by simp only [List.map_cons, h.seen, hs.seen], List.forall_mem_cons.mpr ⟨h.names, hs.names⟩⟩

theorem Twins.append (h : Twins f ns ns') (h' : Twins f ms ms') : Twins f (ns ++ ms) (ns' ++ ms') :=
  ⟨by simp only [List.map_append, h.seen, h'.seen], List.forall_mem_append.mpr ⟨h.names, h'.names⟩⟩

theorem Twins.single (h : Twin f n n') : Twins f [n] [n'] := .cons h .nil

theorem Twins.snoc (hs : Twins f ns ns') (h : Twin f n n') : Twins f (ns ++ [n]) (ns' ++ [n']) := hs.append (.single h)

theorem Twins.spans (h : Twins f ns ns') (hp : f.placed = true) : ns.map Node.span = ns'.map Node.span := by
  have hs := congrArg (List.map Node.span) h.seen
  simpa [Function.comp_def, Fork.seen, hp] using hs

theorem Twins.number_iff (h : Twins f ns ns') (i : Nat) : i + f.shift ∈ ns.map Node.number ↔ i ∈ ns'.map Node.number := by
  have hs : ns.map Node.number = (ns'.map Node.number).map (· + f.shift) := by
    simpa [Function.comp_def, f.seen_eq] using congrArg (List.map Node.number) h.seen
  simp [hs]

theorem Twin.number (h : Twin f n n') : n.number = n'.number + f.shift := by
  simpa [f.seen_eq] using congrArg Node.number h.seen

/-- Nodes that are the same are added alike. -/
theorem Twin.add {a a' : Arena} (h : Twin f n n') (hc : Twins f n.children n'.children) (hsize : a.size = a'.size + f.shift)
    (ha : ∀ i, a[i + f.shift]?.map f.seenSlot = (a'[i]?.map (Slot.renumber (· + f.shift))).map f.seenSlot) (i : Nat) :
    (a.add n)[i + f.shift]?.map f.seenSlot = ((a'.add n')[i]?.map (Slot.renumber (· + f.shift))).map f.seenSlot := by
  rw [Arena.getElem?_add, Arena.getElem?_add]
  by_cases hi : i = a'.size
  · rw [if_pos (by omega), if_pos hi]
    simp [Fork.seenSlot, Slot.renumber, h.seen]
  rw [if_neg (by omega), if_neg hi]
  have ha := ha i
  cases hx : a[i + f.shift]? <;> cases hy : a'[i]? <;> simp only [hx, hy, Option.map_none, Option.map_some] at ha ⊢
  case none.some | some.none => cases ha
  case some.some slot slot' =>
    obtain ⟨hnode, hparent⟩ : f.seen slot.node = f.seen (slot'.node.renumber (· + f.shift)) ∧ _ := by
      simpa [Fork.seenSlot, Slot.renumber] using ha
    by_cases hm : i ∈ n'.children.map Node.number
    · simp [Fork.seenSlot, Slot.renumber, (hc.number_iff i).mpr hm, hm, hnode, h.number]
    · simp [Fork.seenSlot, Slot.renumber, mt (hc.number_iff i).mp hm, hm, hnode, hparent]

end Twins

namespace Agree

variable {α β : Type} {f : Fork} {b c : Bool} {R : α → β → Prop} {span' : Span} {wanted : Wanted} {kind kind' : Node.Kind}
  {span : Span} {ns ns' : List Node} {problem problem' : Problem} {word : Keyword}

theorem node (hs : f.Spans span span') (h : Twins f ns ns') (hk : kind = kind') (hn : ∀ name ∈ kind.names, f.name name) :
    Agree f b b (Twin f) (Parse.node kind span ns) (Parse.node kind' span' ns') := by
  subst hk
  intro s₁ s₂ hst hm
  have htwin : Twin f ⟨s₁.next, kind, span, ns⟩ ⟨s₂.next, kind, span', ns'⟩ := hst.next ▸ twin_mk hn hs h
  refine ⟨⟨⟨hst.rest, ?_, htwin.add h hst.next hst.arena, hst.reported, hst.origin, hst.previous⟩, Nat.le_refl _, hm⟩, htwin⟩
  have hnext := hst.next
  simp only [State.next, Arena.size_add] at hnext ⊢
  omega

theorem report (h : f.Same → problem.message = problem'.message ∧ f.Spans span span') :
    Agree f b b Eq (Parse.report problem span) (Parse.report problem' span') := by
  intro s₁ s₂ hs hm
  obtain ⟨new, hd, hr⟩ := hs.reported
  refine ⟨⟨⟨hs.rest, hs.next, hs.arena, ⟨new ++ [.error problem.message (some span)], ?_, ?_⟩, hs.origin, hs.previous⟩, Nat.le_refl _,
    hm⟩, rfl⟩
  · simp [hd]
  · refine List.rel_append hr (.cons (fun hf => ?_) .nil)
    obtain ⟨hmessage, hspan⟩ := h hf
    exact ⟨by simp [Diagnostic.said, Diagnostic.error, hmessage], fun hp => by rw [hmessage, hspan hp]⟩

theorem failWith (h : f.Same → problem.message = problem'.message ∧ f.Spans span span') :
    Agree f b c R (Parse.failWith problem span) (Parse.failWith problem' span') :=
  (report h).bind fun _ _ _ => fail

theorem nodeFrom {start start' : Span} (hs : f.Spans start start') (h : Twins f ns ns') (hk : kind = kind')
    (hn : ∀ name ∈ kind.names, f.name name) :
    Agree f true true (Twin f) (Parse.nodeFrom kind start ns) (Parse.nodeFrom kind' start' ns') :=
  previousSpan.bind fun _ _ hspan => node (fun hp => by rw [hs hp, hspan.1 hp]) h hk hn

/-- A leaf that is named like the token it is made from. -/
theorem leaf {m : String → Node.Kind} {t t' : Token} (hm : ∀ name, (m name).names = [name])
    (ht : f.SameToken t t' ∧ f.name t.lexeme) :
    Agree f b b (Twin f) (Parse.node (m t.lexeme) t.span []) (Parse.node (m t'.lexeme) t'.span []) :=
  node ht.1.span .nil (by rw [ht.1.lexeme]) (by rw [hm]; simpa using ht.2)

/-- Where a name comes next, its spelling is known. -/
theorem advance_name {s₁ s₂ : State} {w : Word} {r₁ : List Word} (h₁ : s₁.rest = w :: r₁)
    (hk : w.token.kind = .identifier) (hs : Abreast f s₁ s₂) :
    AgreeAt f true (fun t t' => f.SameToken t t' ∧ f.name t.lexeme) Parse.advance Parse.advance s₁ s₂ := by
  refine (advanceAt hs).mono id ?_
  rintro t t' ⟨ht, w', r', h', rfl⟩
  cases h₁.symm.trans h'
  exact ⟨ht, ht.name hk⟩

theorem identifier : Agree f b true (fun t t' => f.SameToken t t' ∧ f.name t.lexeme)
    (Parse.identifier wanted) (Parse.identifier wanted) := by
  intro s₁ s₂ hs hm
  unfold Parse.identifier
  rcases hs.rest.cases with ⟨-, h₁, h₂⟩ | ⟨w, w', r₁, r₂, h₁, h₂, hw⟩
  · simp [AgreeAt, Parse.bind_apply, Parse.current, h₁, h₂]
  rw [AgreeAt.current h₁ h₂]
  have hiff : w.token.kind = .identifier ↔ w'.token.kind = .identifier := hw.alike.eq_iff (by simp) (by simp)
  by_cases hk : w.token.kind = .identifier
  · rw [if_pos hk, if_pos (hiff.mp hk)]
    exact advance_name h₁ hk hs
  · rw [if_neg hk, if_neg fun h => hk (hiff.mpr h)]
    exact failWith (fun h => ⟨rfl, (hw.alike.same h).span⟩) s₁ s₂ hs hm

theorem token {kind : Token.Kind} (hd : kind ≠ .dollar) (he : kind ≠ .endOfFile) :
    Agree f b true Eq (Parse.token kind wanted) (Parse.token kind wanted) := by
  refine current.bind fun t t' ht => ite (ht.eq_iff hd he) (fun _ => skip_one) fun _ => failWith fun h => ?_
  exact ⟨by rw [(ht.same h).lexeme], (ht.same h).span⟩

theorem keyword : Agree f b true Eq (Parse.keyword word wanted) (Parse.keyword word wanted) :=
  token (by simp) (by simp)

theorem closing : Agree f b b Eq (Parse.closing word wanted) (Parse.closing word wanted) := by
  refine current.bind fun t t' ht => ite (ht.eq_iff (by simp) (by simp)) (fun _ => skip 1) fun _ => report fun h => ?_
  exact ⟨(ht.same h).message_unclosed wanted, (ht.same h).span⟩

theorem skipIf {passes : Token.Kind → Bool} (hp : passes .dollar = passes .endOfFile) :
    Agree f b b Eq (Parse.skipIf passes) (Parse.skipIf passes) :=
  kind.bind fun k k' hk => ite (by rw [hk.apply_eq passes hp]) (fun _ => skip 1) fun _ => pure rfl

theorem optionalLabel : Agree f b b Eq Parse.optionalLabel Parse.optionalLabel := by
  refine kind.bind fun k k' hk => ite (hk.eq_iff (by simp) (by simp)) (fun _ => forget ?_) fun _ => pure rfl
  exact skip_one.bind fun _ _ _ => identifier.bind fun t t' ht => pure (congrArg some ht.1.lexeme)

end Agree

end Grammar

end Magik
