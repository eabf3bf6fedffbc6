/-
  Magik.Proofs.Grammar.Nested — words inside one another.

  A construct keyword or an opening bracket opens an enclosure, and its counterpart closes
  it. `_elif`, `_else`, `_when` and `_protection` divide an enclosure of their own, and `$`
  stands outside of all. `Nested around ks`: the tokens `ks` stand side by side in the
  enclosure `around`, or in none, and those that open one there also close it. A stack of
  the open enclosures decides it (`nested_iff`).

  `Nests around s t`: the words that are passed from the state `s` to the state `t` are
  nested so, or something has been reported between the two.
-/

import Magik.Proofs.Grammar.Traces

namespace Magik.Grammar

variable {xs : List Token.Kind} {stack : List Enclosure} {around : Option Enclosure} {ys : List Token.Kind}

/-! ## Enclosures -/

inductive Enclosure where
  | conditional | loop | procedure | block | attempt | protect | lock | catching | method
  | parentheses | brackets | braces
  deriving DecidableEq, Repr

/-- What a token does to the enclosures around it. -/
inductive Bracketing where
  | ordinary
  | opens (e : Enclosure)
  | divides (e : Enclosure)
  | closes (e : Enclosure)
  | separates
  deriving DecidableEq, Repr

def bracketing : Token.Kind → Bracketing
  | .keyword .kwIf => .opens .conditional
  | .keyword .kwElif | .keyword .kwElse => .divides .conditional
  | .keyword .kwEndIf => .closes .conditional
  | .keyword .kwLoop => .opens .loop
  | .keyword .kwEndLoop => .closes .loop
  | .keyword .kwProc => .opens .procedure
  | .keyword .kwEndProc => .closes .procedure
  | .keyword .kwBlock => .opens .block
  | .keyword .kwEndBlock => .closes .block
  | .keyword .kwTry => .opens .attempt
  | .keyword .kwWhen => .divides .attempt
  | .keyword .kwEndTry => .closes .attempt
  | .keyword .kwProtect => .opens .protect
  | .keyword .kwProtection => .divides .protect
  | .keyword .kwEndProtect => .closes .protect
  | .keyword .kwLock => .opens .lock
  | .keyword .kwEndLock => .closes .lock
  | .keyword .kwCatch => .opens .catching
  | .keyword .kwEndCatch => .closes .catching
  | .keyword .kwMethod => .opens .method
  | .keyword .kwEndMethod => .closes .method
  | .leftParen => .opens .parentheses
  | .rightParen => .closes .parentheses
  | .leftBracket => .opens .brackets
  | .rightBracket => .closes .brackets
  | .leftBrace => .opens .braces
  | .rightBrace => .closes .braces
  | .dollar => .separates
  | _ => .ordinary

inductive Nested : Option Enclosure → List Token.Kind → Prop
  | nil {around : Option Enclosure} : Nested around []
  | ordinary {around : Option Enclosure} {k : Token.Kind} {ks : List Token.Kind} (hk : bracketing k = .ordinary)
      (h : Nested around ks) : Nested around (k :: ks)
  /-- A `$` stands in no enclosure. -/
  | separator {k : Token.Kind} {ks : List Token.Kind} (hk : bracketing k = .separates) (h : Nested none ks) :
      Nested none (k :: ks)
  /-- A divider stands directly in an enclosure of its kind. -/
  | divider {e : Enclosure} {k : Token.Kind} {ks : List Token.Kind} (hk : bracketing k = .divides e)
      (h : Nested (some e) ks) : Nested (some e) (k :: ks)
  /-- What is opened is closed by its counterpart. -/
  | enclosed {around : Option Enclosure} {e : Enclosure} {k k' : Token.Kind} {inner ks : List Token.Kind}
      (hk : bracketing k = .opens e) (hi : Nested (some e) inner) (hk' : bracketing k' = .closes e)
      (h : Nested around ks) : Nested around (k :: (inner ++ k' :: ks))

theorem Nested.append (hx : Nested around xs) (hy : Nested around ys) : Nested around (xs ++ ys) := by
  induction hx with
  | nil => exact hy
  | ordinary hk _ ih => exact .ordinary hk (ih hy)
  | separator hk _ ih => exact .separator hk (ih hy)
  | divider hk _ ih => exact .divider hk (ih hy)
  | enclosed hk hi hk' _ _ ih =>
    rw [List.cons_append, List.append_assoc, List.cons_append]
    exact .enclosed hk hi hk' (ih hy)

/-! ## The open enclosures -/

/-- Whether the tokens close a stack of open enclosures, the innermost first, and all they open. -/
def closesAll : List Enclosure → List Token.Kind → Bool
  | stack, [] => stack.isEmpty
  | stack, k :: ks =>
    match bracketing k with
    | .ordinary => closesAll stack ks
    | .separates => stack.isEmpty && closesAll stack ks
    | .divides e => stack.head? = some e && closesAll stack ks
    | .opens e => closesAll (e :: stack) ks
    | .closes e => stack.head? = some e && closesAll stack.tail ks

/-- Tokens that are nested in the innermost enclosure leave the stack as it is. -/
theorem Nested.closesAll_append (hx : Nested around xs) (hs : stack.head? = around) (ys : List Token.Kind) :
    closesAll stack (xs ++ ys) = closesAll stack ys := by
  induction hx generalizing stack ys with
  | nil => rfl
  | ordinary hk _ ih => simp [closesAll, hk, ih hs]
  | separator hk _ ih =>
    cases List.head?_eq_none_iff.mp hs
    simp [closesAll, hk, ih hs]
  | divider hk _ ih => simp [closesAll, hk, ih hs, hs]
  | enclosed hk _ hk' _ ihi ih =>
    rw [List.cons_append, List.append_assoc, List.cons_append, closesAll, hk]
    dsimp only
    rw [ihi rfl]
    simp [closesAll, hk', ih hs]

/-- The tokens close the open enclosures one after the other, with nested tokens between. -/
def Unwinds : List Enclosure → List Token.Kind → Prop
  | [], ks => Nested none ks
  | e :: stack, ks => ∃ inner k rest, ks = inner ++ k :: rest ∧ Nested (some e) inner ∧ bracketing k = .closes e ∧
      Unwinds stack rest

/-- Nested tokens may stand in front. -/
theorem Unwinds.append (hx : Nested stack.head? xs) (hy : Unwinds stack ys) : Unwinds stack (xs ++ ys) := by
  cases stack with
  | nil => exact Nested.append hx hy
  | cons e stack =>
    obtain ⟨inner, k, rest, rfl, hi, hk, hrest⟩ := hy
    exact ⟨xs ++ inner, k, rest, by rw [List.append_assoc], Nested.append hx hi, hk, hrest⟩

theorem unwinds_of_closesAll {ks : List Token.Kind} (h : closesAll stack ks) : Unwinds stack ks := by
  induction ks generalizing stack with
  | nil =>
    cases stack with
    | nil => exact .nil
    | cons e stack => cases h
  | cons k ks ih =>
    unfold closesAll at h
    cases hk : bracketing k with
    | ordinary =>
      simp only [hk] at h
      have hone : Nested stack.head? [k] := .ordinary hk .nil
      exact Unwinds.append hone (ih h)
    | separates =>
      simp only [hk, Bool.and_eq_true, List.isEmpty_iff] at h
      obtain ⟨rfl, h⟩ := h
      exact Nested.separator hk (ih h)
    | divides e =>
      simp only [hk, Bool.and_eq_true, decide_eq_true_eq] at h
      have hone : Nested stack.head? [k] := h.1 ▸ .divider hk .nil
      exact Unwinds.append hone (ih h.2)
    | opens e =>
      simp only [hk] at h
      obtain ⟨inner, k', rest, rfl, hi, hk', hrest⟩ := ih h
      have hone := Unwinds.append (.enclosed hk hi hk' .nil) hrest
      rwa [List.cons_append, List.append_assoc] at hone
    | closes e =>
      simp only [hk, Bool.and_eq_true, decide_eq_true_eq] at h
      cases stack with
      | nil => cases h.1
      | cons e' stack =>
        cases Option.some.inj h.1
        exact ⟨[], k, ks, rfl, .nil, hk, ih h.2⟩

theorem nested_iff (ks : List Token.Kind) : Nested none ks ↔ closesAll [] ks := by
  constructor
  · intro h
    have happend : closesAll [] (ks ++ []) = closesAll [] [] := h.closesAll_append rfl []
    rw [← List.append_nil ks, happend]
    rfl
  · intro h
    exact unwinds_of_closesAll h

instance (ks : List Token.Kind) : Decidable (Nested none ks) := decidable_of_iff _ (nested_iff ks).symm

-- a parenthesis that is closed outside of the conditional it was opened in
example : ¬ Nested none [.keyword .kwIf, .leftParen, .keyword .kwEndIf, .rightParen] := by decide

/-! ## States -/

structure Nests (around : Option Enclosure) (s t : State) : Prop where
  errors_le : s.errors ≤ t.errors
  nested : t.errors = s.errors → ∃ passed, s.rest = passed ++ t.rest ∧ Nested around (passed.map fun w => w.token.kind)

/-- The same up to and including the word that closes the enclosure. -/
def Shuts (e : Enclosure) (s t : State) : Prop :=
  ∃ u w ws, Nests (some e) s u ∧ u.rest = w :: ws ∧ bracketing w.token.kind = .closes e ∧ t = u.pass w ws

namespace Nests

variable {around : Option Enclosure} {e : Enclosure} {s t u : State} {w : Word} {ws : List Word}

theorem refl (s : State) : Nests around s s := ⟨Nat.le_refl _, fun _ => ⟨[], rfl, .nil⟩⟩

theorem trans (h : Nests around s t) (h' : Nests around t u) : Nests around s u := by
  have hle := h.errors_le
  have hle' := h'.errors_le
  refine ⟨Nat.le_trans hle hle', fun he => ?_⟩
  obtain ⟨passed, hr, hn⟩ := h.nested (by omega)
  obtain ⟨passed', hr', hn'⟩ := h'.nested (by omega)
  refine ⟨passed ++ passed', by rw [hr, hr', List.append_assoc], ?_⟩
  rw [List.map_append]
  exact hn.append hn'

/-- Nothing is said where something has been reported. -/
theorem of_lt (h : s.errors < t.errors) : Nests around s t := ⟨Nat.le_of_lt h, fun he => by omega⟩

theorem pass (hr : s.rest = w :: ws) (hn : Nested around [w.token.kind]) : Nests around s (s.pass w ws) :=
  ⟨Nat.le_refl _, fun _ => ⟨[w], hr, hn⟩⟩

theorem word (hr : s.rest = w :: ws) (hk : bracketing w.token.kind = .ordinary) : Nests around s (s.pass w ws) :=
  pass hr (.ordinary hk .nil)

theorem divider (hr : s.rest = w :: ws) (hk : bracketing w.token.kind = .divides e) :
    Nests (some e) s (s.pass w ws) :=
  pass hr (.divider hk .nil)

theorem give {kind : Node.Kind} {span : Span} {ns : List Node} (h : Nests around s t) : Nests around s (t.give kind span ns) :=
  ⟨h.errors_le, h.nested⟩

/-- The enclosure is closed by the next word. -/
theorem shut (h : Nests (some e) s t) (hr : t.rest = w :: ws) (hk : bracketing w.token.kind = .closes e) :
    Shuts e s (t.pass w ws) :=
  ⟨t, w, ws, h, hr, hk, rfl⟩

/-- From the word that opens an enclosure to the word that closes it. -/
theorem enclosed (hr : s.rest = w :: ws) (hk : bracketing w.token.kind = .opens e) (h : Shuts e (s.pass w ws) t) :
    Nests around s t := by
  obtain ⟨u, w', ws', hu, hr', hk', rfl⟩ := h
  refine ⟨hu.errors_le, fun he => ?_⟩
  obtain ⟨passed, hp, hn⟩ := hu.nested he
  rw [State.pass_rest] at hp
  refine ⟨w :: (passed ++ [w']), by simp [hr, hp, hr'], ?_⟩
  rw [List.map_cons, List.map_append]
  exact .enclosed hk hn hk' .nil

end Nests

end Magik.Grammar
