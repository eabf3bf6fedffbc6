/-
  Magik.Proofs.Grammar.Ahead — the words ahead of the cursor.

  A file ends with its last word and nowhere before (`Closes`). Where a parser looks further
  ahead than the next word, what it counts or finds there stands in front of that end.
-/

import Magik.Grammar.File

namespace Magik

/-! ## Tokens -/

/-- A keyword where it stands. -/
def Token.word (k : Keyword) (line column : Nat) : Token := ⟨.keyword k, k.spelling, line, column⟩

def Token.name (text : String) (line column : Nat) : Token := ⟨.identifier, text, line, column⟩

namespace Grammar

variable {ws : List Word}

/-! ## Files that end -/

/-- The words of a file that ends with `e` and nowhere before. -/
inductive Closes (e : Word) : List Word → Prop
  | last : e.token.kind = .endOfFile → Closes e [e]
  | more {w : Word} {ws : List Word} : w.token.kind ≠ .endOfFile → Closes e ws → Closes e (w :: ws)

namespace Closes

variable {e w : Word} {ws passed rest : List Word}

theorem exists_cons (h : Closes e ws) : ∃ w rest, ws = w :: rest := by
  cases h with
  | last _ => exact ⟨e, [], rfl⟩
  | more _ _ => exact ⟨_, _, rfl⟩

theorem tail (h : Closes e (w :: ws)) (hw : w.token.kind ≠ .endOfFile) : Closes e ws := by
  cases h with
  | last he => exact absurd he hw
  | more _ h => exact h

theorem of_append (h : Closes e (passed ++ rest)) (hp : ∀ w ∈ passed, w.token.kind ≠ .endOfFile) : Closes e rest := by
  induction passed with
  | nil => exact h
  | cons w passed ih => exact ih (h.tail (hp w (by simp))) fun u hu => hp u (.tail _ hu)

theorem eq_last (h : Closes e (w :: ws)) (hw : w.token.kind = .endOfFile) : w = e ∧ ws = [] := by
  cases h with
  | last _ => exact ⟨rfl, rfl⟩
  | more hne _ => exact absurd hw hne

end Closes

/-! ## Looking ahead -/

/-- Where targets of an assignment follow, there is a name, and then a comma and more of
    them, or a parenthesis and a chevron. -/
theorem targetsFollow_cases (h : Parse.targetsFollow ws) :
    ∃ name separator rest, ws = name :: separator :: rest ∧ name.token.kind = .identifier ∧
      (separator.token.kind = .comma ∧ Parse.targetsFollow rest ∨
        separator.token.kind = .rightParen ∧ ∃ chevron more, rest = chevron :: more ∧ chevron.token.kind = .chevron) := by
  unfold Parse.targetsFollow at h
  split at h
  · rename_i name separator rest
    by_cases hn : name.token.kind = .identifier
    · refine ⟨name, separator, rest, rfl, hn, ?_⟩
      by_cases hc : separator.token.kind = .comma
      · exact .inl ⟨hc, by simpa [hn, hc] using h⟩
      · simp only [hn, hc, if_true, if_false, Bool.and_eq_true, decide_eq_true_eq] at h
        cases rest with
        | nil => simp at h
        | cons chevron more => exact .inr ⟨h.1, chevron, more, rfl, by simpa using h.2⟩
    · simp [hn] at h
  · simp at h

/-- The conditions of a handler are words in front of what is left. -/
theorem handledLength_split (ws : List Word) :
    ∃ passed rest, ws = passed ++ rest ∧ passed.length = Parse.handledLength ws ∧
      ∀ w ∈ passed, w.token.kind = .identifier ∨ w.token.kind = .comma := by
  fun_induction Parse.handledLength ws with
  | case1 => exact ⟨[], [], rfl, rfl, by simp⟩
  | case2 name h => exact ⟨[name], [], rfl, rfl, by simp [h]⟩
  | case3 name h separator more hs ih =>
    obtain ⟨passed, rest, rfl, hl, hp⟩ := ih
    refine ⟨name :: separator :: passed, rest, rfl, by simp only [List.length_cons]; omega, ?_⟩
    simp only [List.mem_cons]
    rintro w (rfl | rfl | hw)
    · exact .inl h
    · exact .inr hs
    · exact hp w hw
  | case4 name h separator more hs => exact ⟨[name], separator :: more, rfl, rfl, by simp [h]⟩
  | case5 name rest h => exact ⟨[], name :: rest, rfl, rfl, by simp⟩

/-- What a pragma takes is in front of the end of the file. -/
theorem pragmaRest_split {depth n : Nat} (h : Parse.pragmaRest depth ws = some n) :
    ∃ passed rest, ws = passed ++ rest ∧ passed.length = n ∧ ∀ w ∈ passed, w.token.kind ≠ .endOfFile := by
  -- all cases but the last parenthesis count one word and go on
  have more {w : Word} {ws : List Word} {n : Nat} {m : Option Nat} (hk : w.token.kind ≠ .endOfFile)
      (ih : ∀ k, m = some k → ∃ passed rest, ws = passed ++ rest ∧ passed.length = k ∧
        ∀ w ∈ passed, w.token.kind ≠ .endOfFile) (h : m.map (· + 1) = some n) :
      ∃ passed rest, w :: ws = passed ++ rest ∧ passed.length = n ∧ ∀ w ∈ passed, w.token.kind ≠ .endOfFile := by
    obtain ⟨k, hm, rfl⟩ := Option.map_eq_some_iff.mp h
    obtain ⟨passed, rest, rfl, hl, hp⟩ := ih k hm
    refine ⟨w :: passed, rest, rfl, by simp [hl], ?_⟩
    simpa using ⟨hk, hp⟩
  fun_induction Parse.pragmaRest depth ws generalizing n with
  | case1 => cases h
  | case2 => cases h
  | case3 depth w ws hk ih | case5 depth w ws hk hd ih => exact more (by simp [hk]) (fun k hk => ih hk) h
  | case4 depth w ws hk hd =>
    cases h
    exact ⟨[w], ws, rfl, rfl, by simp [hk]⟩
  | case6 depth w ws hk hk' hk'' ih => exact more hk (fun k hk => ih hk) h

end Grammar

end Magik
