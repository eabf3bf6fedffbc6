/-
  Magik.Proofs.Token.Literals — integers are worth what their digits say.

  `Reaches` follows the scan of a source from token to token. Where it comes to a number without
  fraction and exponent, `valueOf` says what the digits are worth, to base ten or to the base that
  is written in front of them. The scan passes the number as an integer of this value, or ends
  there if the value is too large or a digit is none to this base.
-/

import Magik.Proofs.Token.Surroundings
import Mathlib.Data.List.Induction
import Mathlib.Data.Nat.Digits.Defs

namespace Magik.Token

variable {c : Char}

/-! ## Values -/

/-- The digits of all bases in order. -/
def numerals : List Char := "0123456789abcdefghijklmnopqrstuvwxyz".toList

/-- What a digit counts for, in either case; as many as there are digits for any other character. -/
def digitOf (c : Char) : Nat := numerals.idxOf c.toLower

/-- What digits are worth to a base, the first one most. -/
def valueOf (base : Nat) (digits : List Char) : Nat := Nat.ofDigits base (digits.map digitOf).reverse

theorem toNat_lt_of_isAlphanum (h : c.isAlphanum) : c.toNat < 123 := by
  delta Char.isAlphanum Char.isAlpha Char.isUpper Char.isLower Char.isDigit at h
  simp only [Bool.or_eq_true, Bool.and_eq_true, decide_eq_true_eq, ge_iff_le, UInt32.le_iff_toNat_le] at h
  change ((65 ≤ c.toNat ∧ c.toNat ≤ 90) ∨ (97 ≤ c.toNat ∧ c.toNat ≤ 122)) ∨ (48 ≤ c.toNat ∧ c.toNat ≤ 57) at h
  omega

theorem digitValue_eq (h : c.isAlphanum) : digitValue c = digitOf c ∧ (c.isDigit → digitOf c < 10) := by
  have hall : ∀ n < 123, (Char.ofNat n).isAlphanum →
      digitValue (Char.ofNat n) = digitOf (Char.ofNat n) ∧ ((Char.ofNat n).isDigit → digitOf (Char.ofNat n) < 10) := by
    decide +kernel
  have hc := hall c.toNat (toNat_lt_of_isAlphanum h)
  rw [Char.ofNat_toNat] at hc
  exact hc h

theorem readDigits_snoc (base : Nat) (digits : List Char) (c : Char) :
    readDigits base (digits ++ [c]) =
      (readDigits base digits).bind fun n => if digitValue c < base then some (base * n + digitValue c) else none := by
  simp [readDigits]

theorem valueOf_snoc (base : Nat) (digits : List Char) (c : Char) :
    valueOf base (digits ++ [c]) = base * valueOf base digits + digitOf c := by
  rw [valueOf, List.map_append, List.reverse_append, List.map_singleton, List.reverse_singleton, List.singleton_append,
    Nat.ofDigits_cons, Nat.add_comm]
  rfl

theorem readDigits_eq {base : Nat} {digits : List Char} (h : ∀ c ∈ digits, c.isAlphanum) :
    readDigits base digits = if digits.all (digitOf · < base) then some (valueOf base digits) else none := by
  induction digits using List.reverseRecOn with
  | nil => rfl
  | append_singleton digits c ih =>
    rw [List.forall_mem_append, List.forall_mem_singleton] at h
    rw [readDigits_snoc, ih h.1, (digitValue_eq h.2).1, valueOf_snoc, List.all_append]
    by_cases hdigits : digits.all (digitOf · < base) <;> by_cases hc : digitOf c < base <;> simp [hdigits, hc]

theorem isAlphanum_of_isDigit (h : c.isDigit) : c.isAlphanum := by simp [Char.isAlphanum, h]

theorem readDigits_ten {digits : List Char} (h : ∀ c ∈ digits, c.isDigit) : readDigits 10 digits = some (valueOf 10 digits) := by
  have hall : ∀ c ∈ digits, c.isAlphanum := fun c hc => isAlphanum_of_isDigit (h c hc)
  rw [readDigits_eq hall, if_pos]
  exact List.all_eq_true.mpr fun c hc => decide_eq_true ((digitValue_eq (hall c hc)).2 (h c hc))

/-! ## Numbers without fraction and exponent -/

/-- A number that ends in a digit would go on here. -/
inductive Continues : List Char → Prop
  | digit {c : Char} {cs : List Char} (h : c.isDigit) : Continues (c :: cs)
  | radix {c : Char} {cs : List Char} (h : c.isAlphanum) : Continues ('r' :: c :: cs)
  | fraction {c : Char} {cs : List Char} (h : c.isDigit) : Continues ('.' :: c :: cs)
  | exponent {mark c : Char} {cs : List Char} (hm : mark = 'e' ∨ mark = 'E' ∨ mark = '&') (h : c.isDigit) :
      Continues (mark :: c :: cs)
  | signed {mark sign c : Char} {cs : List Char} (hm : mark = 'e' ∨ mark = 'E' ∨ mark = '&') (hs : sign = '+' ∨ sign = '-')
      (h : c.isDigit) : Continues (mark :: sign :: c :: cs)

/-- The digits are a number, which ends with them. -/
structure IsDecimal (digits after : List Char) : Prop where
  nonempty : digits ≠ []
  digits : ∀ c ∈ digits, c.isDigit
  ends : ¬ Continues after

/-- A base and digits, with an `r` between them, are a number, which ends with them. -/
structure IsRadix (base digits after : List Char) : Prop where
  nonempty : base ≠ []
  base : ∀ c ∈ base, c.isDigit
  some : digits ≠ []
  digits : ∀ c ∈ digits, c.isAlphanum
  ends : StopsAt Char.isAlphanum after

variable {after digits base rest : List Char} {first : Char}

/-- Behind such a number there is nothing that the scan would look for. -/
theorem ends_of_not_continues (h : ¬ Continues after) :
    StopsAt Char.isDigit after ∧ radixDigits after = [] ∧ fractionDigits after = [] ∧ exponentText after = [] := by
  unfold StopsAt radixDigits fractionDigits
  rcases after with _ | ⟨a, _ | ⟨b, _ | ⟨c, cs⟩⟩⟩
  all_goals grind [Continues, exponentText, List.takeWhile_nil, List.takeWhile_cons]

theorem scanToken_digit (h : first.isDigit) : scanToken first rest = scanNumber first rest := by
  unfold scanToken
  split
  case h_25 => rw [if_pos h]
  all_goals exact absurd h (by decide)

theorem scanToken_decimal (h : IsDecimal (first :: digits) after) :
    scanToken first (digits ++ after) =
      if valueOf 10 (first :: digits) ≤ largestInteger then .ok (.integer (valueOf 10 (first :: digits)), digits.length)
      else .error (.integerOutOfRange (String.ofList (first :: digits))) := by
  obtain ⟨hfirst, hdigits⟩ := List.forall_mem_cons.mp h.digits
  obtain ⟨hstop, hradix, hfraction, hexponent⟩ := ends_of_not_continues h.ends
  rw [scanToken_digit hfirst, scanNumber_decimal hdigits hstop hradix]
  simp only [scanDecimal, hfraction, List.isEmpty_nil, if_true, List.drop_zero, hexponent, Bool.and_self,
    readDigits_ten h.digits, List.length_cons, Nat.add_sub_cancel]

/-- What makes a number with a base an integer. -/
def Counts (base digits : List Char) : Prop :=
  2 ≤ valueOf 10 base ∧ valueOf 10 base ≤ 36 ∧ (∀ c ∈ digits, digitOf c < valueOf 10 base) ∧
    valueOf (valueOf 10 base) digits ≤ 2 ^ 63 - 1

theorem scanToken_radix {ds : List Char} (h : IsRadix (first :: base) ds after) :
    (Counts (first :: base) ds → scanToken first (base ++ 'r' :: (ds ++ after)) =
      .ok (.integer (valueOf (valueOf 10 (first :: base)) ds), (base ++ 'r' :: ds).length)) ∧
    (¬ Counts (first :: base) ds → ∃ problem, scanToken first (base ++ 'r' :: (ds ++ after)) = .error problem) := by
  obtain ⟨hfirst, hbase⟩ := List.forall_mem_cons.mp h.base
  have hds : radixDigits ('r' :: (ds ++ after)) = ds := takeWhile_append_stop h.digits h.ends
  rw [scanToken_digit hfirst, scanNumber_radix hbase (.cons rfl) (by rw [hds]; exact h.some), hds]
  have hall : ds.all (digitOf · < valueOf 10 (first :: base)) ↔ ∀ c ∈ ds, digitOf c < valueOf 10 (first :: base) := by simp
  simp only [scanRadix, readDigits_ten h.base, readDigits_eq h.digits]
  constructor
  · rintro ⟨low, high, hdigits, hvalue⟩
    simp only [low, high, and_self, if_true, if_pos (hall.mpr hdigits), List.cons_append, List.length_cons, Nat.add_sub_cancel]
    exact if_pos hvalue
  · intro hnot
    by_cases hbase : 2 ≤ valueOf 10 (first :: base) ∧ valueOf 10 (first :: base) ≤ 36
    · rw [if_pos hbase]
      by_cases hdigits : ∀ c ∈ ds, digitOf c < valueOf 10 (first :: base)
      · rw [if_pos (hall.mpr hdigits)]
        exact ⟨_, if_neg fun hvalue => hnot ⟨hbase.1, hbase.2, hdigits, hvalue⟩⟩
      · rw [if_neg (hdigits ∘ hall.mp)]
        exact ⟨_, rfl⟩
    · rw [if_neg hbase]
      exact ⟨_, rfl⟩

/-! ## On the way through a source -/

/-- The scan of a source comes to a place with so many tokens behind it and a text ahead. -/
inductive Reaches (source : String) : List Token → Position → List Char → Prop
  | start : Reaches source [] .start source.toList
  | gap {behind : List Token} {place : Position} {c : Char} {rest : List Char} (h : Reaches source behind place (c :: rest))
      (hc : isGap c) : Reaches source behind (place.advance c) rest
  | comment {behind : List Token} {place : Position} {words rest : List Char}
      (h : Reaches source behind place ('#' :: (words ++ rest))) (hw : ∀ c ∈ words, isLineEnd c = false)
      (he : StopsAt (!isLineEnd ·) rest) :
      Reaches source (behind ++ if (words ++ rest).head? = some '#' then
          [⟨.docComment (commentText ('#' :: words)), String.ofList ('#' :: words), place.line, place.column⟩] else [])
        (place.after ('#' :: words)) rest
  | token {behind : List Token} {place : Position} {c : Char} {lexeme rest : List Char} {kind : Kind}
      (h : Reaches source behind place (c :: lexeme ++ rest)) (hg : isGap c = false) (hc : c ≠ '#')
      (hs : scanToken c (lexeme ++ rest) = .ok (kind, lexeme.length)) :
      Reaches source (behind ++ [⟨kind, String.ofList (c :: lexeme), place.line, place.column⟩])
        (place.after (c :: lexeme)) rest

theorem digit_starts (h : c.isDigit) : isGap c = false ∧ c ≠ '#' := by
  constructor
  · refine Bool.eq_false_iff.mpr fun hg => ?_
    rcases (isGap_iff c).mp hg with rfl | rfl | rfl | rfl <;> exact absurd h (by decide)
  · rintro rfl
    exact absurd h (by decide)

namespace Reaches

variable {source : String} {behind : List Token} {place : Position} {c : Char}

/-- The answer of the scan is that of the scan from here on, after the tokens behind. -/
theorem scan_eq (h : Reaches source behind place rest) : scan source = (scanFrom place rest).map (behind ++ ·) := by
  induction h with
  | start =>
    rw [scan]
    cases scanFrom .start source.toList <;> rfl
  | gap _ hc ih => rw [ih, scanFrom, if_pos hc]
  | @comment behind place words rest _ hw he ih =>
    have hwords : ∀ c ∈ words, (!isLineEnd c) = true := by simpa using hw
    rw [ih, scanFrom, if_neg (by decide), if_pos rfl, takeWhile_append_stop hwords he, dropWhile_append_stop hwords he]
    dsimp only
    cases scanFrom (place.after ('#' :: words)) rest <;> split <;> simp [Except.map]
  | @token behind place c lexeme rest kind _ hg hc hs ih =>
    rw [ih, List.cons_append, scanFrom, if_neg (by simp [hg]), if_neg hc, hs]
    simp only [List.take_left, List.drop_left]
    cases scanFrom (place.after (c :: lexeme)) rest <;> simp [Except.map]

theorem fails (h : Reaches source behind place (c :: rest)) (hd : c.isDigit) {problem : Problem}
    (hs : scanToken c rest = .error problem) : scan source = .error ⟨problem, place⟩ := by
  obtain ⟨hg, hc⟩ := digit_starts hd
  rw [h.scan_eq, scanFrom, if_neg (by simp [hg]), if_neg hc, hs]
  rfl

/-- A number that is scanned as one is passed. -/
theorem passes {lexeme : List Char} (h : Reaches source behind place (lexeme ++ rest)) {more : List Char}
    (hl : lexeme = c :: more) (hd : c.isDigit) {kind : Kind} (hs : scanToken c (more ++ rest) = .ok (kind, more.length)) :
    Reaches source (behind ++ [⟨kind, String.ofList lexeme, place.line, place.column⟩]) (place.after lexeme) rest := by
  subst hl
  exact .token h (digit_starts hd).1 (digit_starts hd).2 hs

end Reaches

/-- Wherever the scan of a source comes to digits that are a number, it passes them as the integer that they are to base ten
    if this is at most `2 ^ 63 - 1`, and ends there else. Where it comes to digits with a base in front, it passes them as the
    integer that they are to this base, if the base is one from 2 to 36, all of them are digits to it and the integer is at
    most `2 ^ 63 - 1`, and ends there else. No source has a token with a larger integer. -/
theorem integers_denote_values (source : String) :
    (∀ behind place digits after, Reaches source behind place (digits ++ after) → IsDecimal digits after →
      let value := valueOf 10 digits
      (value ≤ 2 ^ 63 - 1 → Reaches source (behind ++ [⟨.integer value, String.ofList digits, place.line, place.column⟩])
        (place.after digits) after) ∧
      (2 ^ 63 - 1 < value → ∃ problem, scan source = .error ⟨problem, place⟩)) ∧
    (∀ behind place base digits after, Reaches source behind place (base ++ 'r' :: digits ++ after) → IsRadix base digits after →
      let value := valueOf (valueOf 10 base) digits
      let lexeme := base ++ 'r' :: digits
      (Counts base digits → Reaches source (behind ++ [⟨.integer value, String.ofList lexeme, place.line, place.column⟩])
        (place.after lexeme) after) ∧
      (¬ Counts base digits → ∃ problem, scan source = .error ⟨problem, place⟩)) ∧
    ∀ tokens, scan source = .ok tokens → ∀ t ∈ tokens, ∀ value, t.kind = .integer value → value ≤ 2 ^ 63 - 1 := by
  refine ⟨fun behind place digits after h hdecimal => ?_, fun behind place base digits after h hradix => ?_, fun tokens h => ?_⟩
  · obtain ⟨first, digits, rfl⟩ := List.exists_cons_of_ne_nil hdecimal.nonempty
    have hfirst := hdecimal.digits first List.mem_cons_self
    have hscan := scanToken_decimal hdecimal
    exact ⟨fun hle => h.passes rfl hfirst (hscan.trans (if_pos hle)),
      fun hlt => ⟨_, h.fails hfirst (hscan.trans (if_neg (Nat.not_le.mpr hlt)))⟩⟩
  · obtain ⟨first, base, rfl⟩ := List.exists_cons_of_ne_nil hradix.nonempty
    have hfirst := hradix.base first List.mem_cons_self
    obtain ⟨hcounts, hnot⟩ := scanToken_radix hradix
    rw [← List.cons_append, ← List.append_assoc] at hcounts hnot
    refine ⟨fun hc => h.passes rfl hfirst (hcounts hc), fun hc => ?_⟩
    obtain ⟨problem, hs⟩ := hnot hc
    exact ⟨problem, h.fails hfirst hs⟩
  · exact Grammar.forall_of_scanFrom (by simp) (by simp) (fun _ _ _ _ _ _ hs => (Grammar.emitted_scanToken hs).integer) h

/-- A number to base sixteen, in both cases, and one that is too large by one. -/
def oversized : String := "16rFf 9223372036854775808"

theorem integers_denote_values_oversized :
    Reaches oversized [⟨.integer 255, "16rFf", 1, 1⟩] ⟨1, 7⟩ "9223372036854775808".toList ∧
      ∃ problem, scan oversized = .error ⟨problem, ⟨1, 7⟩⟩ := by
  obtain ⟨hdecimal, hradix, -⟩ := integers_denote_values oversized
  have hcounts : Counts ['1', '6'] ['F', 'f'] := by
    refine ⟨by decide +kernel, by decide +kernel, ?_, by decide +kernel⟩
    rw [List.forall_mem_cons, List.forall_mem_singleton]
    decide +kernel
  have hpassed := (hradix [] .start _ _ " 9223372036854775808".toList .start
    ⟨by simp, by simp, by simp, by simp, .cons (by decide)⟩).1 hcounts
  have hreached := hpassed.gap (by decide)
  exact ⟨hreached, (hdecimal _ _ "9223372036854775808".toList [] hreached
    ⟨by simp, by simp, fun hc => by cases hc⟩).2 (by decide +kernel)⟩

end Magik.Token
