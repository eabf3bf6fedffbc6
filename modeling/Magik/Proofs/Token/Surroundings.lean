/-
  Magik.Proofs.Token.Surroundings — tokens do not depend on what stands around them.

  Scanners look past their token, by two characters at most: what they find there only
  tells them where it ends, and a line feed tells the same. `Settled` says so of one
  scanner on one text. So each token of a source is read from its own text again
  (`ReadsAlone`), and the texts of all tokens, one on each line, are divided as they were.
-/

import Magik.Proofs.Token.Division
import Mathlib.Data.List.TakeWhile
import Mathlib.Tactic.Set
import Mathlib.Tactic.Tauto

namespace Magik.Token

variable {after value : List Char} {c first : Char} {column line : Nat}

/-! ## Where a run of characters ends -/

/-- Nothing follows, or a character that is none of the run. -/
def StopsAt (p : Char → Bool) (after : List Char) : Prop := ∀ c ∈ after.head?, p c = false

/-- Nothing follows, or a line feed. -/
def Breaks (after : List Char) : Prop := ∀ c ∈ after.head?, c = '\n'

theorem Breaks.stopsAt (ha : Breaks after) {p : Char → Bool} (hp : p '\n' = false) : StopsAt p after :=
  fun c hc => ha c hc ▸ hp

theorem Breaks.eq (ha : Breaks after) : after = [] ∨ ∃ more, after = '\n' :: more := by
  cases after with
  | nil => exact .inl rfl
  | cons c more => exact .inr ⟨more, by rw [ha c rfl]⟩

section Runs

variable {p : Char → Bool} {text after : List Char}

theorem StopsAt.cons {c : Char} (hc : p c = false) : StopsAt p (c :: after) := by
  simpa [StopsAt] using hc

theorem takeWhile_append_stop (ht : ∀ c ∈ text, p c = true) (ha : StopsAt p after) :
    (text ++ after).takeWhile p = text := by
  rw [List.takeWhile_append_of_pos ht]
  cases after with
  | nil => simp
  | cons c after => simp [ha c rfl]

theorem dropWhile_append_stop (ht : ∀ c ∈ text, p c = true) (ha : StopsAt p after) :
    (text ++ after).dropWhile p = after := by
  rw [List.dropWhile_append_of_pos ht]
  cases after with
  | nil => simp
  | cons c after => simp [ha c rfl]

/-- A run is read again. -/
theorem takeWhile_again (ha : StopsAt p after) : (text.takeWhile p ++ after).takeWhile p = text.takeWhile p :=
  takeWhile_append_stop (fun _ hc => List.mem_takeWhile_imp hc) ha

theorem drop_length_takeWhile (p : Char → Bool) (text : List Char) :
    text.drop (text.takeWhile p).length = text.dropWhile p := by
  have h : (text.takeWhile p ++ text.dropWhile p).drop (text.takeWhile p).length = text.dropWhile p := List.drop_left
  rwa [List.takeWhile_append_dropWhile] at h

end Runs

/-! ## Scanners -/

/-- So many characters decide what is read: what follows them might as well be a new line. -/
structure Settled {α : Type} (read : List Char → α) (n : Nat) (rest : List Char) : Prop where
  le : n ≤ rest.length
  again {after : List Char} : Breaks after → read (rest.take n ++ after) = read rest

theorem Settled.of_append {α : Type} {read : List Char → α} {n : Nat} {rest : List Char} (text tail : List Char)
    (hrest : rest = text ++ tail) (hn : text.length = n)
    (h : ∀ after, Breaks after → read (text ++ after) = read rest) : Settled read n rest := by
  subst hrest hn
  exact ⟨by simp, fun ha => by rw [List.take_left, h _ ha]⟩

variable {rest whole : List Char} {kind : Kind} {n : Nat}

theorem settled_string (h : scanString rest = .ok (kind, n)) : Settled scanString n rest := by
  have hscan := h
  simp only [scanString, drop_length_takeWhile] at h
  split at h
  · rename_i tail ht
    cases h
    let inside : Char → Bool := fun c => c ≠ '"' && c ≠ '\n'
    have hquote (after : List Char) : StopsAt inside ('"' :: after) := .cons (by decide)
    refine .of_append (rest.takeWhile inside ++ ['"']) tail ?_ (by simp [inside]) fun after _ => ?_
    · rw [List.append_assoc, List.singleton_append, ← ht, List.takeWhile_append_dropWhile]
    · rw [hscan]
      simp only [scanString, List.append_assoc, List.singleton_append]
      rw [takeWhile_again (hquote after), List.drop_left]
      rfl
  · cases h

/-- A symbol goes on after its first character. -/
theorem settled_symbolText_cons {cs : List Char} {inner outer : Bool} {change : List Char × Nat → List Char × Nat}
    (hlen : ∀ p, (change p).2 = p.2 + 1) (hstep : ∀ cs, symbolText outer (c :: cs) = (symbolText inner cs).map change)
    (ih : ∀ value n, symbolText inner cs = some (value, n) → Settled (symbolText inner) n cs)
    (h : symbolText outer (c :: cs) = some (value, n)) : Settled (symbolText outer) n (c :: cs) := by
  rw [hstep] at h
  obtain ⟨⟨v, m⟩, hs, he⟩ := Option.map_eq_some_iff.mp h
  have hn : n = m + 1 := by simpa [he] using hlen (v, m)
  subst hn
  refine ⟨by simpa using (ih v m hs).le, fun {after} ha => ?_⟩
  rw [List.take_succ_cons, List.cons_append, hstep, (ih v m hs).again ha, ← hstep]

theorem settled_symbolText {inside : Bool} (h : symbolText inside rest = some (value, n)) :
    Settled (symbolText inside) n rest := by
  have hend {after : List Char} (ha : Breaks after) : symbolText false after = some ([], 0) := by
    rcases ha.eq with rfl | ⟨_, rfl⟩ <;> rfl
  induction rest generalizing inside value n with
  | nil =>
    cases inside with
    | true => cases h
    | false =>
      cases h
      exact ⟨Nat.le_refl _, hend⟩
  | cons c cs ih =>
    have ih : ∀ inner value n, symbolText inner cs = some (value, n) → Settled (symbolText inner) n cs := fun _ _ _ => ih
    cases inside with
    | false =>
      by_cases hbar : c = '|'
      · exact settled_symbolText_cons (fun _ => rfl) (fun cs => by rw [symbolText, if_pos hbar]) (ih true) h
      by_cases hname : isNameChar c = true
      · exact settled_symbolText_cons (fun _ => rfl) (fun cs => by rw [symbolText, if_neg hbar, if_pos hname]) (ih false) h
      have hstop (cs : List Char) : symbolText false (c :: cs) = some ([], 0) := by
        rw [symbolText, if_neg hbar, if_neg hname]
      rw [hstop] at h
      cases h
      exact ⟨Nat.zero_le _, fun ha => by rw [hstop, List.take_zero, List.nil_append, hend ha]⟩
    | true =>
      by_cases hbar : c = '|'
      · exact settled_symbolText_cons (fun _ => rfl) (fun cs => by rw [symbolText, if_pos hbar]) (ih false) h
      by_cases hline : c = '\n'
      · rw [symbolText, if_neg hbar, if_pos hline] at h
        cases h
      · exact settled_symbolText_cons (fun _ => rfl) (fun cs => by rw [symbolText, if_neg hbar, if_neg hline]) (ih true) h

theorem settled_symbol (h : scanSymbol rest = .ok (kind, n)) : Settled scanSymbol n rest := by
  have htext : ∃ value, symbolText false rest = some (value, n) := by
    unfold scanSymbol at h
    split at h
    · cases h
    · cases h
    · rename_i value m _ hs
      cases h
      exact ⟨value, hs⟩
  obtain ⟨value, hs⟩ := htext
  have hsettled := settled_symbolText hs
  exact ⟨hsettled.le, fun ha => by rw [scanSymbol, scanSymbol, hsettled.again ha]⟩

theorem settled_character (h : scanCharacter rest = .ok (kind, n)) : Settled scanCharacter n rest := by
  have hscan := h
  cases rest with
  | nil => cases h
  | cons first more =>
    rw [scanCharacter] at h
    split at h
    · rename_i hname
      obtain ⟨hletter, hnext⟩ := (Bool.and_eq_true _ _).mp hname
      let inside : Char → Bool := fun c => Text.isLetterOrNumber c || c = '_'
      have hn : (more.takeWhile inside).length + 1 = n := by
        simp only at h
        split at h
        · cases h
          simp [inside]
        · cases h
      refine .of_append (first :: more.takeWhile inside) (more.dropWhile inside) (by simp) (by simpa using hn)
        fun after ha => ?_
      have hagain : (more.takeWhile inside ++ after).takeWhile inside = more.takeWhile inside :=
        takeWhile_again (ha.stopsAt (by decide))
      have hfirst : (more.takeWhile inside ++ after).head?.any Text.isLetterOrNumber = true := by
        cases more with
        | nil => simp at hnext
        | cons d more =>
          have hd : Text.isLetterOrNumber d = true := by simpa using hnext
          simp [inside, hd]
      rw [scanCharacter, List.cons_append, scanCharacter, hletter, hnext, hfirst]
      simp only [Bool.and_self, if_true]
      rw [show (fun c => Text.isLetterOrNumber c || decide (c = '_')) = inside from rfl, hagain]
    · rename_i hname
      cases h
      refine .of_append [first] more rfl rfl fun after ha => ?_
      have hnext : after.head?.any Text.isLetterOrNumber = false := by
        rcases ha.eq with rfl | ⟨_, rfl⟩
        · rfl
        · exact show Text.isLetterOrNumber '\n' = false by decide
      rw [hscan, List.singleton_append, scanCharacter, hnext, Bool.and_false]
      rfl

/-! ## Numbers -/

/-- The point and the digits after it, if a digit follows the point. -/
def fractionText (rest : List Char) : List Char :=
  if (fractionDigits rest).isEmpty then [] else '.' :: fractionDigits rest

theorem fractionText_isPrefix (rest : List Char) : fractionText rest <+: rest := by
  unfold fractionText fractionDigits
  split
  · split
    · exact List.nil_prefix
    · exact (List.prefix_cons_inj '.').mpr (List.takeWhile_prefix _)
  · exact List.nil_prefix

theorem length_fractionText (rest : List Char) :
    (fractionText rest).length = if (fractionDigits rest).isEmpty then 0 else (fractionDigits rest).length + 1 := by
  unfold fractionText
  split <;> rfl

theorem fractionDigits_append {next : List Char} (hpoint : '.' ∉ next.head?) (hdigit : StopsAt Char.isDigit next) :
    fractionDigits (fractionText rest ++ next) = fractionDigits rest := by
  have hnext : fractionDigits next = [] := by
    unfold fractionDigits
    split
    · simp at hpoint
    · rfl
  unfold fractionText
  split
  · rename_i h
    rw [List.nil_append, hnext, List.isEmpty_iff.mp h]
  · have hdigits : ∀ c ∈ fractionDigits rest, c.isDigit = true := by
      unfold fractionDigits
      split
      · exact fun c hc => List.mem_takeWhile_imp hc
      · simp
    rw [List.cons_append, fractionDigits, takeWhile_append_stop hdigits hdigit]

/-- An exponent starts with its mark, and what is read of it is read again from it. -/
theorem exponentText_spec (rest : List Char) :
    exponentText rest <+: rest ∧ (∀ c ∈ (exponentText rest).head?, c = 'e' ∨ c = 'E' ∨ c = '&') ∧
      ∀ after, Breaks after → exponentText (exponentText rest ++ after) = exponentText rest := by
  have hnone (h : exponentText rest = []) : exponentText rest <+: rest ∧
      (∀ c ∈ (exponentText rest).head?, c = 'e' ∨ c = 'E' ∨ c = '&') ∧
      ∀ after, Breaks after → exponentText (exponentText rest ++ after) = exponentText rest := by
    rw [h]
    refine ⟨List.nil_prefix, by simp, fun after ha => ?_⟩
    rcases ha.eq with rfl | ⟨_, rfl⟩ <;> rfl
  rcases rest with _ | ⟨mark, rest⟩
  · exact hnone rfl
  by_cases hmark : mark = 'e' ∨ mark = 'E' ∨ mark = '&'
  case neg => exact hnone (by simp_all [exponentText])
  rcases rest with _ | ⟨sign, more⟩
  · exact hnone (by simp [exponentText])
  have hstart (tail : List Char) : exponentText (mark :: sign :: tail) =
      if sign = '+' ∨ sign = '-' then
        if (tail.takeWhile Char.isDigit).isEmpty then [] else mark :: sign :: tail.takeWhile Char.isDigit
      else if ((sign :: tail).takeWhile Char.isDigit).isEmpty then []
      else mark :: (sign :: tail).takeWhile Char.isDigit := by
    simp [exponentText, hmark, or_assoc]
  by_cases hsign : sign = '+' ∨ sign = '-'
  · by_cases hdigits : (more.takeWhile Char.isDigit).isEmpty
    · exact hnone (by rw [hstart, if_pos hsign, if_pos hdigits])
    have he : exponentText (mark :: sign :: more) = mark :: sign :: more.takeWhile Char.isDigit := by
      rw [hstart, if_pos hsign, if_neg hdigits]
    rw [he]
    refine ⟨?_, by simpa using hmark, fun after ha => ?_⟩
    · simpa using List.takeWhile_prefix Char.isDigit
    · rw [List.cons_append, List.cons_append, hstart, if_pos hsign, takeWhile_again (ha.stopsAt (by decide)),
        if_neg hdigits]
  · by_cases hdigit : sign.isDigit
    case neg => exact hnone (by rw [hstart, if_neg hsign]; simp [hdigit])
    have he (tail : List Char) : exponentText (mark :: sign :: tail) = mark :: sign :: tail.takeWhile Char.isDigit := by
      rw [hstart, if_neg hsign]
      simp [hdigit]
    rw [he]
    refine ⟨?_, by simpa using hmark, fun after ha => ?_⟩
    · simpa using List.takeWhile_prefix Char.isDigit
    · rw [List.cons_append, List.cons_append, he, takeWhile_again (ha.stopsAt (by decide))]

/-- A number without a radix is its digits, its fraction and its exponent. -/
def decimalText (rest : List Char) : List Char :=
  fractionText rest ++ exponentText (rest.drop (fractionText rest).length)

theorem decimalText_isPrefix (rest : List Char) : decimalText rest <+: rest := by
  obtain ⟨tail, ht⟩ := fractionText_isPrefix rest
  have hdrop : rest.drop (fractionText rest).length = tail := by
    have h : (fractionText rest ++ tail).drop (fractionText rest).length = tail := List.drop_left
    rwa [ht] at h
  obtain ⟨more, hm⟩ := (exponentText_spec tail).1
  refine ⟨more, ?_⟩
  rw [decimalText, hdrop, List.append_assoc, hm, ht]

/-- What follows a number begins neither with a digit nor with a point, nor with the mark of a
    radix. -/
theorem exponentText_starts (ha : Breaks after) :
    ∀ c ∈ (exponentText rest ++ after).head?, c = 'e' ∨ c = 'E' ∨ c = '&' ∨ c = '\n' := by
  have hmark := (exponentText_spec rest).2.1
  intro c hc
  cases he : exponentText rest with
  | nil =>
    rw [he, List.nil_append] at hc
    exact .inr (.inr (.inr (ha c hc)))
  | cons d text =>
    rw [he] at hc hmark
    have := hmark c (by simpa using hc)
    tauto

theorem scanDecimal_break (ha : Breaks after) :
    scanDecimal whole (decimalText rest ++ after) = scanDecimal whole rest := by
  set exponent := exponentText (rest.drop (fractionText rest).length) with hexponent
  have hstarts : ∀ c ∈ (exponent ++ after).head?, c = 'e' ∨ c = 'E' ∨ c = '&' ∨ c = '\n' := exponentText_starts ha
  have hfraction : fractionDigits (decimalText rest ++ after) = fractionDigits rest := by
    rw [decimalText, List.append_assoc]
    refine fractionDigits_append (fun hc => ?_) fun c hc => ?_
    · simpa using hstarts _ hc
    · rcases hstarts c hc with rfl | rfl | rfl | rfl <;> rfl
  have hrest : (decimalText rest ++ after).drop (fractionText rest).length = exponent ++ after := by
    rw [decimalText, List.append_assoc, List.drop_left]
  have hagain : exponentText (exponent ++ after) = exponent := (exponentText_spec _).2.2 after ha
  simp only [scanDecimal, hfraction, ← length_fractionText, hrest, hagain, ← hexponent]

theorem scanDecimal_length (h : scanDecimal whole rest = .ok (kind, n)) :
    n = whole.length - 1 + (decimalText rest).length := by
  simp only [scanDecimal, ← length_fractionText] at h
  rw [decimalText, List.length_append]
  split at h
  · rename_i hplain
    obtain ⟨hfraction, hexponent⟩ := (Bool.and_eq_true _ _).mp hplain
    have hempty : (fractionText rest).length = 0 := by rw [length_fractionText, if_pos hfraction]
    rw [List.isEmpty_iff.mp hexponent, hempty]
    split at h
    · split at h
      · cases h
        rfl
      · cases h
    · cases h
  · cases h
    omega

theorem scanRadix_length {digits : List Char} (h : scanRadix whole digits = .ok (kind, n)) :
    n = (whole ++ 'r' :: digits).length - 1 := by
  unfold scanRadix at h
  grind

section Digits

variable {first : Char} {digits next : List Char}

section

variable (hd : ∀ c ∈ digits, c.isDigit = true) (hn : StopsAt Char.isDigit next)
include hd hn

theorem scanNumber_decimal
    (h : radixDigits next = []) : scanNumber first (digits ++ next) = scanDecimal (first :: digits) next := by
  simp only [scanNumber, takeWhile_append_stop hd hn, dropWhile_append_stop hd hn, h]

theorem scanNumber_radix
    (h : radixDigits next ≠ []) : scanNumber first (digits ++ next) = scanRadix (first :: digits) (radixDigits next) := by
  simp only [scanNumber, takeWhile_append_stop hd hn, dropWhile_append_stop hd hn]

theorem settled_decimal (hr : radixDigits next = [])
    (h : scanNumber first (digits ++ next) = .ok (kind, n)) : Settled (scanNumber first) n (digits ++ next) := by
  rw [scanNumber_decimal hd hn hr] at h
  obtain ⟨tail, ht⟩ := decimalText_isPrefix next
  refine .of_append (digits ++ decimalText next) tail (by rw [List.append_assoc, ht]) ?_ fun after ha => ?_
  · simp [scanDecimal_length h]
  · have hstarts : ∀ c ∈ (decimalText next ++ after).head?, c = '.' ∨ c = 'e' ∨ c = 'E' ∨ c = '&' ∨ c = '\n' := by
      intro c hc
      unfold decimalText fractionText at hc
      split at hc
      · exact .inr (exponentText_starts ha c (by simpa using hc))
      · exact .inl (by simpa using hc.symm)
    have hdigit : StopsAt Char.isDigit (decimalText next ++ after) := fun c hc => by
      rcases hstarts c hc with rfl | rfl | rfl | rfl | rfl <;> rfl
    have hradix : radixDigits (decimalText next ++ after) = [] := by
      unfold radixDigits
      split
      · rename_i he
        simpa using hstarts 'r' (he ▸ rfl)
      · rfl
    rw [List.append_assoc, scanNumber_decimal hd hdigit hradix, scanDecimal_break ha, scanNumber_decimal hd hn hr]

theorem settled_radix (hr : radixDigits next ≠ [])
    (h : scanNumber first (digits ++ next) = .ok (kind, n)) : Settled (scanNumber first) n (digits ++ next) := by
  rw [scanNumber_radix hd hn hr] at h
  obtain ⟨more, rfl⟩ : ∃ more, next = 'r' :: more := by
    unfold radixDigits at hr
    split at hr
    · exact ⟨_, rfl⟩
    · exact absurd rfl hr
  refine .of_append (digits ++ 'r' :: more.takeWhile Char.isAlphanum) (more.dropWhile Char.isAlphanum) (by simp) ?_
    fun after ha => ?_
  · rw [scanRadix_length h]
    simp [radixDigits]
  · have hagain : radixDigits ('r' :: (more.takeWhile Char.isAlphanum ++ after)) = radixDigits ('r' :: more) :=
      takeWhile_again (ha.stopsAt (by decide))
    rw [List.append_assoc, List.cons_append, scanNumber_radix hd (.cons rfl) (by rwa [hagain]), hagain,
      scanNumber_radix hd hn hr]

end

end Digits

theorem settled_number (h : scanNumber first rest = .ok (kind, n)) : Settled (scanNumber first) n rest := by
  have hdigits : ∀ c ∈ rest.takeWhile Char.isDigit, c.isDigit = true := fun c hc => List.mem_takeWhile_imp hc
  have hstop : StopsAt Char.isDigit (rest.dropWhile Char.isDigit) := fun c hc => by
    have hhead := List.head?_dropWhile_not Char.isDigit rest
    rw [Option.mem_def.mp hc] at hhead
    simpa using hhead
  rw [← List.takeWhile_append_dropWhile (p := Char.isDigit) (l := rest)] at h ⊢
  by_cases hr : radixDigits (rest.dropWhile Char.isDigit) = []
  · exact settled_decimal hdigits hstop hr h
  · exact settled_radix hdigits hstop hr h

/-! ## Words and operators -/

theorem settled_keyword (h : scanKeyword rest = .ok (kind, n)) : Settled scanKeyword n rest := by
  let inside : Char → Bool := fun c => c.isAlphanum || c = '_'
  have hn : n = (rest.takeWhile inside).length := by
    simp only [scanKeyword] at h
    split at h <;> cases h
    rfl
  refine .of_append (rest.takeWhile inside) (rest.dropWhile inside) (by simp) hn.symm fun after ha => ?_
  have hagain : (rest.takeWhile inside ++ after).takeWhile inside = rest.takeWhile inside :=
    takeWhile_again (ha.stopsAt (by decide))
  simp only [scanKeyword]
  rw [show (fun c : Char => c.isAlphanum || decide (c = '_')) = inside from rfl, hagain]

theorem isNameChar_of_isLetter (h : Text.isLetter c = true) : isNameChar c = true := by
  have hc : Text.isLetterOrNumber c = true := by
    unfold Text.isLetter at h
    unfold Text.isLetterOrNumber
    split at h
    · rename_i hlow
      simp [hlow, Char.isAlphanum, h]
    · rename_i hlow
      simp [hlow, h]
  simp [isNameChar, hc]

theorem qualifiedText_spec (rest : List Char) :
    qualifiedText rest <+: rest ∧ (∀ c ∈ (qualifiedText rest).head?, c = ':') ∧
      ∀ after, Breaks after → qualifiedText (qualifiedText rest ++ after) = qualifiedText rest := by
  have hnone {after : List Char} (ha : Breaks after) : qualifiedText after = [] := by
    rcases ha.eq with rfl | ⟨_, rfl⟩ <;> rfl
  have hqualified : qualifiedText rest = [] ∨
      ∃ c more, rest = ':' :: c :: more ∧ Text.isLetter c = true := by
    unfold qualifiedText
    split
    · rename_i c more
      by_cases hc : Text.isLetter c = true
      · exact .inr ⟨c, more, rfl, hc⟩
      · exact .inl (if_neg hc)
    · exact .inl rfl
  rcases hqualified with h | ⟨c, more, rfl, hc⟩
  · rw [h]
    exact ⟨List.nil_prefix, by simp, fun after ha => hnone ha⟩
  · have hname : isNameChar c = true := isNameChar_of_isLetter hc
    have htext (more : List Char) : qualifiedText (':' :: c :: more) = ':' :: c :: more.takeWhile isNameChar := by
      simp [qualifiedText, hc, hname]
    rw [htext]
    refine ⟨?_, by simp, fun after ha => ?_⟩
    · simpa using List.takeWhile_prefix isNameChar
    · rw [List.cons_append, List.cons_append, htext, takeWhile_again (ha.stopsAt (by decide))]

theorem settled_identifier (h : scanIdentifier rest = .ok (kind, n)) : Settled scanIdentifier n rest := by
  obtain ⟨⟨tail, ht⟩, hcolon, hagain⟩ := qualifiedText_spec (rest.dropWhile isNameChar)
  simp only [scanIdentifier, drop_length_takeWhile] at h
  cases h
  refine .of_append (rest.takeWhile isNameChar ++ qualifiedText (rest.dropWhile isNameChar)) tail ?_ (by simp)
    fun after ha => ?_
  · rw [List.append_assoc, ht, List.takeWhile_append_dropWhile]
  · have hstop : StopsAt isNameChar (qualifiedText (rest.dropWhile isNameChar) ++ after) := by
      intro c hc
      cases hq : qualifiedText (rest.dropWhile isNameChar) with
      | nil =>
        rw [hq, List.nil_append] at hc
        exact ha.stopsAt (by decide) c hc
      | cons d text =>
        rw [hq] at hc hcolon
        obtain rfl := hcolon c (by simpa using hc)
        decide
    simp only [scanIdentifier, drop_length_takeWhile, List.append_assoc, takeWhile_again hstop, List.drop_left,
      hagain after ha]

/-- A token of one character that a line break leaves as it is. -/
theorem settled_single {read : List Char → Scanned} (h : read rest = .ok (kind, 0)) (hend : read [] = .ok (kind, 0))
    (hline : ∀ more, read ('\n' :: more) = .ok (kind, 0)) : Settled read 0 rest := by
  refine ⟨Nat.zero_le _, fun {after} ha => ?_⟩
  rw [h]
  rcases ha.eq with rfl | ⟨more, rfl⟩
  · exact hend
  · exact hline more

theorem settled_augmented {plain augmented : Kind} (h : scanAugmented plain augmented rest = .ok (kind, n)) :
    Settled (scanAugmented plain augmented) n rest := by
  have hscan := h
  unfold scanAugmented at h
  split at h
  · rename_i tail
    cases h
    exact .of_append ['<', '<'] tail rfl rfl fun after _ => rfl
  · cases h
    exact settled_single hscan rfl fun _ => rfl

theorem settled_token (h : scanToken first rest = .ok (kind, n)) : Settled (scanToken first) n rest := by
  have hscan := h
  unfold scanToken at h
  split at h
  case h_1 => exact settled_string h
  case h_2 => exact settled_symbol h
  case h_3 => exact settled_character h
  case h_4 => exact settled_keyword h
  case h_17 =>
    split at h <;> cases h
    · exact .of_append ['<'] _ rfl rfl fun _ _ => rfl
    · exact .of_append ['='] _ rfl rfl fun _ _ => rfl
    · exact .of_append ['>'] _ rfl rfl fun _ _ => rfl
    · exact settled_single hscan rfl fun _ => rfl
  case h_18 =>
    split at h <;> cases h
    · exact .of_append ['>'] _ rfl rfl fun _ _ => rfl
    · exact .of_append ['='] _ rfl rfl fun _ _ => rfl
    · exact settled_single hscan rfl fun _ => rfl
  case h_19 =>
    split at h <;> cases h
    · exact .of_append ['='] _ rfl rfl fun _ _ => rfl
    · exact settled_single hscan rfl fun _ => rfl
  case h_20 =>
    split at h <;> cases h
    exact .of_append ['<', '<'] _ rfl rfl fun _ _ => rfl
  case h_21 => exact settled_augmented h
  case h_22 => exact settled_augmented h
  case h_23 => exact settled_augmented h
  case h_24 =>
    split at h
    · cases h
      exact .of_append ['*'] _ rfl rfl fun _ _ => rfl
    · unfold scanAugmented at h
      split at h <;> cases h
      · exact .of_append ['<', '<'] _ rfl rfl fun _ _ => rfl
      · exact settled_single hscan rfl fun _ => rfl
  case h_25 =>
    have hother (text : List Char) : scanToken first text =
        if first.isDigit then scanNumber first text
        else if Text.isLetter first || first = '!' then scanIdentifier text
        else .error (.unexpectedCharacter first) := by
      rw [scanToken] <;> assumption
    rw [hother] at hscan
    split at hscan
    · rename_i hdigit
      have he : scanToken first = scanNumber first := funext fun text => by rw [hother, if_pos hdigit]
      exact he ▸ settled_number hscan
    split at hscan
    · rename_i hdigit hletter
      have he : scanToken first = scanIdentifier := funext fun text => by rw [hother, if_neg hdigit, if_pos hletter]
      exact he ▸ settled_identifier hscan
    · cases hscan
  all_goals
    cases h
    exact settled_single hscan rfl fun _ => rfl

/-! ## The whole text -/

/-- The token is read from its own text wherever a line breaks after it, up to its place. -/
def ReadsAlone (t : Token) : Prop :=
  ∀ place after, Breaks after →
    scanFrom place (t.lexeme.toList ++ after) =
      (scanFrom (place.after t.lexeme.toList) after).map (⟨t.kind, t.lexeme, place.line, place.column⟩ :: ·)

theorem readsAlone_docComment {words : List Char} (hmark : words.head? = some '#')
    (hline : ∀ c ∈ words, isLineEnd c = false) :
    ReadsAlone ⟨.docComment (commentText ('#' :: words)), String.ofList ('#' :: words), line, column⟩ := by
  intro place after ha
  have hwords : ∀ c ∈ words, (!isLineEnd c) = true := by simpa using hline
  have hstop : StopsAt (fun c => !isLineEnd c) after := ha.stopsAt (by decide)
  have hhead : (words ++ after).head? = some '#' := by
    rw [List.head?_append, hmark]
    rfl
  simp only [String.toList_ofList, List.cons_append]
  rw [scanFrom, if_neg (by decide), if_pos rfl]
  simp only [takeWhile_append_stop hwords hstop, dropWhile_append_stop hwords hstop, hhead, if_true]

theorem readsAlone_token (hgap : isGap c ≠ true) (hmark : c ≠ '#') (h : scanToken c rest = .ok (kind, n)) :
    ReadsAlone ⟨kind, String.ofList (c :: rest.take n), line, column⟩ := by
  intro place after ha
  have hsettled := settled_token h
  have hlen : (rest.take n).length = n := by simp [hsettled.le]
  have hagain : scanToken c (rest.take n ++ after) = .ok (kind, n) := by rw [hsettled.again ha, h]
  simp only [String.toList_ofList, List.cons_append]
  rw [scanFrom, if_neg hgap, if_neg hmark]
  simp only [hagain]
  rw [List.take_left' hlen, List.drop_left' hlen]

theorem readsAlone_of_scanned {t : Token} (h : Grammar.Scanned t) : ReadsAlone t := by
  cases h with
  | docComment hmark hline => exact readsAlone_docComment hmark hline
  | other hgap hmark h => exact readsAlone_token hgap hmark h

/-- What a token is, its place aside. -/
def content (t : Token) : Kind × String := (t.kind, t.lexeme)

/-- The text is divided into tokens like these, at other places. -/
def DividesInto (text : String) (tokens : List Token) : Prop :=
  ∃ tokens', scan text = .ok tokens' ∧ tokens'.map content = tokens.map content

theorem scanFrom_nil (place : Position) : scanFrom place [] = .ok [⟨.endOfFile, "", place.line, place.column⟩] := by
  rw [scanFrom]

theorem scanFrom_lineFeed (place : Position) (text : List Char) :
    scanFrom place ('\n' :: text) = scanFrom (place.advance '\n') text := by
  rw [scanFrom, if_pos (by decide)]

/-- Texts that read alone, one on each line, with an empty line at the end or without one. -/
theorem scanFrom_onLines {ts : List Token} {extra : List (List Char)} (hextra : extra = [] ∨ extra = [[]])
    (h : ∀ t ∈ ts, ReadsAlone t) (place : Position) :
    ∃ tokens, scanFrom place (['\n'].intercalate (ts.map (·.lexeme.toList) ++ extra)) = .ok tokens ∧
      tokens.map content = ts.map content ++ [(.endOfFile, "")] := by
  induction ts generalizing place with
  | nil =>
    refine ⟨[⟨.endOfFile, "", place.line, place.column⟩], ?_, rfl⟩
    rcases hextra with rfl | rfl <;> exact scanFrom_nil place
  | cons t ts ih =>
    have ht := h t (by simp)
    by_cases hlast : ts.map (·.lexeme.toList) ++ extra = []
    · obtain ⟨hts, rfl⟩ := List.append_eq_nil_iff.mp hlast
      obtain rfl := List.map_eq_nil_iff.mp hts
      have halone := ht place [] nofun
      rw [scanFrom_nil, List.append_nil] at halone
      exact ⟨_, by simpa [Except.map] using halone, rfl⟩
    · have halone := ht place ('\n' :: ['\n'].intercalate (ts.map (·.lexeme.toList) ++ extra)) (by simp [Breaks])
      obtain ⟨tokens, hscan, hcontent⟩ := ih (fun u hu => h u (.tail _ hu))
        ((place.after t.lexeme.toList).advance '\n')
      rw [scanFrom_lineFeed, hscan] at halone
      refine ⟨⟨t.kind, t.lexeme, place.line, place.column⟩ :: tokens, ?_, by simp [hcontent, content]⟩
      rw [List.map_cons, List.cons_append, List.intercalate_cons_of_ne_nil hlast, List.append_assoc]
      exact halone

/-- Put on lines of their own, the texts of a source's tokens are divided into the same
    tokens, whether a line is left for the end of the file or not. -/
theorem scan_onLines {source : String} {tokens : List Token} (h : scan source = .ok tokens) :
    DividesInto ("\n".intercalate (tokens.map Token.lexeme)) tokens ∧
      DividesInto ("\n".intercalate (tokens.dropLast.map Token.lexeme)) tokens := by
  obtain ⟨ts, line, column, rfl, hscanned⟩ := Grammar.scanned_of_scanFrom h
  have hts : ∀ t ∈ ts, ReadsAlone t := fun t ht => readsAlone_of_scanned (hscanned t ht)
  constructor
  · obtain ⟨tokens', hscan, hcontent⟩ := scanFrom_onLines (Or.inr rfl) hts .start
    refine ⟨tokens', ?_, by simpa [content] using hcontent⟩
    rw [scan, String.toList_intercalate]
    simpa [Function.comp_def] using hscan
  · obtain ⟨tokens', hscan, hcontent⟩ := scanFrom_onLines (Or.inl rfl) hts .start
    refine ⟨tokens', ?_, by simpa [content] using hcontent⟩
    rw [scan, String.toList_intercalate]
    simpa [Function.comp_def] using hscan

/-- Each token ends where only the next character says so, and the last is a doc comment. -/
def crowdedSource : String := "p:q%a_is 16rFF.e1 1.5e+3:|x y|z<<-#c\n##d"

def crowdedTexts : List String := ["p:q", "%a", "_is", "16rFF", ".", "e1", "1.5e+3", ":|x y|z", "<<", "-", "##d", ""]

theorem scan_onLines_crowdedSource :
    ∃ tokens, scan crowdedSource = .ok tokens ∧ tokens.map Token.lexeme = crowdedTexts ∧
      DividesInto ("\n".intercalate crowdedTexts) tokens ∧
      DividesInto ("\n".intercalate (tokens.dropLast.map Token.lexeme)) tokens := by
  have htexts : ((scan crowdedSource).toOption.map fun tokens => tokens.map Token.lexeme) = some crowdedTexts := by
    decide +kernel
  cases hscan : scan crowdedSource with
  | error problem => simp [hscan, Except.toOption] at htexts
  | ok tokens =>
    have hlexemes : tokens.map Token.lexeme = crowdedTexts := by simpa [hscan, Except.toOption] using htexts
    exact ⟨tokens, rfl, hlexemes, hlexemes ▸ scan_onLines hscan⟩

end Magik.Token
