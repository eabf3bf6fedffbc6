/-
  Magik.Proofs.Types.Spelling — the texts of types are read back.

  What is read with a default package is written so that it needs none: a type shows its
  package, starts and ends with characters that are seen, and holds no separator of the lists
  around it (`TypeName.Legible`). Joining such texts and dividing them again gives the same
  pieces, so sets and results read back as they are, their order included.
-/

import Magik.Proofs.Types.Closed
import Mathlib.Data.List.Basic

namespace Magik

/-! ## Texts -/

namespace Text

/-- Neither the first nor the last character is blank, and there are some. -/
structure Solid (cs : List Char) : Prop where
  first : ∃ c, cs.head? = some c ∧ isBlank c = false
  last : ∃ c, cs.getLast? = some c ∧ isBlank c = false

variable {a b cs : List Char} {separator c : Char} {ps : List (List Char)}

/-- Trimming leaves the first character of a text that starts with none of the blanks. -/
theorem head?_trim (h : isBlank c = false) : (trim (c :: cs)).head? = some c := by
  have hstart : trimStart (c :: cs) = c :: cs := by simp [trimStart, h]
  rw [trim, hstart, trimEnd, List.reverse_cons, List.head?_reverse, List.dropWhile_append]
  split <;> simp [h]

theorem solid_trim (h : trim cs ≠ []) : Solid (trim cs) := by
  have hlast := List.head?_dropWhile_not isBlank (trimStart cs).reverse
  have hfirst := List.head?_dropWhile_not isBlank cs
  have hl : (trim cs).getLast? = ((trimStart cs).reverse.dropWhile isBlank).head? := by simp [trim, trimEnd]
  refine ⟨?_, ?_⟩
  · cases hs : trimStart cs with
    | nil => simp [trim, hs, trimEnd] at h
    | cons c rest =>
      have hc : isBlank c = false := by
        rw [show cs.dropWhile isBlank = c :: rest from hs] at hfirst
        simpa using hfirst
      have hagain : trim cs = trim (c :: rest) := by
        have hsame : trimStart (c :: rest) = c :: rest := by simp [trimStart, hc]
        rw [trim, trim, hs, hsame]
      exact ⟨c, hagain ▸ head?_trim hc, hc⟩
  · cases hr : ((trimStart cs).reverse.dropWhile isBlank).head? with
    | none => exact absurd (List.getLast?_eq_none_iff.mp (hl.trans hr)) h
    | some c =>
      rw [hr] at hlast
      exact ⟨c, hl.trans hr, hlast⟩

theorem mem_of_mem_trim (h : c ∈ trim cs) : c ∈ cs := by
  have h : c ∈ (trimStart cs).reverse.dropWhile isBlank := by simpa [trim, trimEnd] using h
  have h : c ∈ trimStart cs := by simpa using (List.dropWhile_suffix _).subset h
  exact (List.dropWhile_suffix _).subset h

namespace Solid

theorem ne_nil (h : Solid cs) : cs ≠ [] := by
  rintro rfl
  obtain ⟨c, hc, -⟩ := h.first
  cases hc

theorem trim_eq (h : Solid cs) : trim cs = cs := by
  have hstart : trimStart cs = cs := by
    obtain ⟨c, hc, hb⟩ := h.first
    obtain ⟨rest, rfl⟩ := List.head?_eq_some_iff.mp hc
    simp [trimStart, hb]
  obtain ⟨c, hc, hb⟩ := h.last
  obtain ⟨front, rfl⟩ := List.getLast?_eq_some_iff.mp hc
  rw [trim, hstart, trimEnd]
  simp [hb]

theorem append (ha : Solid a) (hb : Solid b) (between : List Char) : Solid (a ++ between ++ b) := by
  obtain ⟨c, hc, hcb⟩ := ha.first
  obtain ⟨d, hd, hdb⟩ := hb.last
  exact ⟨⟨c, by simp [hc], hcb⟩, ⟨d, by simp [List.getLast?_append, hd], hdb⟩⟩

theorem intercalate {ps : List (List Char)} (hne : ps ≠ []) (h : ∀ p ∈ ps, Solid p) (between : List Char) :
    Solid (between.intercalate ps) := by
  induction ps with
  | nil => exact absurd rfl hne
  | cons p ps ih =>
    have hall := List.forall_mem_cons.mp h
    cases ps with
    | nil => simpa using hall.1
    | cons q ps =>
      rw [List.intercalate_cons_cons]
      exact hall.1.append (ih (by simp) hall.2) between

end Solid

theorem pieces_append (h : separator ∉ a) : pieces separator (a ++ separator :: b) = a :: pieces separator b := by
  induction a with
  | nil => simp [pieces]
  | cons c a ih =>
    rw [List.mem_cons, not_or] at h
    simp [pieces, Ne.symm h.1, ih h.2]

theorem pieces_of_not_mem (h : separator ∉ a) : pieces separator a = [a] := by
  induction a with
  | nil => rfl
  | cons c a ih =>
    rw [List.mem_cons, not_or] at h
    simp [pieces, Ne.symm h.1, ih h.2]

theorem pieces_intercalate (hne : ps ≠ []) (h : ∀ p ∈ ps, separator ∉ p) :
    pieces separator ([separator].intercalate ps) = ps := by
  induction ps with
  | nil => exact absurd rfl hne
  | cons p ps ih =>
    have hall := List.forall_mem_cons.mp h
    cases ps with
    | nil => simpa using pieces_of_not_mem hall.1
    | cons q ps =>
      rw [List.intercalate_cons_cons, List.append_assoc, List.singleton_append, pieces_append hall.1,
        ih (by simp) hall.2]

theorem mem_pieces {p : List Char} (h : p ∈ pieces separator cs) : separator ∉ p ∧ ∀ c ∈ p, c ∈ cs := by
  induction cs generalizing p with
  | nil =>
    rw [List.mem_singleton.mp h]
    simp
  | cons d cs ih =>
    rw [pieces] at h
    split at h
    · rcases List.mem_cons.mp h with rfl | h
      · simp
      · exact ⟨(ih h).1, fun c hc => .tail _ ((ih h).2 c hc)⟩
    · rename_i hd
      obtain ⟨q, qs, hq⟩ := List.exists_cons_of_ne_nil (pieces_ne_nil separator cs)
      rw [hq] at h ih
      rcases List.mem_cons.mp h with rfl | h
      · have hq := ih (.head _)
        refine ⟨fun hm => ?_, fun c hc => ?_⟩
        · exact (List.mem_cons.mp hm).elim (fun he => hd he.symm) hq.1
        · exact (List.mem_cons.mp hc).elim (· ▸ (.head _)) fun hc => .tail _ (hq.2 c hc)
      · have hp := ih (.tail _ h)
        exact ⟨hp.1, fun c hc => .tail _ (hp.2 c hc)⟩

theorem mem_intercalate {between : List Char} (h : c ∈ between.intercalate ps) : c ∈ between ∨ ∃ p ∈ ps, c ∈ p := by
  induction ps with
  | nil => simp at h
  | cons p ps ih =>
    cases ps with
    | nil => exact .inr ⟨p, by simp, by simpa using h⟩
    | cons q ps =>
      rw [List.intercalate_cons_cons, List.mem_append, List.mem_append] at h
      rcases h with (h | h) | h
      · exact .inr ⟨p, by simp, h⟩
      · exact .inl h
      · exact (ih h).imp id fun ⟨r, hr, hc⟩ => ⟨r, .tail _ hr, hc⟩

/-- A blank behind each separator is one in front of what follows. -/
theorem intercalate_blank (p : List Char) (ps : List (List Char)) :
    [separator, ' '].intercalate (p :: ps) = [separator].intercalate (p :: ps.map (' ' :: ·)) := by
  induction ps generalizing p with
  | nil => rfl
  | cons q ps ih =>
    rw [List.intercalate_cons_cons, ih, List.map_cons, List.intercalate_cons_cons]
    cases ps <;> simp

theorem splitFirst_append (h : separator ∉ a) : splitFirst separator (a ++ separator :: b) = some (a, b) := by
  induction a with
  | nil => simp [splitFirst]
  | cons c a ih =>
    rw [List.mem_cons, not_or] at h
    simp [splitFirst, Ne.symm h.1, ih h.2]

theorem eq_of_splitFirst (h : splitFirst separator cs = some (a, b)) : cs = a ++ separator :: b ∧ separator ∉ a := by
  induction cs generalizing a with
  | nil => cases h
  | cons c cs ih =>
    rw [splitFirst] at h
    split at h
    · rename_i hc
      cases h
      simp [hc]
    · rename_i hc
      obtain ⟨⟨a', b'⟩, hp, hab⟩ := Option.map_eq_some_iff.mp h
      cases hab
      obtain ⟨rfl, ha⟩ := ih hp
      exact ⟨rfl, by simp [ha, Ne.symm hc]⟩

end Text

/-! ## Types -/

namespace TypeName

variable {cs : List Char}

open Text (Solid)

/-- The text of the type is seen as a whole, and is read back whatever the default package. -/
structure Legible (t : TypeName) : Prop where
  solid : Solid t.text.toList
  read (defaultPackage : Option String) : ofChars defaultPackage t.text.toList = t

/-- What may stand in front of a name as its package. -/
structure IsPackage (p : String) : Prop where
  solid : Solid p.toList
  separators : ':' ∉ p.toList ∧ '|' ∉ p.toList ∧ ',' ∉ p.toList

theorem legible_undefined : undefined.Legible :=
  ⟨⟨⟨'_', by decide, by decide⟩, ⟨'d', by decide, by decide⟩⟩, fun _ => rfl⟩

theorem legible_receiver : receiver.Legible :=
  ⟨⟨⟨'_', by decide, by decide⟩, ⟨'f', by decide, by decide⟩⟩, fun _ => rfl⟩

/-- A text with a colon inside is read as a package and a name. -/
theorem legible_named {package name : String} (hs : Solid (package.toList ++ ':' :: name.toList))
    (hcolon : ':' ∉ package.toList) (hp : package.toList ≠ []) (hn : name.toList ≠ []) :
    (named (some package) name).Legible := by
  have htext : (named (some package) name).text.toList = package.toList ++ ':' :: name.toList := by
    simp [text, String.toList_append]
  refine ⟨htext ▸ hs, fun d => ?_⟩
  have hword (word : String) (hw : ':' ∉ word.toList) : ¬ package.toList ++ ':' :: name.toList = word.toList := fun h =>
    hw (h ▸ by simp)
  rw [htext, ofChars, hs.trim_eq]
  simp only [hs.ne_nil, hword "_undefined" (by decide), hword "_self" (by decide), hword "_clone" (by decide), or_self,
    if_false, Text.splitFirst_append hcolon]
  cases hpl : package.toList with
  | nil => exact absurd hpl hp
  | cons p ps =>
    cases hnl : name.toList with
    | nil => exact absurd hnl hn
    | cons n ns => simp [← hpl, ← hnl]

/-- The characters that texts have beside those that were read. -/
def ownCharacters : List Char := ":_undefined_self".toList

theorem mem_ownCharacters (h : cs.all ownCharacters.contains = true) {c : Char} (hc : c ∈ cs) : c ∈ ownCharacters := by
  simpa using List.all_eq_true.mp h c hc

/-- Whatever is read is legible, and its text has no characters from elsewhere. -/
theorem legible_ofChars {p : String} (hp : IsPackage p) (h : Text.trim cs ≠ []) :
    (ofChars (some p) cs).Legible ∧
      ∀ c ∈ (ofChars (some p) cs).text.toList, c ∈ p.toList ∨ c ∈ cs ∨ c ∈ ownCharacters := by
  have hs := Text.solid_trim h
  unfold ofChars
  dsimp only
  split
  · exact ⟨legible_undefined, fun c hc => .inr (.inr (mem_ownCharacters (by decide) hc))⟩
  split
  · exact ⟨legible_receiver, fun c hc => .inr (.inr (mem_ownCharacters (by decide) hc))⟩
  split
  · rename_i q package n name hsplit
    obtain ⟨htext, hcolon⟩ := Text.eq_of_splitFirst hsplit
    refine ⟨legible_named (by simpa [htext] using hs) (by simpa using hcolon) (by simp) (by simp), fun c hc => ?_⟩
    exact .inr (.inl (Text.mem_of_mem_trim (by simpa [text, htext] using hc)))
  · have hsolid : Solid (p.toList ++ ':' :: Text.trim cs) := by simpa using hp.solid.append hs [':']
    refine ⟨legible_named (by simpa using hsolid) hp.separators.1 hp.solid.ne_nil (by simpa using h), fun c hc => ?_⟩
    have hc : c ∈ p.toList ∨ c = ':' ∨ c ∈ Text.trim cs := by simpa [text] using hc
    rcases hc with hc | rfl | hc
    · exact .inl hc
    · exact .inr (.inr (by decide))
    · exact .inr (.inl (Text.mem_of_mem_trim hc))

end TypeName

/-! ## Sets -/

namespace TypeSet

open Text (Solid)

variable {s : TypeSet}

/-- All members are legible, and none has a separator of sets in its text. -/
structure Legible (s : TypeSet) : Prop where
  wellFormed : s.WellFormed
  members : ∀ t ∈ s.members, t.Legible ∧ '|' ∉ t.text.toList

theorem toList_text (s : TypeSet) : s.text.toList = ['|'].intercalate (s.members.map fun t => t.text.toList) := by
  simp [text, String.toList_intercalate, Function.comp_def]

theorem Legible.solid (h : s.Legible) : Solid s.text.toList := by
  rw [toList_text]
  refine Solid.intercalate (by simpa using h.wellFormed.nonempty) (fun p hp => ?_) _
  obtain ⟨t, ht, rfl⟩ := List.mem_map.mp hp
  exact (h.members t ht).1.solid

/-- A blank in front of a text makes no difference. -/
theorem ofChars_blank (defaultPackage : Option String) (cs : List Char) :
    ofChars defaultPackage (' ' :: cs) = ofChars defaultPackage cs := by
  have htrim (p : List Char) : Text.trim (' ' :: p) = Text.trim p := rfl
  obtain ⟨p, ps, hp⟩ := List.exists_cons_of_ne_nil (Text.pieces_ne_nil '|' cs)
  have hpieces : Text.pieces '|' (' ' :: cs) = (' ' :: p) :: ps := by simp [Text.pieces, hp]
  have hname : TypeName.ofChars defaultPackage (' ' :: p) = TypeName.ofChars defaultPackage p := by
    simp only [TypeName.ofChars, htrim]
  simp only [ofChars, hpieces, hp, List.filter_cons, htrim]
  split <;> simp [hname]

theorem Legible.read (h : s.Legible) (defaultPackage : Option String) : ofChars defaultPackage s.text.toList = s := by
  have hpieces : Text.pieces '|' s.text.toList = s.members.map fun t => t.text.toList := by
    rw [toList_text]
    refine Text.pieces_intercalate (by simpa using h.wellFormed.nonempty) fun p hp => ?_
    obtain ⟨t, ht, rfl⟩ := List.mem_map.mp hp
    exact (h.members t ht).2
  have hseen : ∀ p ∈ s.members.map fun t => t.text.toList, decide (Text.trim p ≠ []) = true := by
    intro p hp
    obtain ⟨t, ht, rfl⟩ := List.mem_map.mp hp
    have hsolid := (h.members t ht).1.solid
    simpa [hsolid.trim_eq] using hsolid.ne_nil
  have hread : (s.members.map fun t => t.text.toList).map (TypeName.ofChars defaultPackage) = s.members := by
    rw [List.map_map]
    exact (List.map_congr_left fun t ht => (h.members t ht).1.read defaultPackage).trans (List.map_id _)
  rw [ofChars, hpieces, List.filter_eq_self.mpr hseen, hread, h.wellFormed.ofList_members]

/-- Whatever is read is legible. -/
theorem legible_ofChars {p : String} (hp : TypeName.IsPackage p) (cs : List Char) :
    (ofChars (some p) cs).Legible ∧ (',' ∉ cs → ',' ∉ (ofChars (some p) cs).text.toList) := by
  have hmember : ∀ t ∈ (ofChars (some p) cs).members, t.Legible ∧
      ∀ c ∈ t.text.toList, c ∈ p.toList ∨ (c ∈ cs ∧ c ≠ '|') ∨ c ∈ TypeName.ownCharacters := by
    intro t ht
    by_cases hu : t = .undefined
    · subst hu
      exact ⟨TypeName.legible_undefined, fun c hc => .inr (.inr (TypeName.mem_ownCharacters (by decide) hc))⟩
    · have hknown : (ofChars (some p) cs).isUndefined = false := by
        by_contra hundefined
        have hwell : (ofChars (some p) cs).WellFormed := wellFormed_ofList _
        rw [hwell.alone (isUndefined_iff.mp (by simpa using hundefined))] at ht
        exact hu (List.mem_singleton.mp ht)
      obtain ⟨part, hpart, rfl⟩ := List.mem_map.mp ((mem_ofList hknown).mp ht)
      obtain ⟨hpart, hseen⟩ := List.mem_filter.mp hpart
      obtain ⟨hbar, hin⟩ := Text.mem_pieces hpart
      obtain ⟨hl, hc⟩ := TypeName.legible_ofChars hp (by simpa using hseen)
      refine ⟨hl, fun c hm => (hc c hm).imp id (Or.imp (fun hm => ⟨hin c hm, ?_⟩) id)⟩
      rintro rfl
      exact hbar hm
  refine ⟨⟨wellFormed_ofList _, fun t ht => ⟨(hmember t ht).1, fun hbar => ?_⟩⟩, fun hcomma hm => ?_⟩
  · rcases (hmember t ht).2 _ hbar with h | h | h
    · exact hp.separators.2.1 h
    · exact h.2 rfl
    · exact absurd h (by decide)
  · rw [toList_text] at hm
    rcases Text.mem_intercalate hm with hm | ⟨q, hq, hm⟩
    · exact absurd hm (by decide)
    · obtain ⟨t, ht, rfl⟩ := List.mem_map.mp hq
      rcases (hmember t ht).2 _ hm with h | h | h
      · exact hp.separators.2.2 h
      · exact hcomma h.1
      · exact absurd h (by decide)

end TypeSet

/-! ## Results -/

namespace Results

/-- Slots that are legible and without commas are read back. -/
theorem parse_text_slots {types : List TypeSet} (hne : types ≠ []) (h : ∀ s ∈ types, s.Legible ∧ ',' ∉ s.text.toList)
    (defaultPackage : Option String) : parse (slots types).text defaultPackage = .slots types := by
  obtain ⟨s, ss, rfl⟩ := List.exists_cons_of_ne_nil hne
  have htext : (slots (s :: ss)).text.toList =
      [',', ' '].intercalate (s.text.toList :: ss.map fun u => u.text.toList) := by
    simp [text, String.toList_intercalate, Function.comp_def]
  have hpieces : Text.pieces ',' (slots (s :: ss)).text.toList =
      s.text.toList :: ss.map fun u => ' ' :: u.text.toList := by
    rw [htext, Text.intercalate_blank, List.map_map]
    refine Text.pieces_intercalate (by simp) fun p hp => ?_
    rcases List.mem_cons.mp hp with rfl | hp
    · exact (h s (by simp)).2
    · obtain ⟨u, hu, rfl⟩ := List.mem_map.mp hp
      simpa using (h u (.tail _ hu)).2
  have hread (d : Option String) : (Text.pieces ',' (slots (s :: ss)).text.toList).map (TypeSet.ofChars d) = s :: ss := by
    rw [hpieces, List.map_cons, (h s (by simp)).1.read, List.map_map]
    refine congrArg (s :: ·) ((List.map_congr_left fun u hu => ?_).trans (List.map_id _))
    exact (TypeSet.ofChars_blank d _).trans ((h u (.tail _ hu)).1.read d)
  have hsolid : Text.Solid (slots (s :: ss)).text.toList := by
    rw [htext]
    refine Text.Solid.intercalate (by simp) (fun p hp => ?_) _
    rcases List.mem_cons.mp hp with rfl | hp
    · exact (h s (by simp)).1.solid
    · obtain ⟨u, hu, rfl⟩ := List.mem_map.mp hp
      exact (h u (.tail _ hu)).1.solid
  -- the word for the unknown result would be read differently with different packages
  have hword : ¬ (slots (s :: ss)).text.toList = "_undefined...".toList := by
    intro hw
    have hdiffer := (hread none).trans (hread (some "sw")).symm
    rw [hw] at hdiffer
    exact absurd hdiffer (by decide)
  rw [parse]
  simp only [hsolid.trim_eq, hsolid.ne_nil, hword, if_false, hread]

theorem parse_cases (text : String) (defaultPackage : Option String) :
    parse text defaultPackage = .nothing ∨ parse text defaultPackage = .unknown ∨
      parse text defaultPackage =
        .slots ((Text.pieces ',' (Text.trim text.toList)).map (TypeSet.ofChars defaultPackage)) := by
  unfold parse
  dsimp only
  split
  · exact .inl rfl
  split
  · exact .inr (.inl rfl)
  · exact .inr (.inr rfl)

/-- Texts of results and of sets are read back as what they were written from, whatever the text
    they came from, with another default package or none. -/
theorem text_read_back {package : String} (hp : TypeName.IsPackage package) (text : String)
    (defaultPackage : Option String) :
    parse (parse text (some package)).text defaultPackage = parse text (some package) ∧
      TypeSet.parse (TypeSet.parse text (some package)).text defaultPackage = TypeSet.parse text (some package) := by
  refine ⟨?_, (TypeSet.legible_ofChars hp text.toList).1.read defaultPackage⟩
  rcases parse_cases text (some package) with h | h | h <;> rw [h]
  · rfl
  · rfl
  · refine parse_text_slots (by simpa using Text.pieces_ne_nil _ _) (fun s hs => ?_) defaultPackage
    obtain ⟨cs, hcs, rfl⟩ := List.mem_map.mp hs
    obtain ⟨hl, hcomma⟩ := TypeSet.legible_ofChars hp cs
    exact ⟨hl, hcomma (Text.mem_pieces hcs).1⟩

/-- Stray colons, empty parts, blanks inside and the words for stand-ins. -/
theorem text_read_back_odd :
    let text := " :|a: b||_clone , _undefined...|sw:x ,,_self|_undefined"
    TypeName.IsPackage "user" ∧
      (parse text (some "user")).text = "user::|a: b|_self, user:_undefined...|sw:x, _undefined, _undefined" ∧
      parse (parse text (some "user")).text none = parse text (some "user") := by
  intro text
  have hp : TypeName.IsPackage "user" :=
    ⟨⟨⟨'u', by decide, by decide⟩, ⟨'r', by decide, by decide⟩⟩, by decide, by decide, by decide⟩
  exact ⟨hp, by decide +kernel, (text_read_back hp text none).1⟩

end Results

end Magik
