/-
  Magik.Proofs.Running.Story — what names are given, in the order of the text.

  A mark is what a node does that a call of a name depends on: a name is given something,
  a procedure is made, a name is called. `story` has the marks of a tree in the order of the
  text. In a formed tree no node has two of them (`nodup_story`), and where a name is given
  a procedure, that has just been made (`prepared_story`).
-/

import Mathlib.Data.List.Nodup
import Magik.Proofs.Syntax.Ways
import Magik.Reasoning.Reason

namespace Magik.Running

open Node (Way Formed Layout numbersAll)

/-! ## Marks -/

/-- What a name is given. -/
inductive Given where
  /-- A procedure, by the number of its definition. -/
  | procedure (number : Nat)
  | other
  /-- What the entry has that the name imports. -/
  | imported
  /-- No value: it was declared, and has what it had. -/
  | nothing
  deriving DecidableEq

namespace Given

def ofValue (n : Node) : Given := if World.isProcedure n then .procedure n.number else .other

/-- What declaring a name gives it. -/
def ofModifier : Modifier → Given
  | .imported => .imported
  | .global | .dynamic => .nothing
  | .localVariable | .constant | .recursive => .other

end Given

inductive Mark where
  | given (name entry : Nat) (what : Given)
  | made (procedure : Nat)
  | called (call entry : Nat)
  deriving DecidableEq

namespace Mark

/-- The node that a mark is of. -/
def node : Mark → Nat
  | .given name _ _ => name
  | .made procedure => procedure
  | .called call _ => call

end Mark

variable (t : ScopeTree)

def gives (name : Nat) (what : Given) : List Mark := ((t.entryOf? name).map fun entry => .given name entry what).toList

/-- The entry of the name that a call calls. -/
def calleeOf? (n : Node) : Option Nat :=
  match n.children.head? with
  | some ⟨name, .identifier _, _, _⟩ => t.entryOf? name
  | _ => none

/-- What a node does after its parts. -/
def own (n : Node) : List Mark :=
  match n.kind with
  | .assignment => n.children.dropLast.flatMap fun v => gives t v.number ((n.children.getLast?.map .ofValue).getD .other)
  | .augmentedAssignment _ | .multipleAssignment | .declaration _ true =>
    n.children.dropLast.flatMap fun v => gives t v.number .other
  | .call => ((calleeOf? t n).map (.called n.number)).toList
  | .procedure .. => [.made n.number]
  | _ => []

/-- What declaring a variable does after its value. -/
def ofVariable (modifier : Modifier) (v : Node) : List Mark :=
  gives t v.number ((v.children.head?.map .ofValue).getD (.ofModifier modifier))

mutual

/-- The marks of a node in the order of the text. -/
def story : Node → List Mark
  | ⟨number, kind, span, children⟩ =>
    match kind with
    | .declaration modifier false => storyDeclared modifier children
    | kind => storyEach children ++ own t ⟨number, kind, span, children⟩

def storyEach : List Node → List Mark
  | [] => []
  | n :: ns => story n ++ storyEach ns

/-- The marks of declared variables. -/
def storyDeclared (modifier : Modifier) : List Node → List Mark
  | [] => []
  | ⟨number, kind, span, children⟩ :: vs =>
    storyEach children ++ ofVariable t modifier ⟨number, kind, span, children⟩ ++ storyDeclared modifier vs

end

section Story

variable {t} {n m c : Node} {ns vs as : List Node} {modifier : Modifier}

@[simp] theorem storyEach_nil : storyEach t [] = [] := by rw [storyEach]

@[simp] theorem storyEach_cons : storyEach t (n :: ns) = story t n ++ storyEach t ns := by rw [storyEach]

@[simp] theorem storyEach_append (as bs : List Node) : storyEach t (as ++ bs) = storyEach t as ++ storyEach t bs := by
  induction as with
  | nil => simp
  | cons a as ih => simp [ih]

@[simp] theorem storyDeclared_nil : storyDeclared t modifier [] = [] := by rw [storyDeclared]

@[simp] theorem storyDeclared_cons (v : Node) :
    storyDeclared t modifier (v :: vs) =
      storyEach t v.children ++ ofVariable t modifier v ++ storyDeclared t modifier vs := by
  cases v
  rw [storyDeclared]

theorem story_declaration (h : n.kind = .declaration modifier false) :
    story t n = storyDeclared t modifier n.children := by
  obtain ⟨number, kind, span, children⟩ := n
  dsimp only at h
  subst h
  rw [story]

theorem story_eq (h : ∀ modifier, n.kind ≠ .declaration modifier false) :
    story t n = storyEach t n.children ++ own t n := by
  obtain ⟨number, kind, span, children⟩ := n
  rw [story]
  simpa using h

theorem story_plain (hk : ∀ modifier, n.kind ≠ .declaration modifier false) (ho : own t n = []) :
    story t n = storyEach t n.children := by
  rw [story_eq hk, ho, List.append_nil]

theorem storyEach_eq_nil (h : ∀ v ∈ vs, story t v = []) : storyEach t vs = [] := by
  induction vs with
  | nil => exact storyEach_nil
  | cons v vs ih => rw [storyEach_cons, h v (by simp), ih fun u hu => h u (List.mem_cons_of_mem _ hu), List.append_nil]

/-- Names that are given something have their marks after the value. -/
theorem story_named {value : Node} (hk : ∀ modifier, n.kind ≠ .declaration modifier false)
    (hc : n.children = vs ++ [value])
    (hs : ∀ v ∈ vs, story t v = []) : story t n = story t value ++ own t n := by
  rw [story_eq hk, hc, storyEach_append, storyEach_eq_nil hs, List.nil_append, storyEach_cons, storyEach_nil,
    List.append_nil]

theorem story_of_isLeaf (hf : n.Formed) (hk : n.kind.isLeaf) : story t n = [] := by
  have ho : own t n = [] := by
    unfold own
    cases hn : n.kind <;> simp_all [Node.Kind.isLeaf]
  have hd : ∀ modifier, n.kind ≠ .declaration modifier false := by
    rintro modifier hd
    simp [hd, Node.Kind.isLeaf] at hk
  rw [story_plain hd ho, hf.layout.eq_nil_of_isLeaf hk, storyEach_nil]

theorem story_of_declared {name : String} (hk : n.kind = .declared name) (hc : n.children = []) : story t n = [] := by
  rw [story_plain (by simp [hk]) (by rw [own, hk]), hc, storyEach_nil]

theorem story_of_parameterList (hf : n.Formed) (hk : n.kind = .parameterList) : story t n = [] := by
  have hl := hf.layout
  rw [hk] at hl
  rw [story_plain (by simp [hk]) (by rw [own, hk])]
  refine storyEach_eq_nil fun p hp => story_of_isLeaf (hf.child hp) ?_
  obtain ⟨name, mode, hpk⟩ := hl.parameters p hp
  rw [hpk]
  rfl

end Story

/-! ## Each mark once -/

section Marks

variable {t} {n m c root : Node} {ns vs as : List Node} {modifier : Modifier} {name entry procedure j : Nat} {what : Given}
  {mark : Mark}

theorem mem_gives (h : mark ∈ gives t name what) : ∃ entry, mark = .given name entry what := by
  obtain ⟨entry, -, rfl⟩ := by simpa [gives] using h
  exact ⟨entry, rfl⟩

theorem node_gives_sublist (name : Nat) (what : Given) : ((gives t name what).map Mark.node).Sublist [name] := by
  unfold gives
  cases t.entryOf? name with
  | none => exact List.nil_sublist _
  | some entry => exact .refl _

theorem count_storyEach_le (h : ∀ n ∈ ns, ((story t n).map Mark.node).count j ≤ n.numbers.count j) :
    ((storyEach t ns).map Mark.node).count j ≤ (numbersAll ns).count j := by
  induction ns with
  | nil => simp
  | cons n ns ih =>
    rw [storyEach_cons, Node.numbersAll_cons, List.map_append, List.count_append, List.count_append]
    exact Nat.add_le_add (h n (by simp)) (ih fun m hm => h m (.tail _ hm))

theorem count_gives_le (what : Given) :
    ((vs.flatMap fun v => gives t v.number what).map Mark.node).count j ≤ (numbersAll vs).count j := by
  induction vs with
  | nil => simp
  | cons v vs ih =>
    have hv := (node_gives_sublist (t := t) v.number what).count_le j
    rw [Node.numbersAll_cons, Node.numbers_eq]
    simp only [List.flatMap_cons, List.map_append, List.count_append, List.count_cons, List.count_nil,
      List.cons_append] at hv ih ⊢
    omega

theorem count_storyDeclared_le (h : ∀ v ∈ vs, ∀ c ∈ v.children, ((story t c).map Mark.node).count j ≤ c.numbers.count j) :
    ((storyDeclared t modifier vs).map Mark.node).count j ≤ (numbersAll vs).count j := by
  induction vs with
  | nil => simp
  | cons v vs ih =>
    have hvalue := count_storyEach_le (h v (by simp))
    have hvariable : ((ofVariable t modifier v).map Mark.node).Sublist [v.number] := node_gives_sublist _ _
    have hv := hvariable.count_le j
    have hvs := ih fun u hu => h u (.tail _ hu)
    rw [Node.numbersAll_cons, Node.numbers_eq]
    simp only [storyDeclared_cons, List.map_append, List.count_append, List.count_cons, List.count_nil,
      List.cons_append] at hvalue hv hvs ⊢
    omega

/-- The node itself has a mark, or none. -/
theorem count_story_le_of_own (h : ∀ c ∈ n.children, ((story t c).map Mark.node).count j ≤ c.numbers.count j)
    (hk : ∀ modifier, n.kind ≠ .declaration modifier false) (ho : ((own t n).map Mark.node).Sublist [n.number]) :
    ((story t n).map Mark.node).count j ≤ n.numbers.count j := by
  have hparts := count_storyEach_le h
  have hown := ho.count_le j
  rw [story_eq hk, Node.numbers_eq]
  simp only [List.map_append, List.count_append, List.count_cons, List.count_nil] at hown ⊢
  omega

/-- The names before its value have the marks. -/
theorem count_story_le_of_names {value : Node} (vs : List Node) (what : Given)
    (h : ((story t value).map Mark.node).count j ≤ value.numbers.count j)
    (hk : ∀ modifier, n.kind ≠ .declaration modifier false) (hc : n.children = vs ++ [value])
    (hs : ∀ v ∈ vs, story t v = []) (ho : own t n = vs.flatMap fun v => gives t v.number what) :
    ((story t n).map Mark.node).count j ≤ n.numbers.count j := by
  have hnames : ((own t n).map Mark.node).count j ≤ (numbersAll vs).count j := ho ▸ count_gives_le what
  rw [story_named hk hc hs, Node.numbers_eq, hc]
  simp only [Node.numbersAll_append, Node.numbersAll_cons, Node.numbersAll_nil, List.append_nil, List.map_append,
    List.count_append, List.count_cons] at hnames ⊢
  omega

/-- No node has more marks than it has numbers. -/
theorem count_story_le (hf : n.Formed) (j : Nat) : ((story t n).map Mark.node).count j ≤ n.numbers.count j := by
  refine hf.induction_below (P := fun n => ((story t n).map Mark.node).count j ≤ n.numbers.count j) fun {n} hf hd => ?_
  have hchild : ∀ c ∈ n.children, ((story t c).map Mark.node).count j ≤ c.numbers.count j := fun c hc => hd c hc c [] .root
  have hname {v : Node} (hv : v ∈ n.children) {name : String} (hvk : v.kind = .identifier name) : story t v = [] :=
    story_of_isLeaf (hf.child hv) (hvk ▸ rfl)
  have hl := hf.layout
  obtain ⟨number, kind, span, children⟩ := n
  dsimp only at hl hchild hname
  cases hl with
  | separate hne h =>
    rw [story_declaration rfl, Node.numbers_eq, List.count_cons]
    exact Nat.le_add_right_of_le (count_storyDeclared_le fun v hv c hc => hd v hv c _ (.child .root hc))
  | @shared modifier vars value hne h hv =>
    refine count_story_le_of_names vars .other (hchild value (by simp)) (by simp) rfl (fun v hv => ?_) (by simp [own])
    obtain ⟨⟨name, hvk⟩, hnil⟩ := h v hv
    exact story_of_declared hvk hnil
  | @multipleAssignment targets value hne h hv =>
    refine count_story_le_of_names targets .other (hchild value (by simp)) (by simp) rfl (fun v hv => ?_) (by simp [own])
    obtain ⟨name, hvk⟩ := h v hv
    exact hname (by simp [hv]) hvk
  | @assignment _ target value hk ht hv =>
    obtain ⟨name, htk⟩ := ht
    have htarget : ∀ v ∈ [target], story t v = [] := by simpa using hname (by simp) htk
    cases kind with
    | assignment =>
      exact count_story_le_of_names [target] (.ofValue value) (hchild value (by simp)) (by simp) rfl htarget
        (by simp [own])
    | augmentedAssignment operator =>
      exact count_story_le_of_names [target] .other (hchild value (by simp)) (by simp) rfl htarget (by simp [own])
    | _ => cases hk
  | definition hk =>
    refine count_story_le_of_own hchild (by rintro modifier rfl; cases hk) ?_
    cases kind <;> cases hk <;> simp [own, Mark.node]
  | applied hk =>
    refine count_story_le_of_own hchild (by rintro modifier rfl; cases hk) ?_
    cases kind with
    | invocation name => simp [own]
    | call =>
      simp only [own]
      cases calleeOf? t _ with
      | none => exact List.nil_sublist _
      | some entry => exact .refl _
    | _ => cases hk
  | leaf hk | values hk | valueAndBody hk | onlyBody hk =>
    refine count_story_le_of_own hchild (by rintro modifier rfl; cases hk) ?_
    cases kind <;> cases hk <;> simp [own]
  | _ => exact count_story_le_of_own hchild (by simp) (by simp [own])

theorem nodup_story (hf : n.Formed) (hn : n.numbers.Nodup) : ((story t n).map Mark.node).Nodup :=
  List.nodup_iff_count_le_one.mpr fun j => Nat.le_trans (count_story_le hf j) (List.nodup_iff_count_le_one.mp hn j)

/-! ## What is in a story -/

theorem story_sublist_storyEach (h : n ∈ ns) : (story t n).Sublist (storyEach t ns) := by
  obtain ⟨front, back, rfl⟩ := List.append_of_mem h
  rw [storyEach_append, storyEach_cons]
  exact (List.sublist_append_left _ _).trans (List.sublist_append_right _ _)

theorem storyEach_sublist_storyDeclared (h : c ∈ vs) :
    (storyEach t c.children).Sublist (storyDeclared t modifier vs) := by
  induction vs with
  | nil => cases h
  | cons v vs ih =>
    rw [storyDeclared_cons]
    rcases List.mem_cons.mp h with rfl | h
    · exact (List.sublist_append_left _ _).trans (List.sublist_append_left _ _)
    · exact (ih h).trans (List.sublist_append_right _ _)

theorem story_sublist_of_child (hf : n.Formed) (hc : c ∈ n.children) : (story t c).Sublist (story t n) := by
  by_cases hk : ∃ modifier, n.kind = .declaration modifier false
  · obtain ⟨modifier, hk⟩ := hk
    have hl := hf.layout
    rw [hk] at hl
    obtain ⟨name, hck⟩ := hl.of_separate c hc
    rw [story_declaration hk, story_eq (by simp [hck]), own, hck, List.append_nil]
    exact storyEach_sublist_storyDeclared hc
  · rw [story_eq fun modifier hd => hk ⟨modifier, hd⟩]
    exact (story_sublist_storyEach hc).trans (List.sublist_append_left _ _)

theorem story_sublist_of_way (hf : root.Formed) (hw : Way root n as) : (story t n).Sublist (story t root) := by
  induction hw with
  | root => exact .refl _
  | child up hc ih => exact (story_sublist_of_child (up.formed hf) hc).trans ih

theorem exists_of_mem_storyEach (h : mark ∈ storyEach t ns) : ∃ n ∈ ns, mark ∈ story t n := by
  induction ns with
  | nil => simp at h
  | cons n ns ih =>
    rw [storyEach_cons, List.mem_append] at h
    rcases h with h | h
    · exact ⟨n, by simp, h⟩
    · obtain ⟨m, hm, h⟩ := ih h
      exact ⟨m, .tail _ hm, h⟩

theorem exists_of_mem_storyDeclared (h : mark ∈ storyDeclared t modifier vs) :
    ∃ v ∈ vs, mark ∈ storyEach t v.children ∨ mark ∈ ofVariable t modifier v := by
  induction vs with
  | nil => simp at h
  | cons v vs ih =>
    rw [storyDeclared_cons, List.mem_append, List.mem_append] at h
    rcases h with h | h
    · exact ⟨v, by simp, h⟩
    · obtain ⟨u, hu, h⟩ := ih h
      exact ⟨u, .tail _ hu, h⟩

/-- What a node does after its parts: it gives something to names, it calls a name, or it makes itself. -/
theorem mem_own_cases (h : mark ∈ own t n) :
    (∃ name entry what, mark = .given name entry what ∧ (n.kind = .assignment ∨ what = .other)) ∨
      (∃ entry, mark = .called n.number entry) ∨ World.isProcedure n ∧ mark = .made n.number := by
  have hnames {what : Given} (h : mark ∈ n.children.dropLast.flatMap fun v => gives t v.number what) :
      ∃ name entry, mark = .given name entry what := by
    obtain ⟨v, -, h⟩ := List.mem_flatMap.mp h
    exact ⟨v.number, mem_gives h⟩
  unfold own at h
  split at h
  case h_1 hk =>
    obtain ⟨name, entry, he⟩ := hnames h
    exact .inl ⟨name, entry, _, he, .inl hk⟩
  case h_2 | h_3 | h_4 =>
    obtain ⟨name, entry, he⟩ := hnames h
    exact .inl ⟨name, entry, _, he, .inr rfl⟩
  case h_5 =>
    obtain ⟨entry, -, rfl⟩ := by simpa using h
    exact .inr (.inl ⟨entry, rfl⟩)
  case h_6 hk => exact .inr (.inr ⟨by simp [World.isProcedure, hk], by simpa using h⟩)
  case h_7 => cases h

/-- A procedure that is made is the definition with its number. -/
theorem exists_of_made (hf : n.Formed) (h : .made procedure ∈ story t n) :
    ∃ p as, Way n p as ∧ World.isProcedure p ∧ p.number = procedure := by
  revert h
  refine hf.induction_below (P := fun n => .made procedure ∈ story t n → ∃ p as, Way n p as ∧ World.isProcedure p ∧
    p.number = procedure) fun {n} hf hd h => ?_
  by_cases hk : ∃ modifier, n.kind = .declaration modifier false
  · obtain ⟨modifier, hk⟩ := hk
    rw [story_declaration hk] at h
    obtain ⟨v, hv, h | h⟩ := exists_of_mem_storyDeclared h
    · obtain ⟨c, hc, h⟩ := exists_of_mem_storyEach h
      obtain ⟨p, as, hw, hp⟩ := hd v hv c _ (.child .root hc) h
      exact ⟨p, _, (hw.under hc).under hv, hp⟩
    · obtain ⟨entry, he⟩ := mem_gives h
      cases he
  · rw [story_eq fun modifier hd => hk ⟨modifier, hd⟩, List.mem_append] at h
    rcases h with h | h
    · obtain ⟨c, hc, h⟩ := exists_of_mem_storyEach h
      obtain ⟨p, as, hw, hp⟩ := hd c hc c _ .root h
      exact ⟨p, _, hw.under hc, hp⟩
    · obtain ⟨_, _, _, he, -⟩ | ⟨_, he⟩ | ⟨hp, he⟩ := mem_own_cases h
      · cases he
      · cases he
      · exact ⟨n, [], .root, hp, (Mark.made.inj he).symm⟩

/-- Where a name is given a procedure, that has just been made. -/
def Prepared (s : List Mark) : Prop :=
  ∀ name entry procedure, .given name entry (.procedure procedure) ∈ s →
    ∃ front back, s = front ++ .made procedure :: .given name entry (.procedure procedure) :: back

namespace Prepared

variable {s s' : List Mark}

theorem append (h : Prepared s) (h' : Prepared s') : Prepared (s ++ s') := by
  intro name entry procedure hm
  rcases List.mem_append.mp hm with hm | hm
  · obtain ⟨front, back, rfl⟩ := h _ _ _ hm
    exact ⟨front, back ++ s', by simp⟩
  · obtain ⟨front, back, rfl⟩ := h' _ _ _ hm
    exact ⟨s ++ front, back, by simp⟩

/-- No name is given a procedure. -/
theorem of_forall (h : ∀ name entry procedure, .given name entry (.procedure procedure) ∉ s) : Prepared s :=
  fun _ _ _ hm => absurd hm (h _ _ _)

theorem gives_other (name : Nat) (hw : ∀ procedure, what ≠ .procedure procedure) : Prepared (gives t name what) := by
  refine of_forall fun _ _ procedure hm => ?_
  obtain ⟨_, he⟩ := mem_gives hm
  cases he
  exact hw procedure rfl

theorem storyEach (h : ∀ n ∈ ns, Prepared (story t n)) : Prepared (storyEach t ns) := by
  induction ns with
  | nil => exact of_forall (by simp)
  | cons n ns ih =>
    rw [storyEach_cons]
    exact (h n (by simp)).append (ih fun m hm => h m (.tail _ hm))

/-- A name is given the procedure that was made last. -/
theorem gives_made (name : Nat) (h : Prepared (s ++ [.made procedure])) :
    Prepared (s ++ [.made procedure] ++ gives t name (.procedure procedure)) := by
  unfold gives
  cases t.entryOf? name with
  | none => simpa using h
  | some entry =>
    intro name' entry' procedure' hm
    rcases List.mem_append.mp hm with hm | hm
    · obtain ⟨front, back, he⟩ := h _ _ _ hm
      exact ⟨front, back ++ [.given name entry (.procedure procedure)], by rw [he]; simp⟩
    · obtain ⟨rfl, rfl, rfl⟩ := by simpa using hm
      exact ⟨s, [], by simp⟩

/-- A name is given the value before it. -/
theorem gives_value {value : Node} (name : Nat) (h : Prepared (s ++ story t value)) :
    Prepared (s ++ story t value ++ gives t name (.ofValue value)) := by
  unfold Given.ofValue
  split
  case isTrue hp =>
    obtain ⟨_, _, _, hk⟩ : ∃ name iterates doc, value.kind = .procedure name iterates doc := by
      unfold World.isProcedure at hp
      split at hp
      · exact ⟨_, _, _, ‹_›⟩
      · cases hp
    rw [story_eq (by simp [hk]), own, hk, ← List.append_assoc] at h ⊢
    exact h.gives_made name
  case isFalse => exact h.append (gives_other name (by simp))

theorem storyDeclared (hc : ∀ v ∈ vs, v.children = [] ∨ ∃ value, v.children = [value] ∧ Prepared (story t value)) :
    Prepared (storyDeclared t modifier vs) := by
  induction vs with
  | nil => exact of_forall (by simp)
  | cons v vs ih =>
    rw [storyDeclared_cons, ofVariable]
    refine append ?_ (ih fun u hu => hc u (.tail _ hu))
    rcases hc v (by simp) with hnil | ⟨value, hvalue, h⟩
    · rw [hnil]
      exact gives_other v.number (by cases modifier <;> simp [Given.ofModifier])
    · rw [hvalue]
      simpa using gives_value (s := []) v.number h

end Prepared

theorem prepared_story (hf : n.Formed) : Prepared (story t n) := by
  refine hf.induction_below (P := fun n => Prepared (story t n)) fun {n} hf hd => ?_
  have hparts : Prepared (storyEach t n.children) := .storyEach fun c hc => hd c hc c [] .root
  have hl := hf.layout
  by_cases hk : ∃ modifier, n.kind = .declaration modifier false
  · obtain ⟨modifier, hk⟩ := hk
    rw [hk] at hl
    rw [story_declaration hk]
    refine .storyDeclared fun v hv => ?_
    obtain ⟨name, hvk⟩ := hl.of_separate v hv
    have hlv := (hf.child hv).layout
    rw [hvk] at hlv
    exact hlv.declared.imp_right fun ⟨value, he, _⟩ => ⟨value, he, hd v hv value _ (.child .root (by simp [he]))⟩
  · rw [story_eq fun modifier hd => hk ⟨modifier, hd⟩]
    by_cases ha : n.kind = .assignment
    · obtain ⟨target, value, hc⟩ := hl.of_isSingleAssignment (ha ▸ rfl)
      rw [hc, storyEach_cons, storyEach_cons, storyEach_nil, List.append_nil] at hparts ⊢
      rw [own, ha, hc]
      simpa using hparts.gives_value target.number
    · refine hparts.append (.of_forall fun name entry procedure hm => ?_)
      obtain ⟨_, _, _, he, ha' | rfl⟩ | ⟨_, he⟩ | ⟨-, he⟩ := mem_own_cases hm
      · exact ha ha'
      all_goals cases he

end Marks

end Magik.Running
