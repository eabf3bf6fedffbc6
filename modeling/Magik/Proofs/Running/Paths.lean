/-
  Magik.Proofs.Running.Paths — the paths through a file.

  A path goes by some of the marks of a story, in their order (`Goes.sublist`): one branch
  of a conditional, a try up to where an error comes and then a handler, a body up to where
  it is left. The body of a definition is not gone through with what is around it, but a
  path can end inside of it. There is no path through a loop.
-/

import Magik.Proofs.Running.Story

namespace Magik.Running

/-! ## Paths -/

/-- How a path through a node ends. -/
inductive Ending where
  /-- It goes on behind the node. -/
  | through
  /-- It has left what is around. -/
  | left
  /-- An error has come. -/
  | stopped
  /-- It has gone into a definition. -/
  | inside
  deriving DecidableEq

/-- Nodes whose parts are gone through one after the other. -/
def inOrder : Node.Kind → Bool
  | .declaration _ false | .conditional | .attempt | .protect | .forLoop _ | .whileLoop _ | .plainLoop _
  | .method _ | .procedure .. => false
  | _ => true

/-- Whether the path leaves what is around a node, after its parts. -/
def departs (w : World) (n : Node) : Bool :=
  match n.kind with
  | .returned | .leave _ | .continued _ | .thrown => true
  | .invocation name => w.raisesError .file name n.children
  | _ => false

mutual

/-- The marks on a path through a node. -/
inductive Goes (w : World) : Node → List Mark → Ending → Prop
  | start {n} : Goes w n [] .stopped
  | error {n es e} (h : Goes w n es e) (he : e = .through ∨ e = .left) : Goes w n es .stopped
  | parts {n es} (hk : inOrder n.kind) (h : GoesEach w n.children es .through) :
      Goes w n (es ++ own w.scopes n) (if departs w n then .left else .through)
  | part {n es e} (hk : inOrder n.kind) (h : GoesEach w n.children es e) (he : e ≠ .through) : Goes w n es e
  | declaration {n modifier es e} (hk : n.kind = .declaration modifier false)
      (h : GoesDeclared w modifier n.children es e) :
      Goes w n es e
  /-- The left operand decides. -/
  | decided {n operator left right es} (hk : n.kind = .binary operator) (ho : operator = .andIf ∨ operator = .orIf)
      (hc : n.children = [left, right]) (h : Goes w left es .through) : Goes w n es .through
  | conditional {n es e} (hk : n.kind = .conditional) (h : GoesBranches w n.children es e) : Goes w n es e
  | attempted {n body es e} (hk : n.kind = .attempt) (hb : body ∈ n.children) (hbk : body.kind = .body)
      (h : Goes w body es e) :
      Goes w n es e
  | handled {n front body handlers handler es fs e} (hk : n.kind = .attempt) (hc : n.children = front ++ body :: handlers)
      (hbk : body.kind = .body) (h : Goes w body es .stopped) (hm : handler ∈ handlers) (hh : Goes w handler fs e) :
      Goes w n (es ++ fs) e
  | interrupted {n body protection es e} (hk : n.kind = .protect) (hc : n.children = [body, protection])
      (h : Goes w body es e) (he : e = .stopped ∨ e = .inside) : Goes w n es e
  /-- The protection comes also after an error or a return. -/
  | protection {n body protection es fs e e'} (hk : n.kind = .protect) (hc : n.children = [body, protection])
      (h : Goes w body es e) (he : e ≠ .inside) (hp : Goes w protection fs e') :
      Goes w n (es ++ fs) (if e' = .through then e else e')
  /-- Something was thrown to here. -/
  | caught {n tag body es fs} (hk : n.kind = .catching) (hc : n.children = [tag, body]) (ht : Goes w tag es .through)
      (h : Goes w body fs .stopped) : Goes w n (es ++ fs) .through
  | defined {n} (hk : n.kind.isDefinition) : Goes w n (own w.scopes n) .through
  | entered {n es e} (hk : n.kind.isDefinition) (h : GoesEach w n.children es e) : Goes w n es .inside

/-- Nodes, one after the other. -/
inductive GoesEach (w : World) : List Node → List Mark → Ending → Prop
  | nil : GoesEach w [] [] .through
  | cons {n ns es fs e} (h : Goes w n es .through) (hs : GoesEach w ns fs e) : GoesEach w (n :: ns) (es ++ fs) e
  | stop {n ns es e} (h : Goes w n es e) (he : e ≠ .through) : GoesEach w (n :: ns) es e

/-- Declared variables, each with its value. -/
inductive GoesDeclared (w : World) : Modifier → List Node → List Mark → Ending → Prop
  | nil {modifier} : GoesDeclared w modifier [] [] .through
  | cons {modifier v vs es fs e} (h : GoesEach w v.children es .through) (hs : GoesDeclared w modifier vs fs e) :
      GoesDeclared w modifier (v :: vs) (es ++ ofVariable w.scopes modifier v ++ fs) e
  | stop {modifier v vs es e} (h : GoesEach w v.children es e) (he : e ≠ .through) : GoesDeclared w modifier (v :: vs) es e

/-- The branches of a conditional: the first one is taken, or its condition is false. -/
inductive GoesBranches (w : World) : List Node → List Mark → Ending → Prop
  | nil : GoesBranches w [] [] .through
  | taken {b bs es e} (hk : b.kind = .branch ∨ b.kind = .otherwise) (h : GoesEach w b.children es e) :
      GoesBranches w (b :: bs) es e
  | denied {b bs condition body es fs e} (hk : b.kind = .branch) (hc : b.children = [condition, body])
      (h : Goes w condition es .through) (hs : GoesBranches w bs fs e) : GoesBranches w (b :: bs) (es ++ fs) e

end

/-- A node that is gone through, part by part. -/
theorem Goes.through {w : World} {n : Node} {ns : List Node} {es fs : List Mark} (hk : inOrder n.kind)
    (hd : departs w n = false) (hc : n.children = ns) (h : GoesEach w ns es .through) (he : es ++ own w.scopes n = fs) :
    Goes w n fs .through := by
  subst hc he
  simpa [hd] using Goes.parts hk h

/-- The marks before a call on a path from the start to it. -/
def Reaches (w : World) (root : Node) (call entry : Nat) (es : List Mark) : Prop :=
  ∃ later e, Goes w root (es ++ .called call entry :: later) e

section Order

variable {w : World} {earlier es later : List Mark}

theorem story_of_isDefinition {t : ScopeTree} {n : Node} (h : n.kind.isDefinition) :
    story t n = storyEach t n.children ++ own t n :=
  story_eq fun modifier hk => by simp [hk, Node.Kind.isDefinition] at h

mutual

/-- On a path, marks come in the order of the text. -/
theorem Goes.sublist {n : Node} {es : List Mark} {e : Ending} (h : Goes w n es e) :
    es.Sublist (story w.scopes n) := by
  match h with
  | .start => exact List.nil_sublist _
  | .error h _ => exact h.sublist
  | .parts hk h =>
    rw [story_eq (by rintro modifier hd; simp [hd, inOrder] at hk)]
    exact h.sublist.append (.refl _)
  | .part hk h _ =>
    rw [story_eq (by rintro modifier hd; simp [hd, inOrder] at hk)]
    exact h.sublist.trans (List.sublist_append_left _ _)
  | .declaration hk h =>
    rw [story_declaration hk]
    exact h.sublist
  | .decided hk _ hc h | .interrupted hk hc h _ =>
    rw [story_eq (by simp [hk]), hc, storyEach_cons, List.append_assoc]
    exact h.sublist.trans (List.sublist_append_left _ _)
  | .conditional hk h =>
    rw [story_eq (by simp [hk])]
    exact h.sublist.trans (List.sublist_append_left _ _)
  | .attempted hk hb _ h =>
    rw [story_eq (by simp [hk])]
    exact h.sublist.trans ((story_sublist_storyEach hb).trans (List.sublist_append_left _ _))
  | .handled hk hc _ h hm hh =>
    rw [story_eq (by simp [hk]), hc, storyEach_append, storyEach_cons]
    have hhandlers := hh.sublist.trans (story_sublist_storyEach hm)
    exact ((h.sublist.append hhandlers).trans (List.sublist_append_right _ _)).trans (List.sublist_append_left _ _)
  | .protection hk hc h _ hp =>
    rw [story_eq (by simp [hk]), hc, storyEach_cons, storyEach_cons, storyEach_nil, List.append_nil]
    exact (h.sublist.append hp.sublist).trans (List.sublist_append_left _ _)
  | .caught hk hc ht h =>
    rw [story_eq (by simp [hk]), hc, storyEach_cons, storyEach_cons, storyEach_nil, List.append_nil]
    exact (ht.sublist.append h.sublist).trans (List.sublist_append_left _ _)
  | .defined hk =>
    rw [story_of_isDefinition hk]
    exact List.sublist_append_right _ _
  | .entered hk h =>
    rw [story_of_isDefinition hk]
    exact h.sublist.trans (List.sublist_append_left _ _)

theorem GoesEach.sublist {ns : List Node} {es : List Mark} {e : Ending} (h : GoesEach w ns es e) :
    es.Sublist (storyEach w.scopes ns) := by
  match h with
  | .nil => exact List.nil_sublist _
  | .cons h hs =>
    rw [storyEach_cons]
    exact h.sublist.append hs.sublist
  | .stop h _ =>
    rw [storyEach_cons]
    exact h.sublist.trans (List.sublist_append_left _ _)

theorem GoesDeclared.sublist {modifier : Modifier} {ns : List Node} {es : List Mark} {e : Ending}
    (h : GoesDeclared w modifier ns es e) : es.Sublist (storyDeclared w.scopes modifier ns) := by
  match h with
  | .nil => exact List.nil_sublist _
  | .cons h hs =>
    rw [storyDeclared_cons]
    exact (h.sublist.append (.refl _)).append hs.sublist
  | .stop h _ =>
    rw [storyDeclared_cons, List.append_assoc]
    exact h.sublist.trans (List.sublist_append_left _ _)

theorem GoesBranches.sublist {ns : List Node} {es : List Mark} {e : Ending} (h : GoesBranches w ns es e) :
    es.Sublist (storyEach w.scopes ns) := by
  match h with
  | .nil => exact List.nil_sublist _
  | .taken hk h =>
    rw [storyEach_cons, story_eq (by rcases hk with hk | hk <;> simp [hk]), List.append_assoc]
    exact h.sublist.trans (List.sublist_append_left _ _)
  | @GoesBranches.denied _ b _ _ _ es' _ _ hk hc h hs =>
    have hb : es'.Sublist (story w.scopes b) := by
      rw [story_eq (by simp [hk]), hc, storyEach_cons, List.append_assoc]
      exact h.sublist.trans (List.sublist_append_left _ _)
    rw [storyEach_cons]
    exact hb.append hs.sublist

end

/-- What is before the one place of a mark. -/
theorem sublist_before {rest : List Mark} {mark : Mark} (h : (es ++ mark :: rest).Sublist (earlier ++ mark :: later))
    (he : mark ∉ earlier) (hl : mark ∉ later) : es.Sublist earlier := by
  induction earlier generalizing es with
  | nil =>
    cases es with
    | nil => exact .slnil
    | cons first es =>
      rcases List.sublist_cons_iff.mp h with h | ⟨_, hcons, h⟩
      · exact absurd (h.subset (by simp)) hl
      · obtain ⟨-, rfl⟩ := List.cons.inj hcons
        exact absurd (h.subset (by simp)) hl
  | cons first earlier ih =>
    rw [List.mem_cons, not_or] at he
    rcases List.sublist_cons_iff.mp h with h | ⟨_, hcons, h⟩
    · exact (ih h he.2).cons _
    · cases es with
      | nil => exact List.nil_sublist _
      | cons _ es =>
        obtain ⟨rfl, rfl⟩ := List.cons.inj hcons
        exact (ih h he.2).cons_cons _

theorem Reaches.sublist {root : Node} {call entry : Nat} (h : Reaches w root call entry es)
    (hs : story w.scopes root = earlier ++ .called call entry :: later)
    (hn : (earlier ++ .called call entry :: later).Nodup) : es.Sublist earlier := by
  obtain ⟨rest, e, h⟩ := h
  have hsub := h.sublist
  rw [hs] at hsub
  rw [List.nodup_middle, List.nodup_cons, List.mem_append, not_or] at hn
  exact sublist_before hsub hn.1.1 hn.1.2

end Order

/-! ## What names have on a path -/

/-- What a mark gives to an entry. -/
def Mark.givenTo? (entry : Nat) : Mark → Option Given
  | .given _ owner what => if owner = entry ∧ what ≠ .nothing then some what else none
  | _ => none

/-- What an entry was given last. -/
def lastGiven (es : List Mark) (entry : Nat) : Option Given := es.reverse.findSome? (Mark.givenTo? entry)

/-- What an entry was given last, unless it only imports it. -/
def held (es : List Mark) (entry : Nat) : Option Given := (lastGiven es entry).filter (· ≠ .imported)

/-- An entry, the one it imports, and so on. -/
def links (t : ScopeTree) (entry : Nat) : List Nat :=
  entry :: match (t.entryAt? entry).bind (·.imported) with
    | some target => if target < entry then links t target else []
    | none => []
termination_by entry

/-- What the name of an entry has: what it was given last, or what the entry has that it imports. -/
def holds (t : ScopeTree) (es : List Mark) (entry : Nat) : Option Given := (links t entry).findSome? (held es)

/-- The last mark that is about an entry. -/
def GivenLast (es : List Mark) (name entry : Nat) (what : Given) : Prop :=
  ∃ front back, es = front ++ .given name entry what :: back ∧ ∀ name what, .given name entry what ∉ back

section Holding

variable {t : ScopeTree} {s es : List Mark} {name entry procedure : Nat} {what : Given}

theorem le_of_mem_links {y : Nat} (h : y ∈ links t entry) : y ≤ entry := by
  induction entry using Nat.strongRecOn with
  | ind entry ih =>
    rw [links, List.mem_cons] at h
    rcases h with rfl | h
    · exact Nat.le_refl _
    · split at h
      · split at h
        case isTrue hlt => exact Nat.le_trans (ih _ hlt h) (Nat.le_of_lt hlt)
        case isFalse => cases h
      · cases h

theorem nodup_links (t : ScopeTree) (entry : Nat) : (links t entry).Nodup := by
  induction entry using Nat.strongRecOn with
  | ind entry ih =>
    rw [links, List.nodup_cons]
    split
    · split
      case isTrue hlt => exact ⟨fun h => absurd (le_of_mem_links h) (Nat.not_le_of_gt hlt), ih _ hlt⟩
      case isFalse => simp
    · simp

theorem procedureOf?_eq (w : World) (procedures : Table Nat Nat) (entry : Nat) :
    w.procedureOf? procedures entry = (links w.scopes entry).findSome? procedures.find? := by
  induction entry using Nat.strongRecOn with
  | ind entry ih =>
    rw [World.procedureOf?, links, List.findSome?_cons]
    cases procedures.find? entry with
    | some procedure => rfl
    | none =>
      cases (w.scopes.entryAt? entry).bind (·.imported) with
      | none => rfl
      | some target =>
        dsimp only
        split
        case isTrue hlt => exact ih target hlt
        case isFalse => rfl

theorem mem_of_lastGiven (h : lastGiven es entry = some what) : ∃ name, .given name entry what ∈ es := by
  obtain ⟨mark, hm, hg⟩ := List.exists_of_findSome?_eq_some h
  cases mark with
  | given name owner what' =>
    simp only [Mark.givenTo?] at hg
    split at hg
    · obtain ⟨rfl, -⟩ := ‹_ ∧ _›
      cases hg
      exact ⟨name, List.mem_reverse.mp hm⟩
    · cases hg
  | _ => cases hg

theorem GivenLast.lastGiven_eq (h : GivenLast es name entry what) (hw : what ≠ .nothing) :
    lastGiven es entry = some what := by
  obtain ⟨front, back, rfl, hb⟩ := h
  have hnone : back.reverse.findSome? (Mark.givenTo? entry) = none := by
    rw [List.findSome?_eq_none_iff]
    intro mark hm
    cases mark with
    | given name owner what' =>
      have hne : owner ≠ entry := by
        rintro rfl
        exact hb _ _ (List.mem_reverse.mp hm)
      simp [Mark.givenTo?, hne]
    | _ => rfl
  simp [lastGiven, List.findSome?_append, hnone, Mark.givenTo?, hw]

/-- A path that goes by the last mark of an entry has it for its last one too. -/
theorem GivenLast.of_sublist (h : GivenLast s name entry what) (hs : s.Nodup) (hsub : es.Sublist s)
    (hm : .given name entry what ∈ es) : GivenLast es name entry what := by
  obtain ⟨front, back, rfl, hb⟩ := h
  obtain ⟨es₁, es₂, rfl, hsub₁, hsub₂⟩ := List.sublist_append_iff.mp hsub
  have hfront : .given name entry what ∉ es₁ := fun hin => by
    rw [List.nodup_append] at hs
    exact hs.2.2 _ (hsub₁.subset hin) _ (by simp) rfl
  have hm₂ := (List.mem_append.mp hm).resolve_left hfront
  rcases List.sublist_cons_iff.mp hsub₂ with hback | ⟨es₃, rfl, hback⟩
  · exact absurd (hback.subset hm₂) (hb _ _)
  · exact ⟨es₁, es₃, rfl, fun name what hin => hb name what (hback.subset hin)⟩

end Holding

end Magik.Running
