/-
  Magik.Proofs.Reasoning.Appending — what is known of the first items of a file.

  The scopes of a file agree with those of its first items alone, on the numbers of these
  items and on the entries that they make (`agree_build`). So reasoning about the first items
  comes to the same in both, and reasoning about later ones notes nothing at their nodes
  (`findings_reasonEach`): appending items to a file changes no answer about the items before.
-/

import Magik.Proofs.Reasoning.Coincidence
import Magik.Proofs.Reasoning.Passing
import Magik.Proofs.Reasoning.Reads
import Magik.Proofs.Scope.Beside

namespace Magik

open Node (numbersAll Way)

/-! ## Scopes -/

namespace ScopeTree

variable {tree first whole : SyntaxTree} {later : List Node}

/-- The global scope is the one of the file. -/
theorem global_build (h : tree.FormedFile) : ∃ sc, (build tree).scopes[0]? = some sc ∧ sc.node = tree.root.number := by
  obtain ⟨sc, hsc, -, -, hn⟩ := (run_build h).visits_grow.scopes
    (show ((start tree.root.number).place tree.root.number 0).scopes[0]? = some _ from rfl)
  exact ⟨sc, hsc, hn⟩

/-- A node of an item opens no scope but one further in. -/
theorem opened_build (h : tree.FormedFile) {j i : Nat} (hj : j ∈ numbersAll tree.root.children)
    (ho : (build tree).scopeOpenedBy? j = some i) : i ≠ 0 ∧ i < (build tree).scopes.length := by
  have hsound := sound_build h
  rw [← Node.map_number_drain, List.mem_map] at hj
  obtain ⟨b, hb, rfl⟩ := hj
  obtain ⟨c, hc, as, hw⟩ := Node.exists_way_of_mem_drain _ hb
  exact ⟨Nat.ne_of_gt (hsound.opened_pos (hw.under hc) (by simp) ho), hsound.opened_lt ho⟩

/-- On the first items of a file and the entries they make, its scopes agree with those of these items alone. -/
theorem agree_build (hf : first.FormedFile) (hw : whole.FormedFile)
    (happend : whole.root.children = first.root.children ++ later) :
    (build first).Agree (· < (build first).entries.length) (numbersAll first.root.children) (build whole) := by
  have hretains := retains_build hf hw happend
  have husing := using_build hf
  have hentry : ∀ x < (build first).entries.length, ∃ e e', (build first).entryAt? x = some e ∧
      (build whole).entryAt? x = some e' ∧ SameEntry e e' ∧ e'.imported = e.imported := by
    intro x hx
    obtain ⟨e', he', hsame⟩ := hretains.entries (List.getElem?_eq_getElem hx)
    exact ⟨_, e', List.getElem?_eq_getElem hx, he', hsame⟩
  have hcaught : ∀ j ∈ numbersAll first.root.children, ∀ name,
      ((build whole).scopeOpenedBy? j).bind ((build whole).entryIn? name) =
        ((build first).scopeOpenedBy? j).bind ((build first).entryIn? name) := by
    intro j hj name
    rw [hretains.opened j hj]
    cases ho : (build first).scopeOpenedBy? j with
    | none => rfl
    | some i =>
      obtain ⟨h0, hlt⟩ := opened_build hf hj ho
      exact hretains.names h0 hlt name
  refine ⟨hretains.resolved, fun j _ x hx => grounded_build hf j x hx, fun x hx y hy => hy.trans hx, fun x hx => .inr ?_,
    fun x hx inside hi w => ?_, hcaught, fun j _ name x hx => ?_⟩
  · obtain ⟨e, e', he, he', ⟨hk, hname, -⟩, himported⟩ := hentry x hx
    exact ⟨e, e', he, he', hk, hname, himported⟩
  · obtain ⟨e, e', he, he', ⟨-, -, -, hscope⟩, -⟩ := hentry x hx
    have hlt := husing.linking.stored x e he
    have hany : ∀ o : Option Scope,
        o.any (fun sc => inside.contains sc.node) = (o.map Scope.node).any inside.contains := by
      intro o
      cases o <;> rfl
    simp only [World.isStoredWithin, he, he', Option.bind_some, hscope, hany]
    by_cases h0 : e.scope = 0
    · -- neither file is one of the nodes
      obtain ⟨sc, hsc, hn⟩ := global_build hf
      obtain ⟨sc', hsc', hn'⟩ := global_build hw
      have hout : first.root.number ∉ inside := fun hm => number_not_mem_children hf.nodup (hi _ hm)
      have hout' : whole.root.number ∉ inside := fun hm =>
        number_not_mem_children hw.nodup (by rw [happend, Node.numbersAll_append]; exact List.mem_append_left _ (hi _ hm))
      simp [h0, hsc, hsc', hn, hn', hout, hout']
    · rw [hretains.nodes h0 hlt]
  · obtain ⟨i, -, hx⟩ := Option.bind_eq_some_iff.mp hx
    obtain ⟨e, he, -⟩ := husing.resolving.named hx
    exact lt_of_entry he

end ScopeTree

/-! ## Reasoning -/

namespace World

variable {items : List Node} {j : Nat}

/-- What is noted at other nodes stays. -/
theorem findings_reasonEach (hf : ∀ c ∈ items, c.Formed) (hk : ∀ c ∈ items, c.kind.isReasoned)
    (hn : (numbersAll items).Nodup) (w : World) (file : Nat) (m : Moment) (hj : j ∉ numbersAll items) :
    m.memory.findings.SameAt (w.reasonEach (Around.file.within file .file) items m).2.memory.findings j ∧
      (w.reasonEach (Around.file.within file .file) items m).2.memory.findings.restrictions.find? j =
        m.memory.findings.restrictions.find? j := by
  let root : Node := ⟨file, .file, default, items⟩
  have hreasons := reasonsEach (fun n hn => ruled_of_formed (hf n hn)) hk (Around.file.within file .file) (w := w)
  have hpath : (Around.file.within file .file).path = pathOf [root] := rfl
  have hparts := (hreasons.parts ⟨hf, hn⟩ hpath m).1
  exact ⟨hparts.notes.same (by simpa using hj), hparts.notes.restrictions (by simpa [root] using hj)⟩

/-- What is found at the first items of a file is what is found without the later ones. -/
theorem findings_append {first whole : SyntaxTree} {later : List Node} (hf : first.FormedFile) (hw : whole.FormedFile)
    (happend : whole.root.children = first.root.children ++ later) (definitions : Definitions) (package : String)
    (hj : j ∈ numbersAll first.root.children) :
    (findings ⟨ScopeTree.build first, definitions⟩ package first).SameAt
        (findings ⟨ScopeTree.build whole, definitions⟩ package whole) j ∧
      (findings ⟨ScopeTree.build whole, definitions⟩ package whole).restrictions.find? j =
        (findings ⟨ScopeTree.build first, definitions⟩ package first).restrictions.find? j := by
  let w : World := ⟨ScopeTree.build first, definitions⟩
  let w' : World := ⟨ScopeTree.build whole, definitions⟩
  have hagree : w.scopes.Agree _ _ w'.scopes := ScopeTree.agree_build hf hw happend
  let start : Moment := ⟨.start, .start package⟩
  have hcoincide : w'.reasonEach (Around.file.within whole.root.number .file) first.root.children start =
      w.reasonEach (Around.file.within first.root.number .file) first.root.children start :=
    (coincide_reasonEach hagree first.root.children _ _ (.file first.root.number whole.root.number) (fun _ h => h)
      start .start).1
  have hlater : ∀ c ∈ later, c ∈ whole.root.children := fun c hc => by simp [happend, hc]
  have hnodup := Node.nodup_children hw.nodup
  rw [happend, Node.numbersAll_append, List.nodup_append] at hnodup
  have hlayout := hw.formed.layout
  rw [hw.file] at hlayout
  have hafter := findings_reasonEach (fun c hc => hw.formed.child (hlater c hc))
    (fun c hc => Node.Kind.isReasoned_of_isItem (hlayout.items c (hlater c hc))) hnodup.2.1 w' whole.root.number
    (w.after package first.root first.root.children) fun hm => hnodup.2.2 j hj j hm rfl
  have hwhole : w'.after package whole.root whole.root.children = (w'.reasonEach
      (Around.file.within whole.root.number .file) later (w.after package first.root first.root.children)).2 := by
    rw [after, after, hw.file, hf.file, happend, reasonEach_append, hcoincide]
  rw [← hwhole] at hafter
  exact ⟨⟨hafter.1.results, hafter.1.loopResults, hafter.1.procedureResults⟩, hafter.2⟩

/-- Items that are appended to a file change nothing that is known of the items before them.
    Each node of these is in the same scope and means the same entry, and the same result,
    results of rounds and of calls, and restriction are noted at it, if any. The entries that
    the items make keep their numbers, kinds, names, nodes, scopes and links. -/
theorem appended_items_keep_answers {first whole : SyntaxTree} {later : List Node} (hf : first.FormedFile)
    (hw : whole.FormedFile) (happend : whole.root.children = first.root.children ++ later) (definitions : Definitions)
    (package : String) :
    let scopes := ScopeTree.build first
    let scopes' := ScopeTree.build whole
    let found := findings ⟨scopes, definitions⟩ package first
    let found' := findings ⟨scopes', definitions⟩ package whole
    (∀ item ∈ first.root.children, ∀ n ∈ item.withDescendants,
      scopes'.scopeOf? n.number = scopes.scopeOf? n.number ∧
      scopes'.entryOf? n.number = scopes.entryOf? n.number ∧
      found'.results.find? n.number = found.results.find? n.number ∧
      found'.loopResults.find? n.number = found.loopResults.find? n.number ∧
      found'.procedureResults.find? n.number = found.procedureResults.find? n.number ∧
      found'.restrictions.find? n.number = found.restrictions.find? n.number) ∧
    ∀ x e, scopes.entryAt? x = some e → ∃ e', scopes'.entryAt? x = some e' ∧ e'.kind = e.kind ∧ e'.name = e.name ∧
      e'.node = e.node ∧ e'.scope = e.scope ∧ e'.imported = e.imported := by
  intro scopes scopes' found found'
  have hretains : scopes.Retains (numbersAll first.root.children) scopes' := ScopeTree.retains_build hf hw happend
  refine ⟨fun item hitem n hn => ?_, fun x e he => ?_⟩
  · have hj : n.number ∈ numbersAll first.root.children :=
      Node.numbers_subset hitem _ (Node.number_mem_of_mem_withDescendants hn)
    obtain ⟨hsame, hrestrictions⟩ := findings_append hf hw happend definitions package hj
    exact ⟨hretains.placed _ hj, hretains.resolved _ hj, hsame.results, hsame.loopResults, hsame.procedureResults,
      hrestrictions⟩
  · obtain ⟨e', he', ⟨hk, hname, hnode, hscope⟩, himported⟩ := hretains.entries he
    exact ⟨e', he', hk, hname, hnode, hscope, himported⟩

/-! A variable is read as an integer, and what is assigned to it further on is a symbol. -/

def readTokens : List Token :=
  [.name "x" 1 1, ⟨.chevron, "<<", 1, 3⟩, ⟨.integer 5, "5", 1, 6⟩, .name "x" 2 1]

def reassignedTokens : List Token :=
  [.name "x" 3 1, ⟨.chevron, "<<", 3, 3⟩, ⟨.symbol "size", ":size", 3, 6⟩]

def readTree : SyntaxTree := (Grammar.parse (readTokens ++ [⟨.endOfFile, "", 3, 1⟩])).1

def reassignedTree : SyntaxTree := (Grammar.parse (readTokens ++ reassignedTokens ++ [⟨.endOfFile, "", 4, 1⟩])).1

theorem reassigned_variable_keeps_read :
    let found := findings ⟨.build readTree, .empty⟩ systemPackage readTree
    let found' := findings ⟨.build reassignedTree, .empty⟩ systemPackage reassignedTree
    readTree.FormedFile ∧ reassignedTree.FormedFile ∧
    reassignedTree.root.children = readTree.root.children ++ reassignedTree.root.children.drop 2 ∧
    (ScopeTree.build reassignedTree).entryOf? 4 = (ScopeTree.build readTree).entryOf? 3 ∧
    found'.results.find? 4 ≠ found.results.find? 3 ∧ found'.results.find? 3 = found.results.find? 3 := by
  intro found found'
  have hf : readTree.FormedFile := Grammar.parse_formedFile _
  have hw : reassignedTree.FormedFile := Grammar.parse_formedFile _
  have happend : reassignedTree.root.children = readTree.root.children ++ reassignedTree.root.children.drop 2 := by
    decide +kernel
  have hread : ∃ item ∈ readTree.root.children, ∃ n ∈ item.withDescendants, n.number = 3 := by decide +kernel
  obtain ⟨item, hitem, n, hn, hnumber⟩ := hread
  have hkept := (appended_items_keep_answers hf hw happend .empty systemPackage).1 item hitem n hn
  rw [hnumber] at hkept
  exact ⟨hf, hw, happend, by decide +kernel, by decide +kernel, hkept.2.2.1⟩

end World

end Magik
