/-
  Magik.Proofs.Reasoning.Calls — what a call of a name gives back.

  The procedures that entries were given are kept in one table, which is changed in the
  order of the text. So a call of a name gives back what is found of the procedure that was
  given last in the text, to the entry of the name or to one that it imports
  (`result_of_call`). On a path to the call that is what the name has if the path goes by
  where it was given, and the names that import it were given nothing else on the way
  (`holds_iff`). On other paths it is not.
-/

import Mathlib.Data.List.Induction
import Magik.Proofs.Grammar.WellFormed
import Magik.Proofs.Reasoning.Following
import Magik.Proofs.Running.Paths

namespace Magik

namespace Running

variable {s es : List Mark} {name entry procedure call : Nat}

/-- An entry has a procedure in the table if that is what it was given last. -/
theorem givenLast_of_find? (h : (s.foldl Mark.turn .empty).find? entry = some procedure) :
    ∃ name, GivenLast s name entry (.procedure procedure) := by
  induction s using List.reverseRecOn with
  | nil => cases h
  | append_singleton s mark ih =>
    rw [List.foldl_append, List.foldl_cons, List.foldl_nil] at h
    -- a mark that is not about the entry
    have hother (hm : ∀ name what, mark ≠ .given name entry what)
        (h : (s.foldl Mark.turn .empty).find? entry = some procedure) :
        ∃ name, GivenLast (s ++ [mark]) name entry (.procedure procedure) := by
      obtain ⟨name, front, back, he, hb⟩ := ih h
      refine ⟨name, front, back ++ [mark], by rw [he]; simp, fun name what hin => ?_⟩
      rcases List.mem_append.mp hin with hin | hin
      · exact hb name what hin
      · exact hm name what (List.mem_singleton.mp hin).symm
    cases mark with
    | given name owner what =>
      by_cases ho : owner = entry
      · subst ho
        have hwhat : what = .procedure procedure := by
          cases what with
          | procedure number => simpa [Mark.turn, Given.procedure?] using h
          | _ => simp [Mark.turn, Given.procedure?, Table.find?_erase] at h
        exact ⟨name, s, [], by rw [hwhat], by simp⟩
      · refine hother (by simp [ho]) ?_
        cases what <;> simpa [Mark.turn, Given.procedure?, Table.find?_insert, Table.find?_erase, ho] using h
    | made _ | called _ _ => exact hother (by simp) h

/-- A procedure is given to one name. -/
theorem Prepared.unique (h : Prepared s) (hs : s.Nodup) {name' entry' : Nat}
    (hm : .given name entry (.procedure procedure) ∈ s)
    (hm' : .given name' entry' (.procedure procedure) ∈ s) : name = name' ∧ entry = entry' := by
  obtain ⟨front, back, he⟩ := h _ _ _ hm
  obtain ⟨front', back', he'⟩ := h _ _ _ hm'
  rw [he, List.nodup_middle, List.nodup_cons, List.mem_append, not_or] at hs
  have hsame := (List.append_cons_inj_of_notMem hs.1.1 hs.1.2).mp (he.symm.trans he')
  obtain ⟨-, -, hback⟩ := hsame
  obtain ⟨hgiven, -⟩ := List.cons.inj hback
  obtain ⟨hname, hentry, -⟩ := Mark.given.inj hgiven
  exact ⟨hname, hentry⟩

/-- Before a procedure is given it was made. -/
theorem Prepared.made_mem {later : List Mark} (h : Prepared (s ++ later)) (hs : (s ++ later).Nodup)
    (hm : .given name entry (.procedure procedure) ∈ s) : .made procedure ∈ s := by
  obtain ⟨front, back, he⟩ := h _ _ _ (List.mem_append_left _ hm)
  obtain ⟨front', back', rfl⟩ := List.append_of_mem hm
  rw [List.append_assoc, List.cons_append] at he hs
  rw [List.nodup_middle, List.nodup_cons, List.mem_append, not_or] at hs
  rw [List.append_cons front] at he
  obtain ⟨rfl, -, -⟩ := (List.append_cons_inj_of_notMem hs.1.1 hs.1.2).mp he
  simp

/-- On a path a name has the procedure that was given last in the text, if the path goes by there and the names
    that import it were given nothing else. -/
theorem holds_iff {t : ScopeTree} {earlier : List Mark} {front back : List Nat} {x : Nat} (hs : s.Nodup) (hp : Prepared s)
    (hearlier : earlier.Sublist s) (hlast : GivenLast earlier name x (.procedure procedure))
    (hlinks : links t entry = front ++ x :: back) (hsub : es.Sublist earlier) :
    holds t es entry = some (.procedure procedure) ↔
      .given name x (.procedure procedure) ∈ es ∧ ∀ y ∈ front, held es y = none := by
  constructor
  · intro h
    obtain ⟨front', y, back', hlinks', hheld, hnone⟩ := List.findSome?_eq_some_iff.mp h
    obtain ⟨name', hm'⟩ := mem_of_lastGiven (Option.filter_eq_some_iff.mp hheld).1
    have hm : .given name x (.procedure procedure) ∈ earlier := by
      obtain ⟨_, _, rfl, -⟩ := hlast
      simp
    obtain ⟨rfl, rfl⟩ := hp.unique hs (hearlier.subset hm) (hearlier.subset (hsub.subset hm'))
    refine ⟨hm', ?_⟩
    have hnodup := nodup_links t entry
    rw [hlinks, List.nodup_middle, List.nodup_cons, List.mem_append, not_or] at hnodup
    obtain ⟨rfl, -, -⟩ := (List.append_cons_inj_of_notMem hnodup.1.1 hnodup.1.2).mp (hlinks.symm.trans hlinks')
    exact hnone
  · rintro ⟨hm, hnone⟩
    have hgiven := (hlast.of_sublist (hearlier.nodup hs) hsub hm).lastGiven_eq (by simp)
    rw [holds, hlinks, List.findSome?_eq_some_iff]
    exact ⟨front, x, back, rfl, by simp [held, hgiven], hnone⟩

end Running

namespace World

open Grammar (parse)
open Node (Way)
open Running (Mark inOrder departs Goes GoesEach GoesBranches GivenLast Reaches story own calleeOf? links holds held)

variable {w : World} {entry : Nat} {c : Node}

/-- A call of a name gives back what is found of the procedure that the table has for the name. -/
theorem result_of_call {call : Nat} {earlier later : List Mark} {package : String} {k : Memory}
    (h : Advances w call (earlier ++ .called call entry :: later) (.start package) k)
    (hl : ∀ mark ∈ later, mark.node ≠ call)
    (hm : ∀ p, w.procedureOf? (earlier.foldl Mark.turn .empty) entry = some p → .made p ∉ later) :
    k.findings.results.find? call =
      some (((w.procedureOf? (earlier.foldl Mark.turn .empty) entry).bind
        k.findings.procedureResults.find?).getD .unknown) := by
  obtain ⟨k₁, hbefore, h⟩ := h.split
  obtain ⟨k₂, k₃, hu, hcalled, hafter⟩ := h.uncons
  have htable : k₂.procedures = earlier.foldl Mark.turn .empty := by
    rw [hu.procedures, hbefore.procedures_eq]
    rfl
  rw [hafter.result_eq hl, hcalled.called rfl, callResult, htable]
  cases hp : w.procedureOf? (earlier.foldl Mark.turn .empty) entry with
  | none => rfl
  | some p =>
    rw [Option.bind_some, Option.bind_some, hafter.procedureResults_eq (hm p hp), hcalled.made (by simp)]

theorem calleeOf?_eq {t : ScopeTree} {callee : Node} {name : String} (hc : c.children.head? = some callee)
    (hk : callee.kind = .identifier name) : calleeOf? t c = t.entryOf? callee.number := by
  obtain ⟨number, kind, span, children⟩ := callee
  dsimp only at hk
  subst hk
  rw [calleeOf?, hc]

/-- A call of a name has its place in the story of the file. -/
theorem exists_called {tree : SyntaxTree} {as : List Node} (h : tree.FormedFile) (hw : Way tree.root c as)
    (hk : c.kind = .call) (he : calleeOf? w.scopes c = some entry) :
    CallsAt w.scopes c.number tree.root ∧ ∃ earlier later,
      story w.scopes tree.root = earlier ++ .called c.number entry :: later ∧ ∀ mark ∈ later, mark.node ≠ c.number := by
  constructor
  · refine ⟨h.formed, fun {m bs} hm hn => ?_⟩
    obtain ⟨rfl, -⟩ := Way.unique h.nodup hm hw hn
    exact ⟨hk, by rw [he]; rfl⟩
  · have hown : .called c.number entry ∈ story w.scopes c := by
      rw [Running.story_eq (by simp [hk]), own, hk]
      simp [he]
    obtain ⟨earlier, later, hs⟩ := List.append_of_mem ((Running.story_sublist_of_way h.formed hw).subset hown)
    refine ⟨earlier, later, hs, fun mark hm hn => ?_⟩
    have hnodup := Running.nodup_story (t := w.scopes) h.formed h.nodup
    rw [hs, List.map_append, List.map_cons, List.nodup_middle, List.nodup_cons] at hnodup
    exact hnodup.1 (List.mem_append_right _ (List.mem_map.mpr ⟨mark, hm, hn⟩))

/-- A call of a name with a result has that of a procedure, the one that was given last in the text to the entry
    of the name or to one that it imports. On a path to the call the name has that procedure if, and only if, the
    path goes by where it was given, and the names in between were given nothing else since they were imported. -/
theorem call_on_paths {tokens : List Token} (w : World) (package : String) {c callee : Node} {name : String} {entry : Nat}
    {r : Results} (hc : c ∈ (parse tokens).1.nodes) (hk : c.kind = .call) (hcallee : c.children.head? = some callee)
    (hname : callee.kind = .identifier name) (hentry : w.scopes.entryOf? callee.number = some entry)
    (hr : (w.findings package (parse tokens).1).results.find? c.number = some r) (hknown : r ≠ .unknown) :
    let tree := (parse tokens).1
    ∃ p ∈ tree.nodes, isProcedure p ∧ (w.findings package tree).procedureResults.find? p.number = some r ∧
      ∃ earlier later, story w.scopes tree.root = earlier ++ .called c.number entry :: later ∧
      ∃ front x back target, links w.scopes entry = front ++ x :: back ∧ GivenLast earlier target x (.procedure p.number) ∧
        ∀ es, Reaches w tree.root c.number entry es →
          (holds w.scopes es entry = some (.procedure p.number) ↔
            .given target x (.procedure p.number) ∈ es ∧ ∀ y ∈ front, held es y = none) := by
  intro tree
  have hfile : tree.FormedFile := Grammar.parse_formedFile tokens
  obtain ⟨as, hw⟩ := SyntaxTree.mem_nodes_iff.mp hc
  obtain ⟨hcalls, earlier, later, hstory, hlater⟩ := exists_called hfile hw hk ((calleeOf?_eq hcallee hname).trans hentry)
  obtain ⟨k, hfollows, hfindings⟩ := advances_file hfile package hcalls
  have hnodup : (story w.scopes tree.root).Nodup := (Running.nodup_story hfile.formed hfile.nodup).of_map _
  have hprepared : Running.Prepared (story w.scopes tree.root) := Running.prepared_story hfile.formed
  rw [hstory] at hfollows hnodup hprepared
  -- what the table has for the name
  have htable : ∀ p, w.procedureOf? (earlier.foldl Mark.turn .empty) entry = some p → ∃ front x back target,
      links w.scopes entry = front ++ x :: back ∧ GivenLast earlier target x (.procedure p) ∧ .made p ∈ earlier := by
    intro p hp
    rw [Running.procedureOf?_eq] at hp
    obtain ⟨front, x, back, hlinks, hx, -⟩ := List.findSome?_eq_some_iff.mp hp
    obtain ⟨target, hlast⟩ := Running.givenLast_of_find? hx
    have hm : .given target x (.procedure p) ∈ earlier := by
      obtain ⟨_, _, he, -⟩ := hlast
      rw [he]
      simp
    exact ⟨front, x, back, target, hlinks, hlast, hprepared.made_mem hnodup hm⟩
  have hresult := result_of_call hfollows hlater fun p hp hin => by
    obtain ⟨_, _, _, _, -, -, hmade⟩ := htable p hp
    rw [List.nodup_append] at hnodup
    exact hnodup.2.2 _ hmade _ (List.mem_cons_of_mem _ hin) rfl
  rw [hfindings, hr, Option.some.injEq] at hresult
  cases hp : w.procedureOf? (earlier.foldl Mark.turn .empty) entry with
  | none => exact absurd (by rw [hresult, hp]; rfl) hknown
  | some number =>
    rw [hp, Option.bind_some] at hresult
    have hfound : (w.findings package tree).procedureResults.find? number = some r := by
      cases hf : (w.findings package tree).procedureResults.find? number with
      | none => exact absurd (by rw [hresult, hf]; rfl) hknown
      | some found => rw [hresult, hf]; rfl
    obtain ⟨front, x, back, target, hlinks, hlast, hmade⟩ := htable number hp
    have hmade' : .made number ∈ story w.scopes tree.root := by rw [hstory]; exact List.mem_append_left _ hmade
    obtain ⟨p, bs, hway, hprocedure, rfl⟩ := Running.exists_of_made hfile.formed hmade'
    refine ⟨p, SyntaxTree.mem_nodes_iff.mpr ⟨bs, hway⟩, hprocedure, hfound, earlier, later, hstory, front, x, back, target,
      hlinks, hlast, fun es hes => ?_⟩
    exact Running.holds_iff hnodup hprepared (List.sublist_append_left _ _) hlast hlinks (hes.sublist hstory hnodup)

/-- `f << _proc() _endproc`, then `_if x _then f << _proc() >> 1 _endproc _endif`, then `f()` -/
def givenInBranch : List Token :=
  [.name "f" 1 1, ⟨.chevron, "<<", 1, 3⟩, .word .kwProc 1 6, ⟨.leftParen, "(", 1, 11⟩,
    ⟨.rightParen, ")", 1, 12⟩, .word .kwEndProc 1 14, .word .kwIf 2 1,
    .name "x" 2 5, .word .kwThen 2 7, .name "f" 2 13, ⟨.chevron, "<<", 2, 15⟩,
    .word .kwProc 2 18, ⟨.leftParen, "(", 2, 23⟩, ⟨.rightParen, ")", 2, 24⟩, ⟨.emit, ">>", 2, 26⟩,
    ⟨.integer 1, "1", 2, 29⟩, .word .kwEndProc 2 31, .word .kwEndIf 2 40,
    .name "f" 3 1, ⟨.leftParen, "(", 3, 2⟩, ⟨.rightParen, ")", 3, 3⟩, ⟨.endOfFile, "", 4, 1⟩]

/-- The call has the result of the procedure in the branch, and there are paths on which the name has that and
    paths on which it does not. -/
theorem call_on_paths_givenInBranch :
    let tree := (parse givenInBranch).1
    let w : World := ⟨.build tree, .empty⟩
    let f := w.findings systemPackage tree
    ∃ c ∈ tree.nodes, c.kind = .call ∧ f.results.find? c.number = some (.ofType .integer) ∧
      ∃ p ∈ tree.nodes, isProcedure p ∧ f.procedureResults.find? p.number = some (.ofType .integer) ∧
      ∃ es es', Reaches w tree.root c.number 0 es ∧ Reaches w tree.root c.number 0 es' ∧
        holds w.scopes es 0 = some (.procedure p.number) ∧ holds w.scopes es' 0 ≠ some (.procedure p.number) := by
  intro tree w f
  let part (n : Node) (i : Nat) : Node := (n.child? i).getD n
  let first := part tree.root 0
  let choice := part tree.root 1
  let branch := part choice 0
  let body := part branch 1
  let second := part body 0
  let call := part tree.root 2
  have hnode : call ∈ tree.nodes ∧ call.kind = .call ∧ f.results.find? call.number = some (.ofType .integer) := by
    decide +kernel
  have hcallee : call.children.head? = some (part call 0) ∧ (part call 0).kind = .identifier "f" ∧
      w.scopes.entryOf? (part call 0).number = some 0 := by decide +kernel
  obtain ⟨p, hp, hprocedure, hfound, -⟩ := call_on_paths w systemPackage hnode.1 hnode.2.1 hcallee.1 hcallee.2.1
    hcallee.2.2 hnode.2.2 (by decide)
  have hnumber : ∀ q ∈ tree.nodes, f.procedureResults.find? q.number = some (.ofType .integer) → q.number = 11 := by
    decide +kernel
  -- a name, a procedure and a name that is given it
  have hname (n : Node) (hk : inOrder n.kind ∧ departs w n = false ∧ n.children = [] ∧ own w.scopes n = []) :
      Goes w n [] .through := .through hk.1 hk.2.1 hk.2.2.1 .nil hk.2.2.2
  have hgiven (n : Node) (es : List Mark) (hk : inOrder n.kind ∧ departs w n = false ∧ n.children = [part n 0, part n 1])
      (hn : inOrder (part n 0).kind ∧ departs w (part n 0) = false ∧ (part n 0).children = [] ∧
        own w.scopes (part n 0) = [])
      (hp : (part n 1).kind.isDefinition) (he : own w.scopes (part n 1) ++ [] ++ own w.scopes n = es) :
      Goes w n es .through :=
    .through hk.1 hk.2.1 hk.2.2 (.cons (hname _ hn) (.cons (.defined hp) .nil)) he
  have hfirst : Goes w first [.made 3, .given 0 0 (.procedure 3)] .through := by apply hgiven <;> decide +kernel
  have hsecond : Goes w second [.made 11, .given 6 0 (.procedure 11)] .through := by apply hgiven <;> decide +kernel
  have hcondition : Goes w (part branch 0) [] .through := hname _ (by decide +kernel)
  have hbody : Goes w body [.made 11, .given 6 0 (.procedure 11)] .through :=
    .through (by decide +kernel) (by decide +kernel) (by decide +kernel) (.cons hsecond .nil) (by decide +kernel)
  have hcall : Goes w call [.called call.number 0] .through :=
    .through (by decide +kernel) (by decide +kernel) (by decide +kernel)
      (.cons (hname (part call 0) (by decide +kernel)) .nil) (by decide +kernel)
  have hfile (es : List Mark) (h : GoesBranches w choice.children es .through) :
      Reaches w tree.root call.number 0 ([.made 3, .given 0 0 (.procedure 3)] ++ es) := by
    have ho : own w.scopes tree.root = [] := by decide +kernel
    refine ⟨[], .through, .through (by decide +kernel) (by decide +kernel) (by decide +kernel)
      (.cons hfirst (.cons (.conditional (by decide +kernel) h) (.cons hcall .nil))) ?_⟩
    simp [ho]
  have hchoice : choice.children = [branch] ∧ branch.kind = .branch ∧ branch.children = [part branch 0, body] := by
    decide +kernel
  rw [hchoice.1] at hfile
  have htaken : GoesEach w branch.children [.made 11, .given 6 0 (.procedure 11)] .through := by
    rw [hchoice.2.2]
    exact .cons hcondition (.cons hbody .nil)
  have hthere := hfile _ (.taken (Or.inl hchoice.2.1) htaken)
  have hbeside := hfile _ (.denied hchoice.2.1 hchoice.2.2 hcondition .nil)
  refine ⟨call, hnode.1, hnode.2.1, hnode.2.2, p, hp, hprocedure, hfound, _, _, hthere, hbeside, ?_⟩
  rw [hnumber p hp hfound]
  decide +kernel

end World

end Magik
