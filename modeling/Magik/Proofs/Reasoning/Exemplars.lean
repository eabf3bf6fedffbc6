/-
  Magik.Proofs.Reasoning.Exemplars — names of exemplars read as their exemplars.

  Nothing is believed of a global that the file neither declares nor assigns, as long as no
  condition names it, so it reads as what the symbols say of it. Beliefs begin anew with
  every method: to a method only its own conditions matter, to other items those of the
  items before them, too.
-/

import Magik.Proofs.Grammar.WellFormed
import Magik.Proofs.Narrowing.Naming
import Magik.Proofs.Reasoning.Appending
import Magik.Proofs.Reasoning.Keeping
import Magik.Proofs.Reasoning.Reaching
import Magik.Proofs.Reasoning.Reads
import Magik.Proofs.Scope.Globals

namespace Magik

open Node (Way)
open ScopeTree (OnlyRead)

namespace Node

def isMethod (n : Node) : Bool :=
  match n.kind with
  | .method _ => true
  | _ => false

theorem isMethod_iff {n : Node} : n.isMethod ↔ ∃ header, n.kind = .method header := by
  unfold isMethod
  split
  · rename_i header hk
    exact iff_of_true rfl ⟨header, hk⟩
  · rename_i hk
    exact iff_of_false Bool.false_ne_true fun ⟨header, he⟩ => hk header he

end Node

namespace World

variable {tree : SyntaxTree} {definitions : Definitions} {item : Node} {x : Nat} {e : Entry} {around : Around}
  {name : String} {w : World}

/-! ## Entries that are left alone -/

theorem not_given_of_onlyRead (h : tree.FormedFile) (hx : OnlyRead tree x) {m c : Node} {as : List Node}
    (hw : Way tree.root m as) (hc : c ∈ m.given) : (ScopeTree.build tree).entryOf? c.number ≠ some x := by
  intro hentry
  unfold Node.given at hc
  split at hc
  · rename_i hk
    have hwc := Way.child hw (List.dropLast_subset _ hc)
    have hread := hx c (SyntaxTree.mem_nodes_iff.mpr ⟨_, hwc⟩) hentry
    exact hread.2.2 ((ScopeTree.mem_targets_iff h hwc).mpr ⟨m, as, rfl, hk, hc⟩)
  · split at hc
    · rename_i hdeclared
      rw [List.mem_singleton.mp hc] at hentry
      obtain ⟨-, ⟨name, hname⟩, -⟩ := hx m (SyntaxTree.mem_nodes_iff.mpr ⟨_, hw⟩) hentry
      simp [Node.declaredName?, hname] at hdeclared
    · cases hc

theorem inner_item (h : tree.FormedFile) (hi : item ∈ tree.root.children) (hk : ∀ name, item.kind ≠ .package name) :
    item.Inner :=
  ⟨h.formed.child hi, h.formed.layout.ne_file hi, hk _⟩

theorem ungiven_of_onlyRead (h : tree.FormedFile) (hi : item ∈ tree.root.children) (hk : ∀ name, item.kind ≠ .package name)
    (he : (ScopeTree.build tree).entryAt? x = some e) (hg : e.kind = .global) (hx : OnlyRead tree x) :
    Ungiven ⟨ScopeTree.build tree, definitions⟩ x item where
  given hw hc := not_given_of_onlyRead h hx (hw.under hi) hc
  caught hw _ := find?_handlerFlow_of_ne (fun body hb s name ho =>
    ScopeTree.entryIn?_ne_of_onlyRead h he hg hx (.child (hw.under hi) hb) (by simp) ho) _ _
  noPackage hw := ((inner_item h hi hk).below hw).package

section

variable {w : World} {package : String} {n : Node} (hu : w.Ungiven x item)
include hu

theorem aloof_of_ungiven (hc : ∀ c ∈ item.conditions, x ∉ w.namedBy package c) : w.Aloof package x item := by
  refine ⟨hu, fun {_ c _} hw ht k hk => ?_⟩
  rw [entries_restriction, hk]
  exact hc c (Node.mem_conditions hw ht)

/-- If no condition before a name is about the entry, nothing that stands before it is. -/
theorem until_of_ungiven (hc : ∀ c ∈ item.conditions, item.Before c n → x ∉ w.namedBy package c) :
    Until (w.upkeep package x) n item := by
  refine ⟨rfl, fun {p a b _} hp hs hb => ?_, fun {p a b _ k} hp hs hb ht hk => ?_, fun {_ _ _ κ _ _} hp _ hk =>
    (congrArg κ.1 (hu.caught hp hk)).mpr⟩
  · have ha : Way item a _ := .child hp (hs.subset (by simp))
    refine aloof_of_ungiven (hu.below ha) fun c hca => ?_
    obtain ⟨d, hd, ht⟩ := List.mem_filterMap.mp hca
    obtain ⟨_, hd⟩ := Node.mem_withDescendants_iff.mp hd
    have hmem := (Way.child hd (Node.mem_children_of_tested? ht)).mem_withDescendants
    exact hc c (Node.mem_conditions (ha.trans hd) ht) ⟨p, _, a, b, hp, hs, hmem, hb⟩
  · show x ∉ (w.restriction k a).entries
    rw [entries_restriction, hk]
    exact hc a (Node.mem_conditions hp ht) ⟨p, _, a, b, hp, hs, Way.root.mem_withDescendants, hb⟩

end

/-! ## Items -/

/-- The package in force after an item. -/
def packageOf (package : String) (item : Node) : String :=
  match item.kind with
  | .package name => name
  | _ => package

def packageAfter (package : String) (items : List Node) : String := items.foldl packageOf package

theorem packageAfter_cons (package : String) (item : Node) (items : List Node) :
    packageAfter package (item :: items) = packageAfter (packageOf package item) items := rfl

theorem reasons_item (h : tree.FormedFile) (hi : item ∈ tree.root.children) (w : World) (around : Around) :
    Reasons w around item (w.reason around item) := by
  have hlayout := h.formed.layout
  rw [h.file] at hlayout
  exact ruled_of_formed (h.formed.child hi) (Node.Kind.isReasoned_of_isItem (hlayout.items item hi)) around

theorem reason_package (hf : item.Formed) (hk : item.kind = .package name) (w : World) (m : Moment) :
    (w.reason around item m).2.flow = m.flow ∧ (w.reason around item m).2.memory.package = name := by
  have hleaf : item.children = [] := hf.layout.eq_nil_of_isLeaf (hk ▸ rfl)
  obtain ⟨number, kind, span, children⟩ := item
  dsimp only at hk hleaf
  subst hk hleaf
  rw [reason]
  exact ⟨rfl, rfl⟩

section

variable (h : tree.FormedFile) {items : List Node}
include h

/-- Only a package line changes the package in force. -/
theorem package_reason (hi : item ∈ tree.root.children) (hk : ∀ name, item.kind ≠ .package name)
    (w : World) (around : Around) (m : Moment) : (w.reason around item m).2.memory.package = m.memory.package :=
  (reasons_item h hi w around).keeps (inner_item h hi hk) m

theorem packageOf_reason (hi : item ∈ tree.root.children) (w : World) (around : Around) (m : Moment) :
    (w.reason around item m).2.memory.package = packageOf m.memory.package item := by
  unfold packageOf
  split
  · rename_i name hk
    exact (reason_package (h.formed.child hi) hk _ m).2
  · rename_i hk
    exact package_reason h hi hk _ around m

theorem package_reasonEach (hi : ∀ item ∈ items, item ∈ tree.root.children) (w : World) (around : Around) (m : Moment) :
    (w.reasonEach around items m).2.memory.package = packageAfter m.memory.package items := by
  induction items generalizing m with
  | nil => rw [reasonEach_nil, packageAfter, List.foldl_nil]
  | cons item items ih =>
    rw [reasonEach_cons, ih (fun it hit => hi it (List.mem_cons_of_mem _ hit)), packageOf_reason h (hi item (by simp)),
      packageAfter_cons]

/-- What is believed outside is what it was, after a method. -/
theorem flow_reason_method (hi : item ∈ tree.root.children) (hm : item.isMethod) (w : World)
    (around : Around) (m : Moment) : (w.reason around item m).2.flow = m.flow := by
  obtain ⟨header, hk⟩ := Node.isMethod_iff.mp hm
  exact (reasons_item h hi w around).flow_of_isDefinition (hk ▸ rfl) m

/-- Nothing is believed of an entry after an item that is aloof from it. -/
theorem believed_reason (hi : item ∈ tree.root.children) (w : World) (around : Around) (m : Moment)
    (hm : m.flow.believed.find? x = none)
    (ha : item.isMethod = false → (∀ name, item.kind ≠ .package name) → w.Aloof m.memory.package x item) :
    (w.reason around item m).2.flow.believed.find? x = none := by
  by_cases hpackage : ∃ name, item.kind = .package name
  · obtain ⟨name, hk⟩ := hpackage
    rw [(reason_package (h.formed.child hi) hk _ m).1]
    exact hm
  cases hmethod : item.isMethod with
  | true =>
    rw [flow_reason_method h hi hmethod]
    exact hm
  | false => exact (reasons_item h hi w around).upholds (ha hmethod (not_exists.mp hpackage)) standing_none m rfl hm

/-- Nothing is believed of an entry after items that are aloof from it. -/
theorem believed_reasonEach (hi : ∀ item ∈ items, item ∈ tree.root.children) (w : World) (around : Around)
    (m : Moment) (hm : m.flow.believed.find? x = none)
    (ha : ∀ before item after, items = before ++ item :: after → item.isMethod = false →
      (∀ name, item.kind ≠ .package name) → w.Aloof (packageAfter m.memory.package before) x item) :
    (w.reasonEach around items m).2.flow.believed.find? x = none := by
  induction items generalizing m with
  | nil =>
    rw [reasonEach_nil]
    exact hm
  | cons item items ih =>
    have hitem := hi item (by simp)
    rw [reasonEach_cons]
    refine ih (fun it hit => hi it (.tail _ hit)) _ ?_ fun before it after heq => ?_
    · exact believed_reason h hitem w around m hm (ha [] item items rfl)
    · rw [packageOf_reason h hitem]
      exact ha (item :: before) it after (by rw [heq, List.cons_append])

/-- What is found in an item is found when the items before it have been gone through. -/
theorem results_item {earlier later : List Node} (hitems : tree.root.children = earlier ++ item :: later) {j : Nat}
    (hj : j ∈ item.numbers) (w : World) (package : String) :
    (w.findings package tree).results.find? j = (w.reason (Around.file.within tree.root.number tree.root.kind) item
      (w.reasonEach (Around.file.within tree.root.number tree.root.kind) earlier
        ⟨.start, .start package⟩).2).2.memory.findings.results.find? j := by
  rw [results_findings, after, hitems, reasonEach_append, reasonEach_cons]
  refine touches_reasonEach w later _ _ j fun hm => ?_
  have hnodup := Node.nodup_children h.nodup
  rw [hitems, Node.numbersAll_append, Node.numbersAll_cons] at hnodup
  exact (List.nodup_append.mp (List.nodup_append.mp hnodup).2.1).2.2 j hj j hm rfl

end

/-! ## Exemplars -/

theorem entryTypes_exemplar {package : String} {type : TypeName} (he : w.scopes.entryAt? x = some e)
    (hg : e.kind = .global)
    (hfirst : (candidates package e.name).find? (fun t => (w.candidateTypes? t).isSome) = some type)
    (hexemplar : (w.definitions.exemplar? type).isSome) : w.entryTypes package .start x = .single type := by
  have hglobal : w.globalTypes package e.name = .single type := by
    rw [globalTypes, findSome?_of_find? hfirst, candidateTypes?, if_pos hexemplar, Option.getD_some]
  simp [entryTypes, Flow.start, Table.find?_empty, he, hg, hglobal]

theorem results_identifier {n : Node} (hf : n.Formed) (hk : n.kind = .identifier name)
    (hx : w.scopes.entryOf? n.number = some x) (around : Around) (m : Moment) :
    (w.reason around n m).2.memory.findings.results.find? n.number =
      some (.single (w.entryTypes m.memory.package m.flow x)) := by
  have hleaf : n.children = [] := hf.layout.eq_nil_of_isLeaf (hk ▸ rfl)
  obtain ⟨number, kind, span, children⟩ := n
  dsimp only at hk hleaf hx
  subst hk hleaf
  rw [reason, readName, hx]
  exact Table.find?_insert_self _ _ _

/-- A global that the file neither declares nor assigns, and that is an exemplar, reads as
    that exemplar if no condition before the name restricts it. -/
theorem results_exemplar (tokens : List Token) (definitions : Definitions) (package : String) {earlier later : List Node}
    {item n : Node} {type : TypeName} :
    let tree := (Grammar.parse tokens).1
    let w : World := ⟨ScopeTree.build tree, definitions⟩
    tree.root.children = earlier ++ item :: later → n ∈ item.withDescendants → w.scopes.entryOf? n.number = some x →
    w.scopes.entryAt? x = some e → e.kind = .global → OnlyRead tree x →
    (candidates (packageAfter package earlier) e.name).find? (fun t => (w.candidateTypes? t).isSome) = some type →
    (definitions.exemplar? type).isSome →
    (∀ c ∈ item.conditions, item.Before c n → x ∉ w.namedBy (packageAfter package earlier) c) →
    (item.isMethod = false → ∀ before it after, earlier = before ++ it :: after → it.isMethod = false →
      ∀ c ∈ it.conditions, x ∉ w.namedBy (packageAfter package before) c) →
    (w.findings package tree).results.find? n.number = some (.single (.single type)) := by
  intro tree w hitems hn hentry he hg hx hfirst hexemplar hown hearlier
  have h : tree.FormedFile := Grammar.parse_formedFile tokens
  have hi : ∀ it ∈ earlier ++ item :: later, it ∈ tree.root.children := fun it hit => hitems ▸ hit
  have hi' : ∀ it ∈ earlier, it ∈ tree.root.children := fun it hit => hi it (List.mem_append_left _ hit)
  have hitem : item ∈ tree.root.children := hi item (by simp)
  let around := Around.file.within tree.root.number tree.root.kind
  let m := (w.reasonEach around earlier ⟨.start, .start package⟩).2
  have hp : m.memory.package = packageAfter package earlier := package_reasonEach h hi' w around ⟨.start, .start package⟩
  obtain ⟨as, hw⟩ := Node.mem_withDescendants_iff.mp hn
  have hread := hx n (SyntaxTree.mem_nodes_iff.mpr ⟨_, hw.under hitem⟩) hentry
  obtain ⟨name, hname⟩ := hread.2.1
  have hk : ∀ name, item.kind ≠ .package name := by
    intro _ hk
    have hleaf := (h.formed.child hitem).layout.eq_nil_of_isLeaf (by rw [hk]; rfl)
    rcases Node.mem_withDescendants_cases hn with rfl | ⟨c, hc, -⟩
    · cases hk.symm.trans hname
    · rw [hleaf] at hc
      cases hc
  have hungiven : w.Ungiven x item := ungiven_of_onlyRead h hitem hk he hg hx
  have hu : Until (w.upkeep (packageAfter package earlier) x) n item := until_of_ungiven hungiven hown
  have hgiven : ∀ d ∈ item.withDescendants, ∀ t ∈ d.given, t.number ≠ n.number := fun d hd t ht heq =>
    let ⟨_, hwd⟩ := Node.mem_withDescendants_iff.mp hd
    hungiven.given hwd ht (heq ▸ hentry)
  have hf : item.Formed := h.formed.child hitem
  obtain ⟨inner, k, hcomes⟩ := exists_comes hf (reasons_item h hitem w around).isReasoned hn (by rw [hname]; rfl)
    (fun d hd hm => hgiven d hd n hm rfl) around m
  have hclear : (w.upkeep (packageAfter package earlier) x).Holds (w.upkeep (packageAfter package earlier) x).fresh k := by
    cases hmethod : item.isMethod with
    | true =>
      -- Whatever was believed before a method does not matter in it.
      obtain ⟨header, hmk⟩ := Node.isMethod_iff.mp hmethod
      have hany : w.Standing (packageAfter package earlier) x fun _ => True := fun _ _ _ _ _ => trivial
      refine hcomes.holds hf hu (fun hno => ?_) (holds_upkeep hany hp trivial)
      rcases hno with hno | rfl
      · rw [hmk] at hno
        cases hno
      · cases hmk.symm.trans hname
    | false =>
      refine hcomes.holds hf hu (fun _ => rfl) (holds_upkeep standing_none hp ?_)
      refine believed_reasonEach h hi' w around ⟨.start, .start package⟩ rfl fun before it after heq hit hpackage => ?_
      exact aloof_of_ungiven (ungiven_of_onlyRead h (hi' it (by simp [heq])) hpackage he hg hx) (hearlier hmethod before it after heq hit)
  have hproper : Node.Proper [item] := .single hf (Node.nodup_of_mem (Node.nodup_children h.nodup) hitem)
  rw [results_item h hitems hw.number_mem]
  refine (hcomes.found hproper n.number_mem_numbers fun d hd _ => hgiven d hd).trans ?_
  rw [results_identifier (hw.formed hf) hname hentry, entryTypes_of_none hclear.flow.flow, hclear.memory.package,
    entryTypes_exemplar he hg hfirst hexemplar]

/-! A test for unset does not keep `integer` from being the exemplar, in any package. -/

def unsetTestTokens : List Token :=
  [.word .kwMethod 1 1, .name "a" 1 9, ⟨.dot, ".", 1, 10⟩, .name "b" 1 11,
    ⟨.leftParen, "(", 1, 12⟩, .name "p" 1 13, ⟨.rightParen, ")", 1, 14⟩, .word .kwIf 2 1,
    .name "p" 2 5, .word .kwIs 2 7, .word .kwUnset 2 11,
    .word .kwThen 2 18, .name "integer" 2 24, .word .kwEndIf 2 32,
    .word .kwEndMethod 3 1, ⟨.endOfFile, "", 3, 11⟩]

def unsetTestMethod : Node :=
  ⟨10, .method ⟨"a", "b", false, false, false, []⟩, ⟨1, 1, 3, 10⟩,
    [⟨1, .parameterList, ⟨1, 13, 1, 14⟩, [⟨0, .parameter "p" .required, ⟨1, 13, 1, 13⟩, []⟩]⟩,
      ⟨9, .body, ⟨2, 1, 2, 37⟩, [⟨8, .conditional, ⟨2, 1, 2, 37⟩, [⟨7, .branch, ⟨2, 1, 2, 30⟩,
        [⟨4, .binary .identical, ⟨2, 5, 2, 16⟩,
          [⟨2, .identifier "p", ⟨2, 5, 2, 5⟩, []⟩, ⟨3, .literal .unset, ⟨2, 11, 2, 16⟩, []⟩]⟩,
          ⟨6, .body, ⟨2, 24, 2, 30⟩, [⟨5, .identifier "integer", ⟨2, 24, 2, 30⟩, []⟩]⟩]⟩]⟩]⟩]⟩

theorem results_integer_after_unset_test :
    let tree := (Grammar.parse unsetTestTokens).1
    let definitions := Definitions.empty.addExemplar (.system "integer") []
    tree.root.children = [unsetTestMethod] ∧ unsetTestMethod.conditions ≠ [] ∧
      (findings ⟨ScopeTree.build tree, definitions⟩ "user" tree).results.find? 5 =
        some (.single (.single (.system "integer"))) := by
  intro tree definitions
  have hitems : tree.root.children = [] ++ unsetTestMethod :: [] := by decide +kernel
  have hentry : (ScopeTree.build tree).entryOf? 5 = some 1 := by decide +kernel
  have hglobal : ((ScopeTree.build tree).entryAt? 1).map (fun e => (e.kind, e.name)) = some (.global, "integer") := by
    decide +kernel
  obtain ⟨e, hat, he⟩ := Option.map_eq_some_iff.mp hglobal
  obtain ⟨hk, hname⟩ := Prod.mk.inj he
  have hx : OnlyRead tree 1 := by decide +kernel
  have hc : ∀ c ∈ unsetTestMethod.conditions, 1 ∉ namedBy ⟨ScopeTree.build tree, definitions⟩ "user" c := by decide +kernel
  refine ⟨hitems, by decide +kernel, ?_⟩
  have hn : (⟨5, .identifier "integer", ⟨2, 24, 2, 30⟩, []⟩ : Node) ∈ unsetTestMethod.withDescendants := by decide +kernel
  exact results_exemplar unsetTestTokens definitions "user" hitems hn hentry hat hk hx (by rw [hname]; decide +kernel)
    (by decide +kernel) (fun c hmem _ => hc c hmem) (fun hmethod => by cases hmethod)

end World

end Magik
