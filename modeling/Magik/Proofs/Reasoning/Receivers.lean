/-
  Magik.Proofs.Reasoning.Receivers — the stand-in for the receiver never gets out.

  A definition may say that a method answers its receiver, and the reasoning knows the
  receiver by a stand-in until it knows its types. If neither globals nor operators have the
  stand-in, the receiver is named only inside of methods and no doc line names it, then
  nothing that is found holds the stand-in (`findings_grounded`).

  A name could still bring it in, by being read as the name of a type: `_self` is how the
  stand-in is spelled. But names start with a letter or an exclamation mark (`Spelled`), both
  where they are scanned and in the tree, and no letter is a blank that reading a type would
  take away.
-/

import Magik.Proofs.Grammar.Lockstep
import Magik.Proofs.Grammar.Totality
import Magik.Proofs.Reasoning.Obtained
import Magik.Proofs.Scope.Representation
import Magik.Proofs.Types.Spelling

namespace Magik

/-! ## How names are spelled -/

/-- A text that starts as names do. -/
def Spelled (name : String) : Prop := ∃ c cs, name.toList = c :: cs ∧ (Text.isLetter c || c = '!') = true

namespace Text

/-- The code points of the blanks. -/
def blanks : List Nat :=
  [0x09, 0x0A, 0x0B, 0x0C, 0x0D, 0x20, 0x85, 0xA0, 0x1680, 0x2000, 0x2001, 0x2002, 0x2003, 0x2004, 0x2005, 0x2006, 0x2007,
    0x2008, 0x2009, 0x200A, 0x2028, 0x2029, 0x202F, 0x205F, 0x3000]

theorem mem_blanks {c : Char} (h : isBlank c) : c.toNat ∈ blanks := by
  simp only [isBlank, Bool.or_eq_true, Bool.and_eq_true, decide_eq_true_eq, beq_iff_eq] at h
  simp only [blanks, List.mem_cons, List.not_mem_nil, or_false]
  omega

/-- No letter is a blank. -/
theorem isLetter_of_isBlank {c : Char} (h : isBlank c) : isLetter c = false := by
  have hall : ∀ n ∈ blanks, isLetter (Char.ofNat n) = false := by decide +kernel
  have hc := hall c.toNat (mem_blanks h)
  rwa [Char.ofNat_toNat] at hc

end Text

theorem Spelled.parse_ne_receiver {name : String} (h : Spelled name) (package : Option String) :
    TypeName.parse name package ≠ .receiver := by
  obtain ⟨c, cs, hname, hc⟩ := h
  have hblank : Text.isBlank c = false := by
    by_contra hb
    rw [Bool.not_eq_false] at hb
    have hmark : c ≠ '!' := by
      rintro rfl
      revert hb
      decide
    simp [Text.isLetter_of_isBlank hb, hmark] at hc
  have hunderscore : c ≠ '_' := by
    rintro rfl
    revert hc
    decide
  have hhead : (Text.trim (c :: cs)).head? = some c := Text.head?_trim hblank
  rw [TypeName.parse, hname, TypeName.ofChars]
  split
  · simp
  · split
    · rename_i hself
      rcases hself with hself | hself <;>
      · rw [hself] at hhead
        exact absurd (Option.some.inj hhead).symm hunderscore
    · split <;> simp

theorem Spelled.candidates_ne_receiver {name package : String} (h : Spelled name) {t : TypeName}
    (ht : t ∈ World.candidates package name) : t ≠ .receiver := by
  unfold World.candidates at ht
  split at ht
  · rw [List.mem_singleton.mp ht]
    exact h.parse_ne_receiver _
  · rcases List.mem_cons.mp ht with rfl | ht
    · exact h.parse_ne_receiver _
    · split at ht
      · cases ht
      · rw [List.mem_singleton.mp ht]
        simp [TypeName.system]

/-! ## Names that are scanned -/

namespace Token

/-- Identifiers are spelled as names are. -/
def NamesSpelled (tokens : List Token) : Prop := ∀ t ∈ tokens, t.kind = .identifier → Spelled t.lexeme

theorem namesSpelled_of_scanFrom {place : Position} {text : List Char} {tokens : List Token}
    (h : scanFrom place text = .ok tokens) : NamesSpelled tokens :=
  Grammar.forall_of_scanFrom (by simp) (by simp)
    (fun first rest _ n _ _ hk he => ⟨first, rest.take n, String.toList_ofList, (Grammar.emitted_scanToken hk).identifier he⟩) h

end Token

/-! ## Names in the tree -/

namespace Grammar

theorem splits_self {f : Fork} (hf : f.Same) {words : List Word} (h : ∀ w ∈ words, f.SameToken w.token w.token) :
    f.Splits words words := by
  induction words with
  | nil => exact .done hf
  | cons w words ih =>
    exact .word (h w (.head _)) rfl (fun _ => hf) (fun _ => hf) (ih fun v hv => h v (.tail _ hv))

theorem names_parse {tokens : List Token} (h : Token.NamesSpelled tokens) : (parse tokens).1.root.Names Spelled := by
  have hsplits : (Fork.layouts Eq (fun h h' => by rw [h, h']) Spelled (attachDocs [] tokens).length).Splits
      (attachDocs [] tokens) (attachDocs [] tokens) := by
    refine splits_self (by exact rfl) fun w hw => ⟨rfl, rfl, rfl, fun hk => ?_, fun hp => by cases hp⟩
    exact h w.token ((attachDocs_sublist [] tokens).subset (List.mem_map_of_mem hw)) hk
  rcases parse_layouts hsplits with ⟨e, he⟩ | ⟨-, -, hnames, -⟩
  · rw [parse, he]
    exact Node.names_of_children (by simp [Node.Kind.names]) (by simp)
  · exact hnames

end Grammar

/-! ## What is found -/

/-- The entries of a file have the names that its nodes bring in. -/
theorem ScopeTree.spelled_entries {tree : SyntaxTree} (h : tree.FormedFile) (hn : tree.root.Names Spelled) {x : Nat} {e : Entry}
    (he : (build tree).entryAt? x = some e) : Spelled e.name := by
  obtain ⟨m, as, hw, -, hname⟩ := (represented_build h).filed.declared he
  exact hn m as hw e.name hname

/-- The stand-in is in no set of the world: what a method answers gets it replaced. -/
theorem World.supplies_grounded {w : World} (hg : ∀ t s, w.definitions.global? t = some s → s.Grounded)
    (ho : ∀ symbol l r s, w.definitions.operator? symbol l r = some s → s.Grounded)
    (he : ∀ x e, w.scopes.entryAt? x = some e → Spelled e.name) : w.Supplies TypeSet.Grounded where
  global h := hg _ _ h
  operator h := ho _ _ _ _ h
  method _ s _ _ hr := TypeSet.grounded_withReceiver hr s
  exemplar h ht := TypeSet.grounded_single.mpr ((he _ _ h).candidates_ne_receiver ht)

/-- In a text that names the receiver only inside of methods, and in no doc line of a
    parameter, nothing that is found holds the stand-in for the receiver, if the globals and
    operators of the definitions do not. -/
theorem Analysis.findings_grounded {id : Nat} {definitions : Definitions} {options : AnalysisOptions} {text : String}
    {a : Analysis} (ha : ofText id definitions options text = .ok a)
    (hglobals : ∀ t s, definitions.global? t = some s → s.Grounded)
    (hoperators : ∀ symbol l r s, definitions.operator? symbol l r = some s → s.Grounded)
    (hself : a.tree.root.NamesOwnReceiver)
    (hdoc : ∀ n ∈ a.tree.nodes, ∀ name s, n.kind.typeDoc.parameter? name = some s → s.Grounded) :
    a.findings.All TypeSet.Grounded := by
  unfold ofText at ha
  split at ha
  · rename_i tokens hscan
    cases ha
    have hfile := Grammar.parse_formedFile tokens
    have hnames := Grammar.names_parse (Token.namesSpelled_of_scanFrom hscan)
    have hsupplies : World.Supplies ⟨ScopeTree.build (Grammar.parse tokens).1, definitions⟩ TypeSet.Grounded :=
      World.supplies_grounded hglobals hoperators fun x e => ScopeTree.spelled_entries hfile hnames
    refine World.findings_all hfile TypeSet.closed_grounded hsupplies ⟨fun {m as} hw => ?_, fun {m as header} hw hk package t ht => ?_⟩
      (Or.inr hself) options.package
    · exact hdoc m (SyntaxTree.mem_nodes_iff.mpr ⟨as, hw⟩)
    · have hspelled : Spelled header.exemplar := hnames m as hw _ (by simp [hk, Node.Kind.names])
      exact TypeSet.grounded_single.mpr (hspelled.candidates_ne_receiver ht)
  · cases ha

/-! A method that answers a copy of its receiver: with the built-in definitions the copy is of
the receiver's type, as these say with the stand-in. -/

def copyText : String := "_method object.b(p)\n## @param \x7binteger\x7d p\n_return _self.copy()\n_endmethod"

def copyTokens : List Token := (Token.scan copyText).toOption.getD []

theorem Analysis.copy_grounded :
    let a := ofTokens 0 Definitions.builtIn .standard copyTokens
    (∃ m, Definitions.builtIn.methods.find? (.object, "copy") = some m ∧ m.result = .single (.single .receiver)) ∧
      ofText 0 Definitions.builtIn .standard copyText = .ok a ∧ a.tree.root.NamesOwnReceiver ∧
      a.findings.All TypeSet.Grounded := by
  intro a
  have hscan : Token.scan copyText = .ok copyTokens := by decide +kernel
  have htext : ofText 0 Definitions.builtIn .standard copyText = .ok a := by simp only [ofText, hscan, a]
  have hself : a.tree.root.NamesOwnReceiver := by
    have hall : ∀ n ∈ a.tree.nodes, n.kind.isReceiver = true →
        (a.tree.ancestors n.number).any fun b => b.kind matches .method _ := by decide +kernel
    intro m as hw hm
    have hany := hall m (SyntaxTree.mem_nodes_iff.mpr ⟨as, hw⟩) hm
    have has : a.tree.ancestors m.number = as := (Grammar.parse_formedFile copyTokens).ancestors_of_way hw
    rw [has, List.any_eq_true] at hany
    obtain ⟨b, hb, hk⟩ := hany
    refine ⟨b, hb, ?_⟩
    split at hk
    · exact ⟨_, by assumption⟩
    · cases hk
  have hglobals : Definitions.builtIn.globals.All TypeSet.Grounded := by
    unfold Table.All TypeSet.Grounded
    decide +kernel
  have hoperators : Definitions.builtIn.operators.All TypeSet.Grounded := by
    unfold Table.All TypeSet.Grounded
    decide +kernel
  have hdoc : ∀ n ∈ a.tree.nodes, n.kind.typeDoc.parameters.All TypeSet.Grounded := by
    unfold Table.All TypeSet.Grounded
    decide +kernel
  refine ⟨⟨_, rfl, rfl⟩, htext, hself, findings_grounded htext (fun _ _ h => hglobals.find? h) (fun _ _ _ _ h => hoperators.find? h) hself
    fun n hn _ _ h => (hdoc n hn).find? h⟩

end Magik
