/-
  Magik.Proofs.Reasoning.Obtained — every set of types there is is well-formed.

  Definitions hold sets that the operations made (`Definitions.Obtainable`): the built-in ones
  do, and loading a text adds no others (`obtainable_load`). Reasoning with such definitions
  records well-formed sets only, whatever the file.
-/

import Magik.Analysis
import Magik.Definitions.BuiltIn
import Magik.Definitions.Load
import Magik.Proofs.Grammar.Tracing
import Magik.Proofs.Reasoning.Recording

namespace Magik

/-! ## Doc lines -/

/-- Doc lines give parameters only sets that are read from text. -/
theorem TypeDoc.all_parameters {P : TypeSet → Prop} {package : String} (h : ∀ cs, P (.ofChars (some package) cs))
    (lines : List String) : (ofLines lines package).parameters.All P := by
  refine List.foldlRecOn (motive := fun doc : TypeDoc => doc.parameters.All P) lines _ Table.all_empty fun doc hd line _ => ?_
  unfold addLine
  dsimp only
  split
  · unfold addParameter
    split
    · split
      · exact hd
      · exact hd.insert (h _)
    · exact hd
  · split
    · split <;> exact hd
    · split
      · split <;> exact hd
      · exact hd

/-! ## Definitions -/

namespace Definitions

variable {d : Definitions}

/-- All sets were made by the operations. -/
structure Obtainable (d : Definitions) : Prop where
  globals : d.globals.All TypeSet.Obtainable
  operators : d.operators.All TypeSet.Obtainable
  methods : d.methods.All fun m => m.result.All TypeSet.Obtainable ∧ m.loopResult.All TypeSet.Obtainable

theorem obtainable_empty : empty.Obtainable := ⟨Table.all_empty, Table.all_empty, Table.all_empty⟩

namespace Obtainable

variable {d : Definitions} {s : TypeSet}

theorem addExemplar (h : d.Obtainable) (name : TypeName) (parents : List TypeName) : (d.addExemplar name parents).Obtainable :=
  ⟨h.globals, h.operators, h.methods⟩

theorem addCondition (h : d.Obtainable) (name : String) (parent : Option String) : (d.addCondition name parent).Obtainable :=
  ⟨h.globals, h.operators, h.methods⟩

theorem addMethod (h : d.Obtainable) {m : Method} (hr : m.result.All TypeSet.Obtainable)
    (hl : m.loopResult.All TypeSet.Obtainable) : (d.addMethod m).Obtainable :=
  ⟨h.globals, h.operators, h.methods.insert ⟨hr, hl⟩⟩

theorem addGlobal (h : d.Obtainable) (name : TypeName) (hs : s.Obtainable) : (d.addGlobal name s).Obtainable :=
  ⟨h.globals.insert hs, h.operators, h.methods⟩

theorem addOperator (h : d.Obtainable) (symbol : String) (left right : TypeName) (hs : s.Obtainable) :
    (d.addOperator symbol left right s).Obtainable :=
  ⟨h.globals, h.operators.insert hs, h.methods⟩

end Obtainable

theorem obtainable_results (text : Option String) : (results text).All TypeSet.Obtainable := by
  cases text with
  | none => exact Results.all_unknown
  | some text =>
    show (Results.parse text _).All _
    unfold Results.parse
    dsimp only
    split
    · exact Results.all_nothing
    · split
      · exact Results.all_unknown
      · intro s hs
        obtain ⟨cs, -, rfl⟩ := List.mem_map.mp hs
        exact .ofList _

theorem Obtainable.apply (h : d.Obtainable) (instruction : Instruction) : (d.apply instruction).Obtainable := by
  cases instruction with
  | «exemplar» name parents => exact h.addExemplar _ _
  | method type name parameters result loopResult => exact h.addMethod (obtainable_results _) (obtainable_results _)
  | global name type => exact h.addGlobal _ (.parse _ _)
  | condition name parent => exact h.addCondition _ _
  | operator symbol left right result => exact h.addOperator _ _ _ (.parse _ _)

theorem Obtainable.loadLines (h : d.Obtainable) (count line : Nat) (lines : List String) :
    (d.loadLines count line lines).1.Obtainable := by
  induction lines generalizing d count line with
  | nil => exact h
  | cons text lines ih =>
    rw [Definitions.loadLines]
    dsimp only
    split
    · exact ih h _ _
    · split
      · exact ih (h.apply _) _ _
      · exact h

theorem Obtainable.load (h : d.Obtainable) (text : String) : (d.load text).1.Obtainable := h.loadLines _ _ _

/-- A method that is found is one of the table. -/
theorem exists_find?_of_search {methods : Table (TypeName × String) Method} {name : String} {left : Table TypeName Exemplar}
    {queue : List TypeName} {m : Method} (h : search methods name left queue = some m) : ∃ t, methods.find? (t, name) = some m := by
  fun_induction search methods name left queue with
  | case1 => cases h
  | case2 left t rest m' hm => exact ⟨t, hm.trans h⟩
  | case3 left t rest _ e _ ih => exact ih h
  | case4 left t rest _ _ ih => exact ih h

theorem obtainable_ofType (t : TypeName) : (Results.ofType t).All TypeSet.Obtainable := Results.all_single (.single t)

theorem obtainable_builtInMethods :
    ∀ m ∈ builtInMethods, m.result.All TypeSet.Obtainable ∧ m.loopResult.All TypeSet.Obtainable := by
  have hmethods {type : TypeName} {element : TypeSet} (he : element.Obtainable) : ∀ m ∈ containerMethods type element,
      m.result.All TypeSet.Obtainable ∧ m.loopResult.All TypeSet.Obtainable := by
    simp [containerMethods, obtainable_ofType, Results.all_nothing, Results.all_single he]
  have hundefined : TypeSet.undefined.Obtainable := .ofList []
  simp only [builtInMethods, List.forall_mem_append]
  refine ⟨⟨⟨⟨⟨⟨?_, ?_⟩, ?_⟩, ?_⟩, hmethods (.single _)⟩, hmethods hundefined⟩, ?_⟩
  all_goals simp [obtainable_ofType, Results.all_nothing]

theorem obtainable_builtInOperators : ∀ o ∈ builtInOperators, o.2.2.2.Obtainable := by
  have hnumbers (left right result : TypeName) : ∀ o ∈ numberOperators left right result, o.2.2.2.Obtainable := by
    have hquotient : (TypeSet.ofList [.integer, .float]).Obtainable := .ofList _
    simp [numberOperators, TypeSet.Obtainable.single, hquotient]
  simp only [builtInOperators, List.forall_mem_append]
  refine ⟨⟨⟨⟨⟨hnumbers _ _ _, hnumbers _ _ _⟩, hnumbers _ _ _⟩, hnumbers _ _ _⟩, ?_⟩, ?_⟩
  all_goals simp [TypeSet.Obtainable.single]

theorem obtainable_builtIn : builtIn.Obtainable := by
  unfold builtIn
  dsimp only
  refine List.foldlRecOn _ _ ?_ fun d hd o ho => hd.addOperator _ _ _ (obtainable_builtInOperators o ho)
  refine List.foldlRecOn _ _ ?_ fun d hd name _ => hd.addGlobal _ (.single _)
  refine List.foldlRecOn _ _ ?_ fun d hd c _ => hd.addCondition _ _
  refine List.foldlRecOn _ _ ?_ fun d hd m hm => hd.addMethod (obtainable_builtInMethods m hm).1 (obtainable_builtInMethods m hm).2
  refine List.foldlRecOn _ _ ?_ fun d hd name _ => hd.addExemplar _ _
  exact obtainable_empty.addExemplar _ _

end Definitions

/-! ## Everything is well-formed -/

namespace World

theorem supplies_wellFormed {w : World} (h : w.definitions.Obtainable) : w.Supplies TypeSet.WellFormed where
  global hs := (h.globals.find? hs).wellFormed
  operator hs := (h.operators.find? hs).wellFormed
  method {t name m} hm s hs receiver hr := by
    obtain ⟨u, hu⟩ := Definitions.exists_find?_of_search hm
    obtain ⟨hresult, hloop⟩ := h.methods.find? hu
    have hslot : s.WellFormed := (hs.elim (hresult s) (hloop s)).wellFormed
    exact TypeSet.closed_wellFormed.withReceiver hslot hr
  exemplar _ _ := TypeSet.wellFormed_ofList _

end World

theorem Node.suits_wellFormed (n : Node) : n.Suits TypeSet.WellFormed where
  documented {m as} _ name s h := by
    have hread : ∀ cs, (TypeSet.ofChars (some systemPackage) cs).WellFormed := fun _ => TypeSet.wellFormed_ofList _
    cases hk : m.kind with
    | method header =>
      rw [hk] at h
      exact (TypeDoc.all_parameters hread header.doc).find? h
    | procedure name isIterator doc =>
      rw [hk] at h
      exact (TypeDoc.all_parameters hread doc).find? h
    | _ =>
      rw [hk] at h
      cases h
  exemplar _ _ _ _ _ := TypeSet.wellFormed_ofList _

/-- Every set that the operations make is well-formed, and so is every set that is recorded
    about a file, whatever the file, if the sets of the definitions were made by them: those
    of the built-in definitions were, and loading a text adds only such sets. -/
theorem TypeSet.obtained_and_recorded_wellFormed :
    (∀ s : TypeSet, s.Obtainable → s.WellFormed) ∧
      (∀ definitions : Definitions, definitions.Obtainable → ∀ (id : Nat) (options : AnalysisOptions) (tokens : List Token),
        (Analysis.ofTokens id definitions options tokens).findings.All TypeSet.WellFormed) ∧
      Definitions.builtIn.Obtainable ∧
      ∀ (definitions : Definitions) (text : String), definitions.Obtainable → (definitions.load text).1.Obtainable := by
  refine ⟨fun s hs => hs.wellFormed, fun definitions hd id options tokens => ?_, Definitions.obtainable_builtIn,
    fun definitions text hd => hd.load text⟩
  have hfile := Grammar.parse_formedFile tokens
  exact World.findings_all hfile TypeSet.closed_wellFormed (World.supplies_wellFormed hd) (Node.suits_wellFormed _)
    (Or.inl (TypeSet.wellFormed_ofList _)) options.package

/-! Dividing integers gives a set of two members, as the union of two sets does. -/

def divisionTokens : List Token :=
  [⟨.integer 5, "5", 1, 1⟩, ⟨.slash, "/", 1, 3⟩, ⟨.integer 2, "2", 1, 5⟩, ⟨.endOfFile, "", 1, 6⟩]

theorem TypeSet.quotient_wellFormed :
    let quotient := (TypeSet.single .integer).union (.single .float)
    let analysis := Analysis.ofTokens 0 Definitions.builtIn .standard divisionTokens
    quotient.Obtainable ∧ quotient.WellFormed ∧ Definitions.builtIn.Obtainable ∧ analysis.findings.All TypeSet.WellFormed ∧
      analysis.findings.results.find? 2 = some (.single quotient) := by
  intro quotient analysis
  have hobtained : quotient.Obtainable := .union (.single _) (.single _)
  obtain ⟨hsets, hfindings, hbuiltIn, -⟩ := obtained_and_recorded_wellFormed
  exact ⟨hobtained, hsets quotient hobtained, hbuiltIn, hfindings _ hbuiltIn 0 .standard divisionTokens, by decide +kernel⟩

end Magik
