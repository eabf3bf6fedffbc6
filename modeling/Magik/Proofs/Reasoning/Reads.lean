/-
  Magik.Proofs.Reasoning.Reads — what an analysis says of the names that a run reads.

  A plain method of a file is called: its parameters get values of the types documented for
  them, and its body runs. Wherever the run reads a name, the result that the analysis gives
  for that node covers the type of the value read.
-/

import Mathlib.Control.Monad.Basic
import Magik.Analysis
import Magik.Proofs.Grammar.Tracing
import Magik.Proofs.Reasoning.Simulation

namespace Magik

open Running World

/-! ## Parameters -/

namespace Running

/-- The types a parameter of a kind may be given: those documented, a vector for what is gathered, and
    nothing at all where it is optional. -/
def Admits (doc : TypeDoc) : Node.Kind → TypeName → Prop
  | .parameter _ .gather, t => t = .vector
  | .parameter name .optional, t => t = .unset ∨ ((doc.parameter? name).getD .undefined).Covers t
  | .parameter name _, t => ((doc.parameter? name).getD .undefined).Covers t
  | _, _ => True

/-- The store that a body starts with: the parameters have their arguments, whatever else there is. -/
def bindParameters (t : ScopeTree) (arguments : Nat → Value) (σ : Store) : List Node → Store
  | [] => σ
  | ⟨number, .parameter _ _, _, _⟩ :: ps => bindParameters t arguments (σ.set (t.entryOf? number) (arguments number)) ps
  | _ :: ps => bindParameters t arguments σ ps

end Running

namespace World

variable {w : World} {package : String} {X : List Nat} {σ : Store} {f : Flow} {m : Moment} {arguments : Nat → Value}
  {doc : TypeDoc}

theorem covers_parameterTypes {name : String} {mode : ParameterMode} {t : TypeName}
    (h : Admits doc (.parameter name mode) t) : (parameterTypes doc name mode).Covers t := by
  cases mode with
  | required => exact h
  | assigned => exact h
  | gather =>
    have ht : t = .vector := h
    rw [ht]
    exact TypeSet.covers_single _
  | optional =>
    rcases h with rfl | h
    · exact TypeSet.Covers.union_right (TypeSet.covers_single _)
    · exact TypeSet.Covers.union_left h

/-- The flow that a body starts with covers the arguments. -/
theorem live_parameters {ps : List Node} (ha : ∀ p ∈ ps, Admits doc p.kind (arguments p.number).type)
    (hl : w.Live package X f σ) :
    w.Live package X (w.parameters doc f ps m).1 (bindParameters w.scopes arguments σ ps) := by
  induction ps generalizing f σ m with
  | nil => exact hl
  | cons p ps ih =>
    have hrest := fun q hq => ha q (.tail p hq)
    obtain ⟨number, kind, span, children⟩ := p
    have hother : w.Live package X (w.parameters doc f ps m).1 (bindParameters w.scopes arguments σ ps) := ih hrest hl
    cases kind with
    | parameter name mode =>
      have hcov := covers_parameterTypes (ha ⟨number, .parameter name mode, span, children⟩ (by simp))
      rw [bindParameters, parameters]
      refine ih hrest ?_
      cases hx : w.scopes.entryOf? number with
      | none => exact hl
      | some x => exact hl.believe hcov x
    | _ =>
      rw [bindParameters, parameters]
      · exact hother
      all_goals simp

/-! ## Methods -/

/-- What holds throughout a method. -/
def methodFrame (w : World) (package : String) (header : MethodHeader) : Frame :=
  ⟨some (.single (w.exemplar package header.exemplar)), .empty⟩

section

variable {around : Around} {number : Nat} {header : MethodHeader} {span : Span} {list body : Node} {r : Course} {A : List Nat}

theorem reason_body (hk : body.kind = .body) (m : Moment) : (w.reason around body m).2 =
    (Reason.record body.number .nothing (w.reasonEach (around.within body.number .body) body.children m).2).2 := by
  obtain ⟨number, kind, span, statements⟩ := body
  cases hk
  rw [reason]
  · rfl
  all_goals simp

/-- What is noted below a method is what is noted when its body is reasoned about, from its parameters on. -/
theorem find?_reason_method {j : Nat} (hj : j ≠ number) :
    (w.reason around ⟨number, .method header, span, [list, body]⟩ m).2.memory.findings.results.find? j =
      let start := w.parameters (.ofLines header.doc systemPackage) .start list.children m
      (w.reason ⟨(number, .method header) :: around.path, w.methodFrame m.memory.package header⟩ body
        { start.2 with flow := start.1 }).2.memory.findings.results.find? j := by
  rw [reason]
  simp only [reasonDefinition]
  refine (find?_record _ _ _ _).trans ((if_neg (Ne.symm hj)).trans ?_)
  exact (touches_finish number : Touches [] (finish number)) _ j (by simp)

/-- What a run of a plain method reads is noted. -/
theorem noted_method (around : Around) (span : Span) (hk : body.kind = .body) (hp : ∀ s ∈ body.children, Plain w.scopes s)
    (hs : Scene w r (w.methodFrame m.memory.package header) A [] body.children)
    (hb : body.number ∉ Node.numbersAll body.children) (hn : number ∉ Node.numbersAll body.children)
    (ha : ∀ p ∈ list.children, Admits (.ofLines header.doc systemPackage) p.kind (arguments p.number).type) (σ : Store) :
    Noted (w.reason around ⟨number, .method header, span, [list, body]⟩ m).2 (Node.numbersAll body.children)
      (r.execAll w.scopes (bindParameters w.scopes arguments σ list.children) body.children).reads := by
  let inner : Around := ⟨(number, .method header) :: around.path, w.methodFrame m.memory.package header⟩
  let start := w.parameters (.ofLines header.doc systemPackage) .start list.children m
  have hlive : w.Live start.2.memory.package [] start.1 (bindParameters w.scopes arguments σ list.children) :=
    live_parameters ha (live_start σ)
  have hsim : ∀ s ∈ body.children, Simulates w r (w.methodFrame m.memory.package header) s :=
    fun s hm => simulates_plain rfl (hp s hm)
  have hfollows := follows_each (m := { start.2 with flow := start.1 }) (inner.within body.number .body) hp hsim hs hlive
  refine hfollows.noted.later fun j hj => ?_
  have hnumber : j ≠ number := fun h => hn (h ▸ hj)
  have hbody : body.number ≠ j := fun h => hb (h ▸ hj)
  rw [find?_reason_method hnumber]
  dsimp only
  rw [reason_body hk, find?_record, if_neg hbody]

end

/-! ## Files -/

/-- A moment in a file: some of its items have been reasoned about. -/
def after (w : World) (package : String) (root : Node) (items : List Node) : Moment :=
  (w.reasonEach (Around.file.within root.number root.kind) items ⟨.start, .start package⟩).2

/-- Nothing is listed where nothing is defined. -/
theorem unlisted_empty (scopes : ScopeTree) (x : Nat) : Unlisted ⟨scopes, .empty⟩ x := by
  intro e _ package
  have hnone : ∀ t, candidateTypes? ⟨scopes, .empty⟩ t = none := fun t => rfl
  rw [globalTypes, List.findSome?_eq_none_iff.mpr fun t _ => hnone t]
  rfl

theorem results_findings (tree : SyntaxTree) :
    (w.findings package tree).results = (w.after package tree.root tree.root.children).memory.findings.results := rfl

end World

/-! ## Calls -/

/-- A method of a file whose body is plain and names nothing that is listed. -/
structure PlainMethod (w : World) (tree : SyntaxTree) where
  before : List Node
  number : Nat
  header : MethodHeader
  span : Span
  list : Node
  body : Node
  after : List Node
  /-- The method is an item of the file. -/
  items : tree.root.children = before ++ ⟨number, .method header, span, [list, body]⟩ :: after
  isBody : body.kind = .body
  plain : Plain w.scopes body
  unlisted {j x : Nat} : j ∈ body.numbers → w.scopes.entryOf? j = some x → w.Unlisted x

/-- The package in force at the method, when a file starts in one. -/
def PlainMethod.package {w : World} {tree : SyntaxTree} (method : PlainMethod w tree) (start : String) : String :=
  (w.after start tree.root method.before).memory.package

/-- A call of the method, when the package in force is known: the values of its literals and parameters
    have the types they are said to have. -/
structure PlainMethod.Call {w : World} {tree : SyntaxTree} (method : PlainMethod w tree) (package : String) where
  course : Course
  arguments : Nat → Value
  /-- What all other entries hold. -/
  others : Store
  literals {n : Node} {value : Literal} : n ∈ method.body.withDescendants → n.kind = .literal value →
    (literalTypes (w.methodFrame package method.header) value).Covers (course.literal n.number).type
  admitted {p : Node} : p ∈ method.list.children →
    Admits (.ofLines method.header.doc systemPackage) p.kind (arguments p.number).type

namespace PlainMethod

variable {w : World} {tree : SyntaxTree} {method : PlainMethod w tree} {package start : String}

/-- The reads of a call. -/
def Call.reads (call : method.Call package) : List (Nat × Value) :=
  (call.course.exec w.scopes (bindParameters w.scopes call.arguments call.others method.list.children) method.body).reads

theorem plain_statements {s : Node} (hs : s ∈ method.body.children) : Plain w.scopes s := by
  have hplain := method.plain
  have hk := method.isBody
  generalize method.body = body at hs hplain hk
  cases hplain with
  | operand h => cases h <;> cases hk
  | body h => exact h s hs
  | _ => cases hk

/-- The numbers of the statements are no others around them or after the method. -/
structure Fresh (method : PlainMethod w tree) : Prop where
  body : method.body.number ∉ Node.numbersAll method.body.children
  number : method.number ∉ Node.numbersAll method.body.children
  root : tree.root.number ∉ Node.numbersAll method.body.children
  later {j : Nat} : j ∈ Node.numbersAll method.body.children → j ∉ Node.numbersAll method.after

theorem fresh (method : PlainMethod w tree) (hn : tree.root.numbers.Nodup) : method.Fresh := by
  rw [Node.numbers_eq, method.items, Node.numbersAll_append, Node.numbersAll_cons, List.nodup_cons] at hn
  obtain ⟨hroot, hn⟩ := hn
  obtain ⟨hm, -, hlater⟩ := List.nodup_append.mp (List.nodup_append.mp hn).2.1
  simp only [Node.numbers, Node.numbersAll_cons, Node.numbersAll_nil, List.append_nil, Node.numbers_eq method.body,
    List.mem_append, List.mem_cons, not_or] at hroot hm hlater
  obtain ⟨hnumber, hm⟩ := List.nodup_cons.mp hm
  obtain ⟨hbody, -⟩ := List.nodup_cons.mp (List.nodup_append.mp hm).2.1
  refine ⟨hbody, fun h => hnumber ?_, hroot.2.1.2.2.2, fun {j} hj hj' => hlater j ?_ j hj' rfl⟩
  · simp [h]
  · simp [hj]

/-- The statements of a call that is about to be run. -/
theorem Call.scene (call : method.Call package) (hscopes : w.scopes = ScopeTree.build tree) (hfile : tree.FormedFile) :
    Scene w call.course (w.methodFrame package method.header) [method.body.number, method.number, tree.root.number] []
      method.body.children := by
  have hfresh := method.fresh hfile.nodup
  have hnumbers : ∀ j ∈ Node.numbersAll method.body.children, j ∈ method.body.numbers := by
    rw [Node.numbers_eq]
    exact fun j hj => .tail _ hj
  let node : Node := ⟨method.number, .method method.header, method.span, [method.list, method.body]⟩
  have hitem : node ∈ tree.root.children := by simp [method.items, node]
  have hbody : method.body ∈ node.children := .tail _ (.head _)
  have hproper : Node.Proper [node] := ((Node.Proper.single hfile.formed hfile.nodup).inside (by simp)).of_mem hitem
  have hmethod : Node.Enclosed [node] := ⟨hproper, by simpa using ⟨hfile.formed.child hitem, nofun, nofun⟩⟩
  refine ⟨(hmethod.children.of_mem hbody).children, ?_, fun {a} ha => ?_, fun hX => (by cases hX),
    fun hj => method.unlisted (hnumbers _ hj), fun hd => call.literals (.tail _ hd)⟩
  · rw [hscopes]
    have hmethod := (ScopeTree.lexical_build hfile).child hitem
    exact fun s hs => (hmethod.child hbody).child hs
  · simp only [List.mem_cons, List.not_mem_nil, or_false] at ha
    rcases ha with rfl | rfl | rfl
    · exact hfresh.body
    · exact hfresh.number
    · exact hfresh.root

/-- What a call of a plain method reads is noted in the file. -/
theorem Call.noted (hscopes : w.scopes = ScopeTree.build tree) (hfile : tree.FormedFile)
    (call : method.Call (method.package start)) :
    Noted (w.after start tree.root tree.root.children) (Node.numbersAll method.body.children) call.reads := by
  have hfresh := method.fresh hfile.nodup
  have hexec : ∀ σ, call.course.exec w.scopes σ method.body = call.course.execAll w.scopes σ method.body.children := by
    intro σ
    have hk := method.isBody
    generalize method.body = body at hk
    cases body
    cases hk
    rw [Course.exec]
  have hnoted := noted_method (Around.file.within tree.root.number tree.root.kind) method.span method.isBody
    (fun s hs => method.plain_statements hs) (call.scene hscopes hfile) hfresh.body hfresh.number
    (fun p hp => call.admitted hp) call.others
  rw [Call.reads, hexec, World.after, method.items, reasonEach_append, reasonEach_cons]
  exact hnoted.later fun j hj => touches_reasonEach w method.after _ _ j (hfresh.later hj)

end PlainMethod

/-! ## Analyses -/

namespace Analysis

variable {id : Nat} {definitions : Definitions} {options : AnalysisOptions} {text : String} {a : Analysis}

/-- What an analysis of a file is made of. -/
structure OfFile (a : Analysis) (definitions : Definitions) (package : String) : Prop where
  scopes : a.scopes = .build a.tree
  findings : a.findings = World.findings ⟨a.scopes, definitions⟩ package a.tree
  formed : a.tree.FormedFile

theorem ofFile_of_ofText (h : ofText id definitions options text = .ok a) : a.OfFile definitions options.package := by
  unfold ofText at h
  split at h
  next tokens hscan =>
    cases h
    exact ⟨rfl, rfl, Grammar.parse_formedFile tokens⟩
  next => cases h

theorem resultOf_of_find? {n : Nat} {res : Results} (hn : n < a.tree.size) (h : a.findings.results.find? n = some res) :
    a.resultOf ⟨a.id, n⟩ = .ok res := by
  simp [resultOf, ask, contains, hn, h]

/-- Whatever a call of a plain method reads, the analysis allows for. -/
theorem resultOf_covers_reads (h : ofText id definitions options text = .ok a)
    (method : PlainMethod ⟨a.scopes, definitions⟩ a.tree) (call : method.Call (method.package options.package)) :
    ∀ p ∈ call.reads, ∃ result, a.resultOf ⟨a.id, p.1⟩ = .ok result ∧ result.first.Covers p.2.type := by
  have hfile := ofFile_of_ofText h
  intro p hp
  obtain ⟨hmem, res, hres, hcovers⟩ := call.noted hfile.scopes hfile.formed p hp
  have hnumber : p.1 ∈ a.tree.root.numbers := by
    rw [Node.numbers_eq, method.items]
    simp [Node.numbers_eq method.body, Node.numbers, Node.numbersAll_append, hmem]
  rw [← results_findings, ← hfile.findings] at hres
  have hlt : p.1 < a.tree.size := hfile.formed.last ▸ Nat.lt_succ_of_le (hfile.formed.formed.le_number hnumber)
  exact ⟨res, resultOf_of_find? hlt hres, hcovers⟩

/-! An integer gets past a test for unset: what is read there is an integer. -/

def guardedText : String :=
  "_method a.b(p)\n## @param \x7binteger|unset\x7d p\n_if p _is _unset _then _else p _endif\n_endmethod"

def guardedTokens : List Token := (Token.scan guardedText).toOption.getD []

def guardedList : Node := ⟨1, .parameterList, ⟨1, 13, 1, 14⟩, [⟨0, .parameter "p" .required, ⟨1, 13, 1, 13⟩, []⟩]⟩

def guardedBody : Node :=
  ⟨11, .body, ⟨3, 1, 3, 37⟩, [⟨10, .conditional, ⟨3, 1, 3, 37⟩,
    [⟨6, .branch, ⟨3, 1, 3, 22⟩,
      [⟨4, .binary .identical, ⟨3, 5, 3, 16⟩,
        [⟨2, .identifier "p", ⟨3, 5, 3, 5⟩, []⟩, ⟨3, .literal .unset, ⟨3, 11, 3, 16⟩, []⟩]⟩,
        ⟨5, .body, ⟨3, 24, 3, 24⟩, []⟩]⟩,
      ⟨9, .otherwise, ⟨3, 24, 3, 30⟩, [⟨8, .body, ⟨3, 30, 3, 30⟩, [⟨7, .identifier "p", ⟨3, 30, 3, 30⟩, []⟩]⟩]⟩]⟩]⟩

def guardedHeader : MethodHeader := ⟨"a", "b", false, false, false, ["@param \x7binteger|unset\x7d p"]⟩

def guardedTree : SyntaxTree :=
  ⟨⟨13, .file, ⟨1, 1, 4, 10⟩, [⟨12, .method guardedHeader, ⟨1, 1, 4, 10⟩, [guardedList, guardedBody]⟩]⟩,
    (Grammar.parse guardedTokens).1.arena⟩

def guardedScopes : ScopeTree := .build guardedTree

def guarded : Analysis :=
  ⟨0, guardedTree, guardedScopes, World.findings ⟨guardedScopes, .empty⟩ systemPackage guardedTree,
    unusedWarnings guardedTree guardedScopes⟩

theorem ofText_guardedText : ofText 0 .empty .standard guardedText = .ok guarded := by
  have hscan : Token.scan guardedText = .ok guardedTokens := by decide +kernel
  have hparse : Grammar.parse guardedTokens = (guardedTree, []) := by decide +kernel
  simp only [ofText, hscan, ofTokens, hparse]
  rfl

theorem plain_guardedBody : Plain guardedScopes guardedBody := by
  have hcondition : guardedScopes.entryOf? 2 = some 0 := by decide +kernel
  have hread : guardedScopes.entryOf? 7 = some 0 := by decide +kernel
  refine .body fun s hs => ?_
  rw [List.mem_singleton.mp hs]
  refine .conditional (fun b hb => ?_) fun b hb body hbody => ?_
  · simp only [List.mem_cons, List.not_mem_nil, or_false] at hb
    rcases hb with rfl | rfl
    · exact .tested (.atom (.identical (.name hcondition) .literal))
    · exact .otherwise
  · simp only [List.mem_cons, List.not_mem_nil, or_false] at hb
    rcases hb with rfl | rfl
    · cases hbody
      exact .body fun s hs => by cases hs
    · cases hbody
      refine .body fun s hs => ?_
      rw [List.mem_singleton.mp hs]
      exact .operand (.name hread)

def guardedMethod : PlainMethod ⟨guarded.scopes, .empty⟩ guarded.tree :=
  ⟨[], 12, guardedHeader, ⟨1, 1, 4, 10⟩, guardedList, guardedBody, [], rfl, rfl, plain_guardedBody,
    fun _ _ => unlisted_empty _ _⟩

def guardedArgument : Value := ⟨.integer, 7, by decide⟩

theorem admits_guardedArgument :
    Admits (.ofLines guardedHeader.doc systemPackage) (.parameter "p" .required) guardedArgument.type := by
  have hdoc : (TypeDoc.ofLines guardedHeader.doc systemPackage).parameter? "p" = some (.ofList [.integer, .unset]) := by
    decide +kernel
  rw [Admits, hdoc]
  · decide
  all_goals simp

def guardedCall : guardedMethod.Call (guardedMethod.package systemPackage) where
  course := ⟨fun _ => .unset, fun _ => .unset, fun _ => false⟩
  arguments := fun _ => guardedArgument
  others := fun _ => .unset
  literals := by
    intro n value hn hk
    have hkinds : guardedBody.withDescendants.map Node.kind = [.body, .conditional, .branch, .binary .identical,
        .identifier "p", .literal .unset, .body, .otherwise, .body, .identifier "p"] := by decide +kernel
    have hkind : n.kind ∈ guardedBody.withDescendants.map Node.kind := List.mem_map_of_mem hn
    have hvalue : value = .unset := by simpa [hkinds, hk] using hkind
    rw [hvalue]
    exact TypeSet.covers_single _
  admitted := by
    intro p hp
    rw [List.mem_singleton.mp hp]
    exact admits_guardedArgument

theorem resultOf_covers_guarded_read :
    ofText 0 .empty .standard guardedText = .ok guarded ∧ (7, guardedArgument) ∈ guardedCall.reads ∧
      guarded.findings.results.find? 7 = some (.slots [.single .integer]) ∧
      ∃ result, guarded.resultOf ⟨0, 7⟩ = .ok result ∧ result.first.Covers .integer := by
  have hread : (7, guardedArgument) ∈ guardedCall.reads := by decide +kernel
  have hnarrowed : guarded.findings.results.find? 7 = some (.slots [.single .integer]) := by decide +kernel
  exact ⟨ofText_guardedText, hread, hnarrowed,
    resultOf_covers_reads ofText_guardedText guardedMethod guardedCall _ hread⟩

end Analysis

end Magik
