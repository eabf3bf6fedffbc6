/-
  Magik.Proofs.Scope.Steps — the walk that builds scopes, as jobs done one after another.

  A job is a node to look at, with what it is looked at as, the nodes around it and the
  scope it is looked at in. Doing a job touches the tables at that node only, and leaves
  jobs for nodes below it. Each rule of `Step` asks for the layout it is written for, and
  there is no rule for other layouts: that a walk over a formed tree is a run of such steps
  (`run_build`) says that the walk never meets one.
-/

import Magik.Proofs.Scope.Growth
import Magik.Proofs.Syntax.Arenas

namespace Magik

namespace Node

variable {n : Node} {name : String}

namespace Kind

variable {k : Kind}

/-- Nodes that are walked over in the scope their parent is in. But for the file, which has
    none, the others are taken up by their parent, each kind in its own way. -/
def isVisited : Kind → Bool
  | .file | .parameterList | .parameter .. | .declared _ | .loopVariable _ | .handler _ => false
  | _ => true

def isAssignment : Kind → Bool
  | .assignment | .augmentedAssignment _ | .multipleAssignment => true
  | _ => false

theorem isVisited_of_isItem (h : k.isItem) : k.isVisited := by
  cases k <;> simp_all [isItem, isStatement, isExpression, isVisited]

theorem isVisited_of_isStatement (h : k.isStatement) : k.isVisited :=
  isVisited_of_isItem (isItem_of_isStatement h)

theorem isVisited_of_isExpression (h : k.isExpression) : k.isVisited :=
  isVisited_of_isStatement (isStatement_of_isExpression h)

end Kind

/-- The name that a node declares. -/
def declaredName? (n : Node) : Option String :=
  match n.kind with
  | .declared name | .parameter name _ | .loopVariable name => some name
  | _ => none

theorem declaredName?_declared (h : n.kind = .declared name) : n.declaredName? = some name := by
  simp [declaredName?, h]

theorem declaredName?_parameter {mode : ParameterMode} (h : n.kind = .parameter name mode) :
    n.declaredName? = some name := by
  simp [declaredName?, h]

theorem declaredName?_loopVariable (h : n.kind = .loopVariable name) : n.declaredName? = some name := by
  simp [declaredName?, h]

/-- All of the nodes are walked over in the scope around. -/
def AllVisited (ns : List Node) : Prop := ∀ n ∈ ns, n.kind.isVisited

theorem Formed.items (h : n.Formed) (hk : n.kind = .file) : AllVisited n.children := by
  intro c hc
  have hl := h.layout
  rw [hk] at hl
  exact Kind.isVisited_of_isItem (hl.items c hc)

theorem Formed.statements (h : n.Formed) (hk : n.kind = .body) : AllVisited n.children := by
  intro s hs
  have hl := h.layout
  rw [hk] at hl
  exact Kind.isVisited_of_isStatement (hl.statements s hs)

end Node

namespace ScopeTree

open Node (Formed Layout Way AllVisited)

/-! ## Jobs -/

/-- What a node is looked at as. -/
inductive Role where
  | visit
  | target
  | parameters
  /-- The body of a method or procedure. -/
  | routine
  | declared (kind : Entry.Kind)
  /-- A declared variable whose value has been walked over. -/
  | named (kind : Entry.Kind)
  /-- The body of a for loop with these variables. -/
  | loop (vars : List Node)
  | handler (binding : Option Node)
  /-- The body of a handler. -/
  | handled (binding : Option Node)
  /-- The variable of a try, in the scope of a handler. -/
  | bound

structure Job where
  role : Role
  node : Node
  around : List Node
  scope : Nat

/-- The same job for some nodes. -/
def jobs (role : Role) (around : List Node) (scope : Nat) (ns : List Node) : List Job :=
  ns.map fun n => ⟨role, n, around, scope⟩

/-- Opens the scope of a body, which the body is inside of. -/
def openBody (node scope : Nat) (t : ScopeTree) : ScopeTree :=
  (t.openScope .body node scope).place node t.scopes.length

/-- Lets the body of a definition share its scope. -/
def shareScope (node scope : Nat) (t : ScopeTree) : ScopeTree :=
  { t.place node scope with opened := t.opened.insert node scope }

/-- A job done: the jobs it leaves and what it makes of the scopes. -/
inductive Step : Job → ScopeTree → List Job → ScopeTree → Prop
  | plain {n as scope t} (hk : n.kind.isPlain) (hc : AllVisited n.children) :
      Step ⟨.visit, n, as, scope⟩ t (jobs .visit (n :: as) scope n.children) (t.place n.number scope)
  | read {n as scope t name} (hk : n.kind = .identifier name) (hc : n.children = []) :
      Step ⟨.visit, n, as, scope⟩ t [] ((t.place n.number scope).read scope name n.number)
  | body {n as scope t} (hk : n.kind = .body) (hc : AllVisited n.children) :
      Step ⟨.visit, n, as, scope⟩ t (jobs .visit (n :: as) t.scopes.length n.children) (t.openBody n.number scope)
  | definition {n list body as scope t} (hk : n.kind.isDefinition) (hc : n.children = [list, body])
      (hl : list.kind = .parameterList) (hb : body.kind = .body) :
      Step ⟨.visit, n, as, scope⟩ t
        [⟨.parameters, list, n :: as, t.scopes.length⟩, ⟨.routine, body, n :: as, t.scopes.length⟩]
        ((t.place n.number scope).openScope .procedure n.number scope)
  | parameters {n as scope t}
      (hp : ∀ p ∈ n.children, (∃ name mode, p.kind = .parameter name mode) ∧ p.children = []) :
      Step ⟨.parameters, n, as, scope⟩ t (jobs (.declared .parameter) (n :: as) scope n.children) (t.place n.number scope)
  | routine {n as scope t} (hc : AllVisited n.children) :
      Step ⟨.routine, n, as, scope⟩ t (jobs .visit (n :: as) scope n.children) (t.shareScope n.number scope)
  | forLoop {n iterable body as vars scope t label} (hk : n.kind = .forLoop label)
      (hc : n.children = vars ++ [iterable, body])
      (hv : ∀ v ∈ vars, (∃ name, v.kind = .loopVariable name) ∧ v.children = []) (hi : iterable.kind.isVisited)
      (hb : body.kind = .body) :
      Step ⟨.visit, n, as, scope⟩ t [⟨.visit, iterable, n :: as, scope⟩, ⟨.loop vars, body, n :: as, scope⟩]
        (t.place n.number scope)
  | loop {n as vars scope t} (hc : AllVisited n.children) :
      Step ⟨.loop vars, n, as, scope⟩ t
        (jobs (.declared .localVariable) as t.scopes.length vars ++ jobs .visit (n :: as) t.scopes.length n.children)
        (t.openBody n.number scope)
  | attempt {n body as handlers binding scope t} (hk : n.kind = .attempt)
      (hc : n.children = binding.toList ++ body :: handlers)
      (hv : ∀ v ∈ binding, ∃ name, v.kind = .attemptVariable name) (hb : body.kind = .body)
      (hh : ∀ m ∈ handlers, ∃ names, m.kind = .handler names) :
      Step ⟨.visit, n, as, scope⟩ t
        (jobs .visit (n :: as) scope (binding.toList ++ [body]) ++ jobs (.handler binding) (n :: as) scope handlers)
        (t.place n.number scope)
  | handler {n body as binding scope t} (hc : n.children = [body]) (hb : body.kind = .body) :
      Step ⟨.handler binding, n, as, scope⟩ t [⟨.handled binding, body, n :: as, scope⟩] (t.place n.number scope)
  | handled {n as binding scope t} (hc : AllVisited n.children) :
      Step ⟨.handled binding, n, as, scope⟩ t
        (jobs .bound as.tail t.scopes.length binding.toList ++ jobs .visit (n :: as) t.scopes.length n.children)
        (t.openBody n.number scope)
  | bound {n as scope t name} (hk : n.kind = .attemptVariable name) :
      Step ⟨.bound, n, as, scope⟩ t [] (t.declareVariable scope .localVariable name n.number)
  | separate {n as scope t modifier} (hk : n.kind = .declaration modifier false)
      (hv : ∀ v ∈ n.children, ∃ name, v.kind = .declared name) :
      Step ⟨.visit, n, as, scope⟩ t (jobs (.declared (.ofModifier modifier)) (n :: as) scope n.children)
        (t.place n.number scope)
  | shared {n value as vars scope t modifier} (hk : n.kind = .declaration modifier true)
      (hc : n.children = vars ++ [value])
      (hv : ∀ v ∈ vars, ∃ name, v.kind = .declared name) (hx : value.kind.isVisited) :
      Step ⟨.visit, n, as, scope⟩ t
        (⟨.visit, value, n :: as, scope⟩ :: jobs (.declared (.ofModifier modifier)) (n :: as) scope vars)
        (t.place n.number scope)
  | declared {n as scope t kind name} (hn : n.declaredName? = some name) (hk : kind = .recursive ∨ n.children = [])
      (hc : AllVisited n.children) :
      Step ⟨.declared kind, n, as, scope⟩ t (jobs .visit (n :: as) scope n.children)
        ((t.place n.number scope).declareVariable scope kind name n.number)
  | valued {n value as scope t kind name} (hn : n.kind = .declared name) (hk : kind ≠ .recursive)
      (hc : n.children = [value]) (hx : value.kind.isVisited) :
      Step ⟨.declared kind, n, as, scope⟩ t [⟨.visit, value, n :: as, scope⟩, ⟨.named kind, n, as, scope⟩]
        (t.place n.number scope)
  | named {n as scope t kind name} (hn : n.kind = .declared name) :
      Step ⟨.named kind, n, as, scope⟩ t [] (t.declareVariable scope kind name n.number)
  | assignment {n value as targets scope t} (hk : n.kind.isAssignment) (hc : n.children = targets ++ [value])
      (ht : ∀ m ∈ targets, ∃ name, m.kind = .identifier name)
      (hx : value.kind.isVisited) :
      Step ⟨.visit, n, as, scope⟩ t (⟨.visit, value, n :: as, scope⟩ :: jobs .target (n :: as) scope targets)
        (t.place n.number scope)
  | target {n as scope t name} (hk : n.kind = .identifier name) (hc : n.children = []) :
      Step ⟨.target, n, as, scope⟩ t [] ((t.place n.number scope).assign scope name n.number)

/-- Jobs done until none is left, each before the ones that were there before it. -/
inductive Run : List Job → ScopeTree → ScopeTree → Prop
  | done {t : ScopeTree} : Run [] t t
  | step {job : Job} {left rest : List Job} {t t' t'' : ScopeTree} (hs : Step job t left t')
      (hr : Run (left ++ rest) t' t'') : Run (job :: rest) t t''

/-- What every step keeps, a run keeps. -/
theorem Run.invariant {P : List Job → ScopeTree → Prop}
    (step : ∀ {job left rest t t'}, Step job t left t' → P (job :: rest) t → P (left ++ rest) t')
    {todo : List Job} {t t' : ScopeTree} (h : Run todo t t') (hp : P todo t) : P [] t' := by
  induction h with
  | done => exact hp
  | step hs _ ih => exact ih (step hs hp)

/-! ## The walk is a run -/

variable {t t' : ScopeTree} {n body : Node} {as ns vars : List Node} {rest : List Job} {scope number : Nat}
  {kind : Entry.Kind} {span : Span} {value : Node} {modifier : Modifier} {binding : Option Node} {tree : SyntaxTree}

/-- Walking over the node is the run of a visit, whatever comes after it. -/
def Driven (n : Node) : Prop :=
  n.kind.isVisited → ∀ (as : List Node) (scope : Nat) (t t' : ScopeTree) (rest : List Job),
    Run rest (walk scope n t) t' → Run (⟨.visit, n, as, scope⟩ :: rest) t t'

theorem run_walkAll (hd : ∀ c ∈ ns, Driven c) (hv : AllVisited ns) (h : Run rest (walkAll scope ns t) t') :
    Run (jobs .visit as scope ns ++ rest) t t' := by
  induction ns generalizing t with
  | nil =>
    rw [walkAll] at h
    exact h
  | cons c ns ih =>
    rw [walkAll] at h
    refine hd c (by simp) (hv c (by simp)) as scope t t' _ (ih ?_ ?_ h)
    · exact fun m hm => hd m (.tail _ hm)
    · exact fun m hm => hv m (.tail _ hm)

theorem openBody_place (t : ScopeTree) (node scope scope' : Nat) :
    (t.place node scope').openBody node scope = t.openBody node scope := by
  simp [openBody, place, openScope, Table.insert_insert]

/-- Variables that are placed and declared one after the other. -/
theorem run_declared {f : ScopeTree → Node → ScopeTree}
    (hf : ∀ v ∈ vars, ∃ name, v.declaredName? = some name ∧ v.children = [] ∧
      ∀ t, f t v = (t.place v.number scope).declareVariable scope kind name v.number)
    (h : Run rest (vars.foldl f t) t') : Run (jobs (.declared kind) as scope vars ++ rest) t t' := by
  induction vars generalizing t with
  | nil => exact h
  | cons v vars ih =>
    obtain ⟨name, hn, hc, he⟩ := hf v (by simp)
    refine .step (.declared hn (.inr hc) (by simp [AllVisited, hc])) ?_
    rw [hc]
    refine ih (fun u hu => hf u (.tail _ hu)) ?_
    rwa [List.foldl_cons, he] at h

theorem run_targets (ht : ∀ m ∈ ns, (∃ name, m.kind = .identifier name) ∧ m.children = [])
    (h : Run rest (walkTargets scope (ns ++ [value]) t) t') : Run (jobs .target as scope ns ++ rest) t t' := by
  induction ns generalizing t with
  | nil =>
    rw [List.nil_append, walkTargets] at h
    exact h
  | cons m ns ih =>
    obtain ⟨⟨name, hk⟩, hc⟩ := ht m (by simp)
    refine .step (.target hk hc) (ih (fun u hu => ht u (.tail _ hu)) ?_)
    rw [List.cons_append, walkTargets] at h
    · simpa [Node.identifierName?, hk] using h
    · simp

/-- A node with no scope and no name of its own is the run of its children. -/
theorem driven_of_isPlain (hk : n.kind.isPlain) (hv : AllVisited n.children) (hd : ∀ c ∈ n.children, Driven c) : Driven n := by
  intro _ as scope t t' rest h
  rw [walk_of_isPlain hk] at h
  exact .step (.plain hk hv) (run_walkAll hd hv h)

theorem driven_body (hv : AllVisited ns) (hd : ∀ c ∈ ns, Driven c) : Driven ⟨number, .body, span, ns⟩ := by
  intro _ as scope t t' rest h
  rw [walk] at h
  have hopen : Run rest (walkAll t.scopes.length ns ((t.place number scope).openBody number scope)) t' := h
  rw [openBody_place] at hopen
  exact .step (.body rfl hv) (run_walkAll hd hv hopen)

theorem declareVariable_of_ne (hk : kind ≠ .imported) (t : ScopeTree) (scope : Nat) (name : String) (node : Nat) :
    t.declareVariable scope kind name node = (t.declare scope name kind node).2 := by
  simp [declareVariable, hk]

theorem driven_definition {kind : Node.Kind} {list : Node} (hk : kind.isDefinition) (hl : list.kind = .parameterList)
    (hb : body.kind = .body) (hp : ∀ p ∈ list.children, (∃ name mode, p.kind = .parameter name mode) ∧ p.children = [])
    (hv : AllVisited body.children) (hd : ∀ c ∈ body.children, Driven c) : Driven ⟨number, kind, span, [list, body]⟩ := by
  intro _ as scope t t' rest h
  have hwalk : walk scope ⟨number, kind, span, [list, body]⟩ t =
      walkDefinition scope number [list, body] (t.place number scope) := by
    cases kind <;> cases hk <;> rw [walk]
  rw [hwalk] at h
  obtain ⟨listNumber, listKind, listSpan, ps⟩ := list
  obtain ⟨bodyNumber, bodyKind, bodySpan, statements⟩ := body
  rw [walkDefinition] at h
  refine .step (.definition hk rfl hl hb) (.step (.parameters hp) ?_)
  refine run_declared (f := declareParameter (t.place number scope).scopes.length) (fun p hp' => ?_)
    (.step (.routine hv) (run_walkAll hd hv h))
  obtain ⟨⟨name, mode, hpk⟩, hpc⟩ := hp p hp'
  refine ⟨name, Node.declaredName?_parameter hpk, hpc, fun t => ?_⟩
  rw [declareVariable_of_ne (by simp)]
  simp only [declareParameter, hpk]
  rfl

theorem driven_forLoop {label : Option String} {iterable : Node}
    (hvars : ∀ v ∈ vars, (∃ name, v.kind = .loopVariable name) ∧ v.children = []) (hi : iterable.kind.isVisited)
    (hb : body.kind = .body) (hdi : Driven iterable) (hv : AllVisited body.children) (hd : ∀ c ∈ body.children, Driven c) :
    Driven ⟨number, .forLoop label, span, vars ++ [iterable, body]⟩ := by
  intro _ as scope t t' rest h
  rw [walk, walkFor_append, List.nil_append] at h
  obtain ⟨bodyNumber, bodyKind, bodySpan, statements⟩ := body
  rw [walkFor] at h
  refine .step (.forLoop rfl rfl hvars hi hb) (hdi hi _ _ _ _ _ (.step (.loop hv) ?_))
  rw [List.append_assoc]
  refine run_declared (f := declareLoopVariable (walk scope iterable (t.place number scope)).scopes.length)
    (fun v hv' => ?_) (run_walkAll hd hv h)
  obtain ⟨⟨name, hvk⟩, hvc⟩ := hvars v hv'
  refine ⟨name, Node.declaredName?_loopVariable hvk, hvc, fun t => ?_⟩
  rw [declareVariable_of_ne (by simp)]
  simp only [declareLoopVariable, hvk]

theorem driven_assignment {number : Nat} {kind : Node.Kind} {span : Span} {value : Node} (hk : kind.isAssignment)
    (ht : ∀ m ∈ ns, (∃ name, m.kind = .identifier name) ∧ m.children = []) (hx : value.kind.isVisited)
    (hd : Driven value) : Driven ⟨number, kind, span, ns ++ [value]⟩ := by
  intro _ as scope t t' rest h
  have hwalk : walk scope ⟨number, kind, span, ns ++ [value]⟩ t =
      walkTargets scope (ns ++ [value]) (walkLast scope (ns ++ [value]) (t.place number scope)) := by
    cases kind <;> cases hk <;> rw [walk]
  rw [hwalk, walkLast_concat] at h
  exact .step (.assignment hk rfl (fun m hm => (ht m hm).1) hx) (hd hx _ _ _ _ _ (run_targets ht h))

theorem driven_shared (hvars : ∀ v ∈ vars, (∃ name, v.kind = .declared name) ∧ v.children = [])
    (hx : value.kind.isVisited) (hd : Driven value) :
    Driven ⟨number, .declaration modifier true, span, vars ++ [value]⟩ := by
  intro _ as scope t t' rest h
  rw [walk, walkLast_concat, List.dropLast_concat] at h
  refine .step (.shared rfl rfl (fun v hv => (hvars v hv).1) hx) (hd hx _ _ _ _ _ (run_declared (fun v hv => ?_) h))
  obtain ⟨⟨name, hvk⟩, hvc⟩ := hvars v hv
  refine ⟨name, Node.declaredName?_declared hvk, hvc, fun t => ?_⟩
  simp only [declareShared, hvk]

/-- Variables with values of their own: a value comes before its name, unless the name is
    to be known inside. -/
theorem run_walkVariables
    (hvars : ∀ v ∈ vars, (∃ name, v.kind = .declared name) ∧
      (v.children = [] ∨ ∃ value, v.children = [value] ∧ value.kind.isVisited ∧ Driven value))
    (h : Run rest (walkVariables scope kind vars t) t') : Run (jobs (.declared kind) as scope vars ++ rest) t t' := by
  induction vars generalizing t with
  | nil =>
    rw [walkVariables] at h
    exact h
  | cons v vars ih =>
    obtain ⟨⟨name, hvk⟩, hvc⟩ := hvars v (by simp)
    obtain ⟨number, nodeKind, span, children⟩ := v
    dsimp only at hvk hvc
    subst hvk
    have hall : AllVisited children := by
      rcases hvc with rfl | ⟨value, rfl, hx, -⟩
      · simp [AllVisited]
      · simpa [AllVisited] using hx
    have hdriven : ∀ c ∈ children, Driven c := by
      rcases hvc with rfl | ⟨value, rfl, -, hd⟩
      · simp
      · simpa using hd
    replace ih {t : ScopeTree} := @ih t fun u hu => hvars u (.tail _ hu)
    rw [walkVariables] at h
    by_cases hk : kind = .recursive
    · simp only [if_pos hk] at h
      refine .step (.declared rfl (.inl hk) hall) (run_walkAll hdriven hall (ih h))
    · simp only [if_neg hk] at h
      rcases hvc with rfl | ⟨value, rfl, hx, hd⟩
      · rw [walkAll] at h
        exact .step (.declared rfl (.inr rfl) hall) (ih h)
      · rw [walkAll, walkAll] at h
        exact .step (.valued rfl hk rfl hx) (hd hx _ _ _ _ _ (.step (.named rfl) (ih h)))

theorem driven_separate
    (hvars : ∀ v ∈ vars, (∃ name, v.kind = .declared name) ∧
      (v.children = [] ∨ ∃ value, v.children = [value] ∧ value.kind.isVisited ∧ Driven value)) :
    Driven ⟨number, .declaration modifier false, span, vars⟩ := by
  intro _ as scope t t' rest h
  rw [walk] at h
  exact .step (.separate rfl fun v hv => (hvars v hv).1) (run_walkVariables hvars h)

/-- The variable of a try as its handlers get it. -/
def boundName? (v : Node) : Option (String × Nat) :=
  match v.kind with
  | .attemptVariable name => some (name, v.number)
  | _ => none

theorem run_handlers (hbinding : ∀ v ∈ binding, ∃ name, v.kind = .attemptVariable name)
    (hh : ∀ m ∈ ns, (∃ names, m.kind = .handler names) ∧ ∃ body, m.children = [body] ∧ body.kind = .body ∧
      AllVisited body.children ∧ ∀ c ∈ body.children, Driven c)
    (h : Run rest (walkAttempt scope (binding.bind boundName?) ns t) t') :
    Run (jobs (.handler binding) as scope ns ++ rest) t t' := by
  induction ns generalizing t with
  | nil =>
    rw [walkAttempt] at h
    exact h
  | cons m ns ih =>
    obtain ⟨⟨names, hk⟩, body, hc, hb, hv, hd⟩ := hh m (by simp)
    obtain ⟨number, kind, span, children⟩ := m
    dsimp only at hk hc
    subst hk hc
    obtain ⟨bodyNumber, bodyKind, bodySpan, statements⟩ := body
    simp only [walkAttempt] at h
    refine .step (.handler rfl hb) (.step (.handled hv) ?_)
    have hrest := ih (fun u hu => hh u (.tail _ hu)) h
    cases binding with
    | none => exact run_walkAll hd hv hrest
    | some v =>
      obtain ⟨name, hvk⟩ := hbinding v rfl
      simp only [Option.bind_some, boundName?, hvk] at hrest
      refine .step (.bound hvk) ?_
      rw [declareVariable_of_ne (by simp)]
      exact run_walkAll hd hv hrest

theorem driven_attempt (hbinding : ∀ v ∈ binding, (∃ name, v.kind = .attemptVariable name) ∧ v.children = [])
    (hb : body.kind = .body)
    (hh : ∀ m ∈ ns, (∃ names, m.kind = .handler names) ∧ ∃ body, m.children = [body] ∧ body.kind = .body ∧
      AllVisited body.children ∧ ∀ c ∈ body.children, Driven c)
    (hd : Driven body) : Driven ⟨number, .attempt, span, binding.toList ++ body :: ns⟩ := by
  intro _ as scope t t' rest h
  rw [walk] at h
  have hvars : ∀ v ∈ binding, ∃ name, v.kind = .attemptVariable name := fun v hv => (hbinding v hv).1
  have hbody : ∀ {bound : Option (String × Nat)} {t : ScopeTree},
      walkAttempt scope bound (body :: ns) t = walkAttempt scope bound ns (walk scope body t) := by
    intro bound t
    obtain ⟨bodyNumber, bodyKind, bodySpan, statements⟩ := body
    dsimp only at hb
    subst hb
    rw [walkAttempt] <;> simp
  have hvisited : body.kind.isVisited := by rw [hb]; rfl
  refine .step (.attempt rfl rfl hvars hb fun m hm => (hh m hm).1) ?_
  cases binding with
  | none =>
    rw [Option.toList_none, List.nil_append, hbody] at h
    exact hd hvisited _ _ _ _ _ (run_handlers hvars hh h)
  | some v =>
    obtain ⟨⟨name, hvk⟩, hvc⟩ := hbinding v rfl
    obtain ⟨varNumber, varKind, varSpan, varChildren⟩ := v
    dsimp only at hvk hvc
    subst hvk hvc
    rw [Option.toList_some, List.singleton_append, walkAttempt, hbody] at h
    exact .step (.plain rfl (by simp [AllVisited])) (hd hvisited _ _ _ _ _ (run_handlers hvars hh h))

/-! ## Formed trees -/

/-- A body is walked over statement by statement. -/
theorem driven_statements (hf : body.Formed) (hb : body.kind = .body) (hd : ∀ m bs, Way body m bs → Driven m) :
    AllVisited body.children ∧ ∀ c ∈ body.children, Driven c :=
  ⟨hf.statements hb, fun c hc => hd c _ (.child .root hc)⟩

theorem driven_node {kind : Node.Kind} {children : List Node} (hl : Layout kind children) (hf : ∀ c ∈ children, c.Formed)
    (hd : ∀ c ∈ children, ∀ m bs, Way c m bs → Driven m) : Driven ⟨number, kind, span, children⟩ := by
  have hdc : ∀ c ∈ children, Driven c := fun c hc => hd c hc c [] .root
  have hleaf : ∀ c ∈ children, c.kind.isLeaf → c.children = [] := fun c hc hk => (hf c hc).layout.eq_nil_of_isLeaf hk
  have hvisited : ∀ {c : Node}, c.kind.isExpression → c.kind.isVisited := Node.Kind.isVisited_of_isExpression
  have hbody : ∀ {c : Node}, c.kind = .body → c.kind.isVisited := fun h => by rw [h]; rfl
  cases hl with
  | file | parameterList | bare | valued => exact fun hk => by cases hk
  | leaf hk =>
    cases kind with
    | identifier name =>
      intro _ as scope t t' rest h
      rw [walk] at h
      exact .step (.read rfl rfl) h
    | package | parameter | loopVariable | attemptVariable | literal | syntaxError =>
      exact driven_of_isPlain rfl (by simp [AllVisited]) hdc
    | _ => cases hk
  | @definition _ list body hk hl hb =>
    have hlist := (hf list (by simp)).layout
    rw [hl] at hlist
    obtain ⟨hv, hs⟩ := driven_statements (hf body (by simp)) hb (hd body (by simp))
    refine driven_definition hk hl hb (fun p hp => ?_) hv hs
    obtain ⟨name, mode, hpk⟩ := hlist.parameters p hp
    refine ⟨⟨name, mode, hpk⟩, ((hf list (by simp)).child hp).layout.eq_nil_of_isLeaf (hpk ▸ rfl)⟩
  | body h => exact driven_body (fun c hc => Node.Kind.isVisited_of_isStatement (h c hc)) hdc
  | separate _ h =>
    refine driven_separate fun v hv => ⟨h v hv, ?_⟩
    obtain ⟨name, hvk⟩ := h v hv
    have hlv := (hf v hv).layout
    rw [hvk] at hlv
    rcases hlv.declared with hnil | ⟨value, he, hx⟩
    · exact .inl hnil
    · refine .inr ⟨value, he, hvisited hx, hd v hv value _ (.child .root ?_)⟩
      simp [he]
  | @shared modifier vars value _ h hv =>
    exact driven_shared (fun v hv => ⟨(h v hv).1, (h v hv).2⟩) (hvisited hv) (hdc value (by simp))
  | values hk h =>
    have hplain : kind.isPlain := by cases kind <;> cases hk <;> rfl
    exact driven_of_isPlain hplain (fun c hc => hvisited (h c hc)) hdc
  | thrown ht h =>
    refine driven_of_isPlain rfl (fun c hc => ?_) hdc
    rcases List.mem_cons.mp hc with rfl | hc
    · exact hvisited ht
    · exact hvisited (h c hc)
  | conditional _ h hl =>
    refine driven_of_isPlain rfl (fun c hc => ?_) hdc
    rcases List.mem_append.mp hc with hc | hc
    · rw [h c hc]; rfl
    · rw [hl c (by simpa using hc)]; rfl
  | valueAndBody hk hv hb =>
    have hplain : kind.isPlain := by cases kind <;> cases hk <;> rfl
    exact driven_of_isPlain hplain (by simp [AllVisited, hvisited hv, hbody hb]) hdc
  | onlyBody hk hb =>
    -- a handler is not visited; it is taken up by its try
    cases kind with
    | handler => exact fun hk => by cases hk
    | otherwise | plainLoop | block => exact driven_of_isPlain rfl (by simp [AllVisited, hbody hb]) hdc
    | _ => cases hk
  | protect hb hl => exact driven_of_isPlain rfl (by simp [AllVisited, hbody hb, hbody hl]) hdc
  | @forLoop label vars iterable body _ h hi hb =>
    obtain ⟨hv, hs⟩ := driven_statements (hf body (by simp)) hb (hd body (by simp))
    refine driven_forLoop (fun v hv => ⟨h v hv, ?_⟩) (hvisited hi) hb (hdc iterable (by simp)) hv hs
    obtain ⟨name, hvk⟩ := h v hv
    exact hleaf v (by simp [hv]) (hvk ▸ rfl)
  | @attempt binding body handlers h hb hh =>
    refine driven_attempt (fun v hv => ⟨h v hv, ?_⟩) hb (fun m hm => ⟨hh m hm, ?_⟩) (hdc body (by simp))
    · obtain ⟨name, hvk⟩ := h v hv
      exact hleaf v (by simp [Option.mem_toList.mpr hv]) (hvk ▸ rfl)
    · have hmem : m ∈ binding.toList ++ body :: handlers := by simp [hm]
      obtain ⟨names, hmk⟩ := hh m hm
      obtain ⟨inner, he, hbi⟩ := (hf m hmem).layout.of_takesBody (hmk ▸ rfl)
      have hin : inner ∈ m.children := by simp [he]
      obtain ⟨hv, hs⟩ := driven_statements ((hf m hmem).child hin) hbi fun k bs hw => hd m hmem k _ (hw.under hin)
      exact ⟨inner, he, hbi, hv, hs⟩
  | @assignment _ target value hk ht hv =>
    refine @driven_assignment [target] number kind span value (by cases kind <;> cases hk <;> rfl) (fun m hm => ?_) (hvisited hv)
      (hdc value (by simp))
    obtain rfl := List.mem_singleton.mp hm
    obtain ⟨name, hmk⟩ := ht
    exact ⟨⟨name, hmk⟩, hleaf m (by simp) (hmk ▸ rfl)⟩
  | @multipleAssignment targets value _ h hv =>
    refine driven_assignment rfl (fun m hm => ⟨h m hm, ?_⟩) (hvisited hv) (hdc value (by simp))
    obtain ⟨name, hmk⟩ := h m hm
    exact hleaf m (by simp [hm]) (hmk ▸ rfl)
  | binary hl hr => exact driven_of_isPlain rfl (by simp [AllVisited, hvisited hl, hvisited hr]) hdc
  | unary ho => exact driven_of_isPlain rfl (by simp [AllVisited, hvisited ho]) hdc
  | applied hk hfirst h =>
    have hplain : kind.isPlain := by cases kind <;> cases hk <;> rfl
    refine driven_of_isPlain hplain (fun c hc => ?_) hdc
    rcases List.mem_cons.mp hc with rfl | hc
    · exact hvisited hfirst
    · exact hvisited (h c hc)

theorem driven_of_formed (hf : n.Formed) : Driven n := by
  -- with a try its handlers' statements are needed, three levels down
  refine hf.induction_below fun {m} hf hd => ?_
  obtain ⟨number, kind, span, children⟩ := m
  exact driven_node hf.layout (fun _ hc => hf.child hc) hd

theorem walkAll_append (scope : Nat) (a b : List Node) (t : ScopeTree) :
    walkAll scope (a ++ b) t = walkAll scope b (walkAll scope a t) := by
  induction a generalizing t with
  | nil => simp [walkAll]
  | cons n a ih => simp [walkAll, ih]

/-- The scopes of a file come about item by item. -/
theorem build_file (hk : tree.root.kind = .file) :
    build tree = walkAll 0 tree.root.children ((start tree.root.number).place tree.root.number 0) :=
  walk_of_isPlain (hk ▸ rfl)

/-- The scopes of a formed file come about by steps alone. -/
theorem run_build (h : tree.FormedFile) :
    Run (jobs .visit [tree.root] 0 tree.root.children) ((start tree.root.number).place tree.root.number 0) (build tree) := by
  rw [← List.append_nil (jobs _ _ _ _), build_file h.file]
  exact run_walkAll (fun c hc => driven_of_formed (h.formed.child hc)) (h.formed.items h.file) .done

end ScopeTree

end Magik
