/-
  Magik.Proofs.Scope.Placement — which scope a node is in.

  A node belongs to the block around it that comes first: a body or the file. But the
  parameters of a definition belong to the definition, and the variables of a for loop to
  its body (`seat?`). While jobs are done, every job is in the scope of the place it is
  about (`Fits`), every node has been placed there or is still to be looked at, and every
  scope belongs to the node that opened it (`Sound`). In the end all nodes have been placed.
-/

import Magik.Proofs.Grammar.Tracing
import Magik.Proofs.Scope.Frames

namespace Magik

namespace Node

namespace Kind

/-- Nodes that open a scope for the nodes below them. -/
def isBlock : Kind → Bool
  | .file | .body => true
  | _ => false

variable {k : Kind}

theorem isBlock_of_isPlain (hk : k.isPlain) (hv : k.isVisited) : k.isBlock = false := by
  cases k <;> cases hk <;> cases hv <;> rfl

theorem isBlock_of_isDefinition (hk : k.isDefinition) : k.isBlock = false := by
  cases k <;> cases hk <;> rfl

theorem isBlock_of_isAssignment (hk : k.isAssignment) : k.isBlock = false := by
  cases k <;> cases hk <;> rfl

theorem isDefinition_of_isPlain (hk : k.isPlain) : k.isDefinition = false := by
  cases k <;> cases hk <;> rfl

theorem isDefinition_of_isAssignment (hk : k.isAssignment) : k.isDefinition = false := by
  cases k <;> cases hk <;> rfl

end Kind

/-- The node whose scope a node belongs to, the nodes around it given. -/
def seat? (n : Node) (around : List Node) : Option Node :=
  match n.kind with
  | .parameterList | .parameter .. => around.find? (·.kind.isDefinition)
  | .loopVariable _ => around.head?.bind (·.children.getLast?)
  | _ => (n :: around).find? (·.kind.isBlock)

theorem seat?_of_isVisited {n : Node} {as : List Node} (hk : n.kind.isVisited) :
    n.seat? as = (n :: as).find? (·.kind.isBlock) := by
  obtain ⟨number, kind, span, children⟩ := n
  cases kind <;> cases hk <;> rfl

end Node

namespace ScopeTree

open Node (Way)

variable {root n p b d v : Node} {as bs vars : List Node} {t t' : ScopeTree} {job j : Job} {left todo : List Job}
  {scope s k : Nat} {ns : List Node}

/-- The scope is that of the first block of these. -/
def Inside (t : ScopeTree) (as : List Node) (scope : Nat) : Prop :=
  ∃ b, as.find? (·.kind.isBlock) = some b ∧ t.scopeOpenedBy? b.number = some scope

/-- The scope is that of the node's seat. -/
def Seated (t : ScopeTree) (n : Node) (as : List Node) (scope : Nat) : Prop :=
  ∃ b, n.seat? as = some b ∧ t.scopeOpenedBy? b.number = some scope

/-- The second tree has the scopes that nodes of the first opened. -/
def KeepsOpened (t t' : ScopeTree) : Prop :=
  ∀ {k s : Nat}, t.scopeOpenedBy? k = some s → t'.scopeOpenedBy? k = some s

theorem Inside.mono (h : Inside t as scope) (ho : KeepsOpened t t') : Inside t' as scope := by
  obtain ⟨b, hb, hs⟩ := h
  exact ⟨b, hb, ho hs⟩

theorem Seated.mono (h : Seated t n as scope) (ho : KeepsOpened t t') : Seated t' n as scope := by
  obtain ⟨b, hb, hs⟩ := h
  exact ⟨b, hb, ho hs⟩

theorem Inside.skip (h : Inside t as scope) (hn : n.kind.isBlock = false) : Inside t (n :: as) scope := by
  obtain ⟨b, hb, hs⟩ := h
  exact ⟨b, by rw [List.find?_cons, hn]; exact hb, hs⟩

theorem Inside.here (h : t.scopeOpenedBy? n.number = some scope) (hn : n.kind.isBlock) : Inside t (n :: as) scope :=
  ⟨n, by rw [List.find?_cons, hn], h⟩

/-- Apart from blocks, what is visited is in the scope around it. -/
theorem Inside.seated (h : Inside t as scope) (hk : n.kind.isVisited) (hn : n.kind.isBlock = false) :
    Seated t n as scope := by
  rw [Seated, Node.seat?_of_isVisited hk]
  exact h.skip hn

/-! ## Scopes and their nodes -/

/-- What the scope that a node opened is like. The body of a definition shares the scope of
    the definition; any other scope knows its node, and the scope around is its parent. -/
inductive Owns (t : ScopeTree) : Node → List Node → Nat → Prop
  | file {b : Node} {sc : Scope} (hk : b.kind = .file) (hs : t.scopes[0]? = some sc) (hkind : sc.kind = .global)
      (hn : sc.node = b.number) (hp : sc.parent = none) : Owns t b [] 0
  | definition {b : Node} {as : List Node} {s p : Nat} {sc : Scope} (hk : b.kind.isDefinition)
      (hs : t.scopes[s]? = some sc) (hkind : sc.kind = .procedure) (hn : sc.node = b.number) (hp : sc.parent = some p)
      (hlt : p < s) (hi : Inside t as p) : Owns t b as s
  | routine {b d : Node} {as : List Node} {s : Nat} (hk : b.kind = .body) (hd : d.kind.isDefinition)
      (ho : t.scopeOpenedBy? d.number = some s) : Owns t b (d :: as) s
  | block {b q : Node} {as : List Node} {s p : Nat} {sc : Scope} (hk : b.kind = .body) (hq : q.kind.isDefinition = false)
      (hs : t.scopes[s]? = some sc) (hkind : sc.kind = .body) (hn : sc.node = b.number) (hp : sc.parent = some p)
      (hlt : p < s) (hi : Inside t (q :: as) p) : Owns t b (q :: as) s

theorem Owns.mono {ns : List Nat} (h : Owns t b as s) (hg : Grows ns t t') (ho : KeepsOpened t t') : Owns t' b as s := by
  cases h with
  | file hk hs hkind hn hp =>
    obtain ⟨sc', hs', hk', hp', hn'⟩ := hg.scopes hs
    exact .file hk hs' (hk'.trans hkind) (hn'.trans hn) (hp'.trans hp)
  | definition hk hs hkind hn hp hlt hi =>
    obtain ⟨sc', hs', hk', hp', hn'⟩ := hg.scopes hs
    exact .definition hk hs' (hk'.trans hkind) (hn'.trans hn) (hp'.trans hp) hlt (hi.mono ho)
  | routine hk hd h => exact .routine hk hd (ho h)
  | block hk hq hs hkind hn hp hlt hi =>
    obtain ⟨sc', hs', hk', hp', hn'⟩ := hg.scopes hs
    exact .block hk hq hs' (hk'.trans hkind) (hn'.trans hn) (hp'.trans hp) hlt (hi.mono ho)

/-! ## Jobs in their places -/

/-- The job is about a node of the tree, in the scope that belongs to what it is looked at as. -/
inductive Fits (root : Node) (t : ScopeTree) : Job → Prop
  | visit {n p : Node} {as : List Node} {scope : Nat} (hw : Way root n (p :: as)) (hk : n.kind.isVisited)
      (hp : p.kind.isDefinition = false) (hi : Inside t (p :: as) scope) : Fits root t ⟨.visit, n, p :: as, scope⟩
  | target {n : Node} {as : List Node} {scope : Nat} {name : String} (hw : Way root n as) (hk : n.kind = .identifier name)
      (hi : Inside t as scope) : Fits root t ⟨.target, n, as, scope⟩
  | parameters {n d : Node} {as : List Node} {scope : Nat} (hw : Way root n (d :: as)) (hk : n.kind = .parameterList)
      (hd : d.kind.isDefinition) (ho : t.scopeOpenedBy? d.number = some scope) :
      Fits root t ⟨.parameters, n, d :: as, scope⟩
  | routine {n d : Node} {as : List Node} {scope : Nat} (hw : Way root n (d :: as)) (hk : n.kind = .body)
      (hd : d.kind.isDefinition) (ho : t.scopeOpenedBy? d.number = some scope) : Fits root t ⟨.routine, n, d :: as, scope⟩
  | declared {n : Node} {as : List Node} {scope : Nat} {kind : Entry.Kind} {name : String} (hw : Way root n as)
      (hn : n.declaredName? = some name) (hi : n.children = [] ∨ Inside t as scope) (hs : Seated t n as scope) :
      Fits root t ⟨.declared kind, n, as, scope⟩
  | named {n : Node} {as : List Node} {scope : Nat} {kind : Entry.Kind} {name : String} (hw : Way root n as)
      (hk : n.kind = .declared name) (hs : Seated t n as scope) (hp : t.scopeOf? n.number = some scope) :
      Fits root t ⟨.named kind, n, as, scope⟩
  | loop {n l : Node} {as vars : List Node} {scope : Nat} {label : Option String} (hw : Way root n (l :: as))
      (hk : n.kind = .body) (hl : l.kind = .forLoop label) (hlast : l.children.getLast? = some n)
      (hv : ∀ v ∈ vars, v ∈ l.children ∧ (∃ name, v.kind = .loopVariable name) ∧ v.children = [])
      (hi : Inside t (l :: as) scope) : Fits root t ⟨.loop vars, n, l :: as, scope⟩
  | handler {n : Node} {as : List Node} {scope : Nat} {binding : Option Node} {names : List String} (hw : Way root n as)
      (hk : n.kind = .handler names) (hb : ∀ v ∈ binding, Way root v as ∧ ∃ name, v.kind = .attemptVariable name)
      (hi : Inside t as scope) : Fits root t ⟨.handler binding, n, as, scope⟩
  | handled {n h : Node} {as : List Node} {scope : Nat} {binding : Option Node} {names : List String}
      (hw : Way root n (h :: as)) (hk : n.kind = .body) (hh : h.kind = .handler names)
      (hb : ∀ v ∈ binding, Way root v as ∧ ∃ name, v.kind = .attemptVariable name) (hi : Inside t (h :: as) scope) :
      Fits root t ⟨.handled binding, n, h :: as, scope⟩
  | bound {n : Node} {as : List Node} {scope : Nat} {name : String} (hw : Way root n as)
      (hk : n.kind = .attemptVariable name) : Fits root t ⟨.bound, n, as, scope⟩

theorem Fits.way (h : Fits root t job) : Way root job.node job.around := by
  cases h <;> assumption

theorem Fits.mono (h : Fits root t job) (ho : KeepsOpened t t') (hp : ∀ k ∈ job.numbers, t'.scopeOf? k = t.scopeOf? k) :
    Fits root t' job := by
  cases h with
  | visit hw hk hd hi => exact .visit hw hk hd (hi.mono ho)
  | target hw hk hi => exact .target hw hk (hi.mono ho)
  | parameters hw hk hd h => exact .parameters hw hk hd (ho h)
  | routine hw hk hd h => exact .routine hw hk hd (ho h)
  | declared hw hn hi hs => exact .declared hw hn (hi.imp_right fun h => h.mono ho) (hs.mono ho)
  | named hw hk hs hplaced => exact .named hw hk (hs.mono ho) (by rw [hp _ (List.mem_singleton.mpr rfl), hplaced])
  | loop hw hk hl hlast hv hi => exact .loop hw hk hl hlast hv (hi.mono ho)
  | handler hw hk hb hi => exact .handler hw hk hb (hi.mono ho)
  | handled hw hk hh hb hi => exact .handled hw hk hh hb (hi.mono ho)
  | bound hw hk => exact .bound hw hk

/-- A job touches the entry of its own node, which it has to do with, unless it is for the
    variable of a try. -/
theorem Step.entryOf?_eq (hs : Step job t left t') (hf : Fits root t job) (hn : root.numbers.Nodup) (hw : Way root n as)
    (hk : ∀ name, n.kind ≠ .attemptVariable name) (hout : n.number ∉ job.numbers) :
    t'.entryOf? n.number = t.entryOf? n.number := by
  refine hs.grows.resolved fun hin => ?_
  have he : n.number = job.node.number := List.mem_singleton.mp hin
  by_cases hbound : job.role = .bound
  · obtain ⟨rfl, rfl⟩ := hw.unique hn hf.way he
    cases hf with
    | bound _ hk' => exact hk _ hk'
    | _ => cases hbound
  · exact hout (he ▸ Job.number_mem hbound)

/-- After a step a node is still to be looked at, or the step has settled it, or it was
    settled before and the step leaves it alone. -/
theorem Step.node_cases (hs : Step job t left t') (hf : Fits root t job) (hn : root.numbers.Nodup) (hw : Way root n as)
    (todo : List Job) :
    n.number ∈ pending (left ++ todo) ∨
      (n = job.node ∧ as = job.around ∧ job.node.number ∉ pending left ∧ job.role ≠ .bound) ∨
      n.number ∉ job.numbers ∧ n.number ∉ pending (job :: todo) := by
  by_cases hl : n.number ∈ pending (left ++ todo)
  · exact .inl hl
  rw [pending_append, List.mem_append, not_or] at hl
  by_cases hown : n.number ∈ job.numbers
  · obtain ⟨rfl, rfl⟩ := hw.unique hn hf.way ((hs.mem_pending hown).resolve_right hl.1)
    exact .inr (.inl ⟨rfl, rfl, hl.1, Job.role_ne_bound hown⟩)
  · refine .inr (.inr ⟨hown, ?_⟩)
    rw [pending_cons, List.mem_append, not_or]
    exact ⟨hown, hl.2⟩

/-- At the start all nodes but the file are to be looked at. -/
theorem root_or_pending (hn : root.numbers.Nodup) (hw : Way root n as) :
    n = root ∧ as = [] ∨ n.number ∈ pending (jobs .visit [root] 0 root.children) := by
  have hm := hw.number_mem
  rw [Node.numbers_eq, List.mem_cons] at hm
  rcases hm with he | hm
  · exact .inl (hw.unique hn .root he)
  · exact .inr (by rw [pending_visit]; exact hm)

theorem mem_jobs {role : Role} : j ∈ jobs role as scope ns ↔ ∃ n ∈ ns, j = ⟨role, n, as, scope⟩ := by
  rw [jobs, List.mem_map]
  exact exists_congr fun n => and_congr_right fun _ => eq_comm

/-- Children that are visited below a node that is no definition. -/
theorem fits_visit (hw : Way root n as) (hn : n.kind.isDefinition = false) (hsub : ∀ c ∈ ns, c ∈ n.children)
    (hv : Node.AllVisited ns) (hi : Inside t (n :: as) scope) (hj : j ∈ jobs .visit (n :: as) scope ns) :
    Fits root t j := by
  obtain ⟨c, hc, rfl⟩ := mem_jobs.mp hj
  exact .visit (.child hw (hsub c hc)) (hv c hc) hn hi

/-- The statements of a body whose scope is open. -/
theorem fits_statements (hw : Way root n as) (hk : n.kind = .body) (hv : Node.AllVisited n.children)
    (ho : t.scopeOpenedBy? n.number = some scope) (hj : j ∈ jobs .visit (n :: as) scope n.children) : Fits root t j :=
  fits_visit hw (hk ▸ rfl) (fun _ h => h) hv (.here ho (hk ▸ rfl)) hj

/-- The variables of a declaration. -/
theorem fits_variables {kind : Entry.Kind} (hw : Way root n as) (hsub : ∀ v ∈ vars, v ∈ n.children)
    (hv : ∀ v ∈ vars, ∃ name, v.kind = .declared name) (hi : Inside t (n :: as) scope)
    (hj : j ∈ jobs (.declared kind) (n :: as) scope vars) : Fits root t j := by
  obtain ⟨v, hm, rfl⟩ := mem_jobs.mp hj
  obtain ⟨name, hvk⟩ := hv v hm
  refine .declared (.child hw (hsub v hm)) (Node.declaredName?_declared hvk) (.inr hi) ?_
  rw [Seated, Node.seat?, hvk]
  exact hi.skip (hvk ▸ rfl)

/-- The parts of a try: its variable and its body are visited, its handlers get the variable. -/
theorem fits_attempt {body : Node} {handlers : List Node} {binding : Option Node} (hw : Way root n as)
    (hk : n.kind = .attempt) (hc : n.children = binding.toList ++ body :: handlers)
    (hv : ∀ v ∈ binding, ∃ name, v.kind = .attemptVariable name) (hb : body.kind = .body)
    (hh : ∀ m ∈ handlers, ∃ names, m.kind = .handler names) (hi : Inside t (n :: as) scope)
    (hj : j ∈ jobs .visit (n :: as) scope (binding.toList ++ [body]) ++ jobs (.handler binding) (n :: as) scope handlers) :
    Fits root t j := by
  rcases List.mem_append.mp hj with hj | hj
  · refine fits_visit hw (hk ▸ rfl) (fun c h => ?_) (fun c h => ?_) hi hj
    · rw [hc]
      rcases List.mem_append.mp h with h | h
      · exact List.mem_append_left _ h
      · simp [List.mem_singleton.mp h]
    · rcases List.mem_append.mp h with h | h
      · obtain ⟨name, hck⟩ := hv c (Option.mem_toList.mp h)
        rw [hck]
        rfl
      · rw [List.mem_singleton.mp h, hb]
        rfl
  · obtain ⟨m, hm, rfl⟩ := mem_jobs.mp hj
    obtain ⟨names, hmk⟩ := hh m hm
    refine .handler (.child hw (by simp [hc, hm])) hmk (fun v hvb => ⟨.child hw ?_, hv v hvb⟩) hi
    rw [hc]
    exact List.mem_append_left _ (Option.mem_toList.mpr hvb)

/-- The jobs that a step leaves fit, as its own job did. -/
theorem Step.fits_left (hs : Step job t left t') (hf : Fits root t job)
    (hu : ∀ k ∈ job.numbers, t.scopeOpenedBy? k = none) : ∀ j ∈ left, Fits root t' j := by
  intro j hj
  have hw := hf.way
  have ho : KeepsOpened t t' := fun h => hs.opened_mono hu h
  cases hs with
  | @plain n as scope t hk hc =>
    cases hf with
    | visit _ hv _ hi =>
      have hinside := (hi.mono ho).skip (Node.Kind.isBlock_of_isPlain hk hv)
      exact fits_visit hw (Node.Kind.isDefinition_of_isPlain hk) (fun _ h => h) hc hinside hj
  | read | target | bound | named => cases hj
  | @body n as scope t hk hc =>
    exact fits_statements hw hk hc (scopeOpenedBy?_openBody_self t n.number scope) hj
  | @definition n list body as scope t hk hc hl hb =>
    have hopened : ((t.place n.number scope).openScope .procedure n.number scope).scopeOpenedBy? n.number =
        some t.scopes.length := by
      simp [place]
    rw [List.mem_cons, List.mem_singleton] at hj
    rcases hj with rfl | rfl
    · exact .parameters (.child hw (by simp [hc])) hl hk hopened
    · exact .routine (.child hw (by simp [hc])) hb hk hopened
  | @parameters n as scope t hp =>
    cases hf with
    | @parameters _ d as _ hw hk hd hopened =>
      obtain ⟨p, hpc, rfl⟩ := mem_jobs.mp hj
      obtain ⟨⟨name, mode, hpk⟩, hnil⟩ := hp p hpc
      refine .declared (.child hw hpc) (Node.declaredName?_parameter hpk) (.inl hnil) ⟨d, ?_, hopened⟩
      have hlist : n.kind.isDefinition = false := by rw [hk]; rfl
      simp [Node.seat?, hpk, hlist, hd]
  | @routine n as scope t hc =>
    cases hf with
    | routine _ hk _ _ => exact fits_statements hw hk hc (scopeOpenedBy?_shareScope_self t n.number scope) hj
  | @forLoop n iterable body as vars scope t label hk hc hv hi hb =>
    cases hf with
    | visit _ _ _ hin =>
      have hinside : Inside (t.place n.number scope) (n :: _) scope := (hin.mono ho).skip (hk ▸ rfl)
      rw [List.mem_cons, List.mem_singleton] at hj
      rcases hj with rfl | rfl
      · exact .visit (.child hw (by simp [hc])) hi (hk ▸ rfl) hinside
      · refine .loop (.child hw (by simp [hc])) hb hk (by simp [hc]) (fun v hm => ⟨by simp [hc, hm], hv v hm⟩) hinside
  | @loop n as vars scope t hc =>
    cases hf with
    | @loop _ l as _ _ _ hw hk hl hlast hv hi =>
      have hopened := scopeOpenedBy?_openBody_self t n.number scope
      rcases List.mem_append.mp hj with hj | hj
      · obtain ⟨v, hm, rfl⟩ := mem_jobs.mp hj
        obtain ⟨hvc, ⟨name, hvk⟩, hnil⟩ := hv v hm
        cases hw with
        | child up _ =>
          refine .declared (.child up hvc) (Node.declaredName?_loopVariable hvk) (.inl hnil) ⟨n, ?_, hopened⟩
          simp [Node.seat?, hvk, hlast]
      · exact fits_statements hw hk hc hopened hj
  | @attempt n body as handlers binding scope t hk hc hv hb hh =>
    cases hf with
    | visit _ _ _ hin =>
      exact fits_attempt hw hk hc hv hb hh ((hin.mono ho).skip (hk ▸ rfl)) hj
  | @handler n body as binding scope t hc hb =>
    cases hf with
    | handler _ hk hbinding hi =>
      rw [List.mem_singleton] at hj
      subst hj
      exact .handled (.child hw (by simp [hc])) hb hk hbinding ((hi.mono ho).skip (hk ▸ rfl))
  | @handled n as binding scope t hc =>
    cases hf with
    | handled _ hk hh hbinding hi =>
      rcases List.mem_append.mp hj with hj | hj
      · obtain ⟨v, hm, rfl⟩ := mem_jobs.mp hj
        obtain ⟨hwv, name, hvk⟩ := hbinding v (Option.mem_toList.mp hm)
        exact .bound hwv hvk
      · exact fits_statements hw hk hc (scopeOpenedBy?_openBody_self t n.number scope) hj
  | @separate n as scope t modifier hk hv =>
    cases hf with
    | visit _ _ _ hin => exact fits_variables hw (fun _ h => h) hv ((hin.mono ho).skip (hk ▸ rfl)) hj
  | @shared n value as vars scope t modifier hk hc hv hx =>
    cases hf with
    | visit _ _ _ hin =>
      have hinside : Inside (t.place n.number scope) (n :: _) scope := (hin.mono ho).skip (hk ▸ rfl)
      rcases List.mem_cons.mp hj with rfl | hj
      · exact .visit (.child hw (by simp [hc])) hx (hk ▸ rfl) hinside
      · exact fits_variables hw (fun v hm => by simp [hc, hm]) hv hinside hj
  | @declared n as scope t kind name hn hk hc =>
    cases hf with
    | declared _ _ hi _ =>
      rcases hi with hnil | hin
      · rw [hnil] at hj
        cases hj
      · have hkind : n.kind.isBlock = false ∧ n.kind.isDefinition = false := by
          cases h : n.kind <;> simp [Node.declaredName?, h] at hn <;> exact ⟨rfl, rfl⟩
        exact fits_visit hw hkind.2 (fun _ h => h) hc ((hin.mono ho).skip hkind.1) hj
  | @valued n value as scope t kind name hn hk hc hx =>
    cases hf with
    | declared _ _ hi hseat =>
      rw [List.mem_cons, List.mem_singleton] at hj
      rcases hj with rfl | rfl
      · rcases hi with hnil | hin
        · rw [hc] at hnil
          cases hnil
        · exact .visit (.child hw (by simp [hc])) hx (hn ▸ rfl) ((hin.mono ho).skip (hn ▸ rfl))
      · exact .named hw hn (hseat.mono ho) (by simp)
  | @assignment n value as targets scope t hk hc ht hx =>
    cases hf with
    | visit _ _ _ hin =>
      have hinside := (hin.mono ho).skip (Node.Kind.isBlock_of_isAssignment hk)
      rcases List.mem_cons.mp hj with rfl | hj
      · exact .visit (.child hw (by simp [hc])) hx (Node.Kind.isDefinition_of_isAssignment hk) hinside
      · obtain ⟨m, hm, rfl⟩ := mem_jobs.mp hj
        obtain ⟨name, hmk⟩ := ht m hm
        exact .target (.child hw (by simp [hc, hm])) hmk hinside

/-- A body is its own seat. -/
theorem seated_body (hk : n.kind = .body) (h : t.scopeOpenedBy? n.number = some s) : Seated t n as s :=
  ⟨n, by simp [Node.seat?, hk, Node.Kind.isBlock], h⟩

/-- A step that settles its node has placed it where it belongs. -/
theorem Step.seated_node (hs : Step job t left t') (hf : Fits root t job)
    (hu : ∀ k ∈ job.numbers, t.scopeOpenedBy? k = none) (hsettled : job.node.number ∉ pending left)
    (hr : job.role ≠ .bound) : ∃ s, t'.scopeOf? job.node.number = some s ∧ Seated t' job.node job.around s := by
  have ho : KeepsOpened t t' := fun h => hs.opened_mono hu h
  cases hs with
  | plain hk =>
    cases hf with
    | visit _ hv _ hi =>
      exact ⟨_, scopeOf?_place_self _ _ _, (hi.mono ho).seated hv (Node.Kind.isBlock_of_isPlain hk hv)⟩
  | assignment hk =>
    cases hf with
    | visit _ hv _ hi =>
      exact ⟨_, scopeOf?_place_self _ _ _, (hi.mono ho).seated hv (Node.Kind.isBlock_of_isAssignment hk)⟩
  | definition hk =>
    cases hf with
    | visit _ hv _ hi =>
      exact ⟨_, scopeOf?_place_self _ _ _, (hi.mono ho).seated hv (Node.Kind.isBlock_of_isDefinition hk)⟩
  | forLoop hk | attempt hk | separate hk | shared hk =>
    cases hf with
    | visit _ hv _ hi => exact ⟨_, scopeOf?_place_self _ _ _, (hi.mono ho).seated hv (hk ▸ rfl)⟩
  | read hk =>
    cases hf with
    | visit _ hv _ hi =>
      refine ⟨_, ?_, (hi.mono ho).seated hv (hk ▸ rfl)⟩
      rw [scopeOf?_read, scopeOf?_place_self]
  | target hk =>
    cases hf with
    | target _ _ hi =>
      refine ⟨_, ?_, (hi.mono ho).seated (hk ▸ rfl) (hk ▸ rfl)⟩
      rw [scopeOf?_assign, scopeOf?_place_self]
  | body hk => exact ⟨_, scopeOf?_openBody_self _ _ _, seated_body hk (scopeOpenedBy?_openBody_self _ _ _)⟩
  | loop =>
    cases hf with
    | loop _ hk => exact ⟨_, scopeOf?_openBody_self _ _ _, seated_body hk (scopeOpenedBy?_openBody_self _ _ _)⟩
  | handled =>
    cases hf with
    | handled _ hk => exact ⟨_, scopeOf?_openBody_self _ _ _, seated_body hk (scopeOpenedBy?_openBody_self _ _ _)⟩
  | routine =>
    cases hf with
    | routine _ hk => exact ⟨_, scopeOf?_place_self _ _ _, seated_body hk (scopeOpenedBy?_shareScope_self _ _ _)⟩
  | parameters =>
    cases hf with
    | @parameters _ d _ _ _ hk hd hopened =>
      exact ⟨_, scopeOf?_place_self _ _ _, d, by simp [Node.seat?, hk, hd], ho hopened⟩
  | handler =>
    cases hf with
    | handler _ hk _ hi =>
      refine ⟨_, scopeOf?_place_self _ _ _, ?_⟩
      rw [Seated, Node.seat?, hk]
      exact (hi.mono ho).skip (hk ▸ rfl)
  | declared =>
    cases hf with
    | declared _ _ _ hseat =>
      refine ⟨_, ?_, hseat.mono ho⟩
      rw [scopeOf?_declareVariable, scopeOf?_place_self]
  | named =>
    cases hf with
    | named _ _ hseat hp => exact ⟨_, by rw [scopeOf?_declareVariable, hp], hseat.mono ho⟩
  | valued => exact absurd (by simp [Job.numbers]) hsettled
  | bound => exact absurd rfl hr

/-- A scope that a step opens belongs to the node of its job. -/
theorem Step.owns_node (hs : Step job t left t') (hf : Fits root t job)
    (hu : ∀ k ∈ job.numbers, t.scopeOpenedBy? k = none) (hlt : ∀ {k s}, t.scopeOpenedBy? k = some s → s < t.scopes.length)
    (hr : job.role ≠ .bound) (h : t'.scopeOpenedBy? job.node.number = some s) : Owns t' job.node job.around s := by
  have ho : KeepsOpened t t' := fun h => hs.opened_mono hu h
  have hnone := hu _ (Job.number_mem hr)
  have hinside : ∀ {as scope}, Inside t as scope → scope < t.scopes.length := fun hi => hlt hi.choose_spec.2
  have hnew : ∀ (kind : Scope.Kind) (node scope : Nat),
      (t.openScope kind node scope).scopes[t.scopes.length]? = some ⟨kind, some scope, node, [], .empty⟩ := by
    simp [openScope]
  have hscope : ∀ {n : Nat} {scope : Nat}, (t.openBody n scope).scopeOpenedBy? n = some s → t.scopes.length = s := by
    intro n scope h
    simpa using h
  cases hs with
  | body hk =>
    cases hf with
    | visit _ _ hp hi =>
      obtain rfl := hscope h
      exact .block hk hp (hnew _ _ _) rfl rfl rfl (hinside hi) (hi.mono ho)
  | loop =>
    cases hf with
    | loop _ hk hl _ _ hi =>
      obtain rfl := hscope h
      exact .block hk (hl ▸ rfl) (hnew _ _ _) rfl rfl rfl (hinside hi) (hi.mono ho)
  | handled =>
    cases hf with
    | handled _ hk hh _ hi =>
      obtain rfl := hscope h
      exact .block hk (hh ▸ rfl) (hnew _ _ _) rfl rfl rfl (hinside hi) (hi.mono ho)
  | definition hk =>
    cases hf with
    | visit _ _ _ hi =>
      have hs : t.scopes.length = s := by simpa [place] using h
      subst hs
      exact .definition hk (hnew _ _ _) rfl rfl rfl (hinside hi) (hi.mono ho)
  | @routine _ _ scope =>
    cases hf with
    | routine _ hk hd hopened =>
      have hs : scope = s := by simpa using h
      subst hs
      exact .routine hk hd (ho hopened)
  | bound => exact absurd rfl hr
  | _ => simp_all

/-! ## The invariant -/

/-- Where the walk is: these jobs are left, and all else has its place. -/
structure Sound (root : Node) (todo : List Job) (t : ScopeTree) : Prop where
  nodup : (pending todo).Nodup
  fits : ∀ job ∈ todo, Fits root t job
  unopened : ∀ k ∈ pending todo, t.scopeOpenedBy? k = none
  opened_lt : ∀ {k s}, t.scopeOpenedBy? k = some s → s < t.scopes.length
  placed : ∀ {n as}, Way root n as → n.number ∈ pending todo ∨ ∃ s, t.scopeOf? n.number = some s ∧ Seated t n as s
  owns : ∀ {b as s}, Way root b as → t.scopeOpenedBy? b.number = some s → Owns t b as s
  within : ∀ k, k ∉ root.numbers → t.scopeOf? k = none ∧ t.entryOf? k = none

theorem Step.opened_lt (hs : Step job t left t') (hf : Fits root t job)
    (hlt : ∀ {k s}, t.scopeOpenedBy? k = some s → s < t.scopes.length) (h : t'.scopeOpenedBy? k = some s) :
    s < t'.scopes.length := by
  have hle : ∀ {i}, i < t.scopes.length → i < t'.scopes.length := by
    intro i hi
    obtain ⟨sc, hsc, -⟩ := hs.grows.scopes (List.getElem?_eq_getElem hi)
    exact (List.getElem?_eq_some_iff.mp hsc).1
  by_cases hk : job.node.number = k
  · subst hk
    cases hs with
    | body | loop | handled | definition =>
      have hs : t.scopes.length = s := by simpa [place] using h
      subst hs
      simp [openBody, openScope, place]
    | @routine _ _ scope =>
      cases hf with
      | routine _ _ _ hopened =>
        have hs : scope = s := by simpa using h
        exact hle (hlt (hs ▸ hopened))
    | _ => exact hle (hlt (by simpa using h))
  · rw [hs.scopeOpenedBy?_of_ne hk] at h
    exact hle (hlt h)

/-- What one step keeps. -/
theorem Sound.step (hi : Sound root (job :: todo) t) (hs : Step job t left t') (hn : root.numbers.Nodup) :
    Sound root (left ++ todo) t' := by
  have hf : Fits root t job := hi.fits job (.head _)
  have hu : ∀ k ∈ job.numbers, t.scopeOpenedBy? k = none := fun k hk => hi.unopened k (List.mem_append_left _ hk)
  have ho : KeepsOpened t t' := fun h => hs.opened_mono hu h
  -- the other jobs are about nodes that this one has nothing to do with
  have hdisjoint : ∀ {k}, k ∈ pending todo → k ∉ job.numbers :=
    fun hk hk' => (List.nodup_append.mp hi.nodup).2.2 _ hk' _ hk rfl
  have hleft : ∀ {k}, k ∈ pending left → t'.scopeOpenedBy? k = none :=
    hs.unopened_left (List.nodup_append.mp hi.nodup).1 hu
  refine ⟨hs.nodup_pending hi.nodup, ?_, ?_, hs.opened_lt hf hi.opened_lt, ?_, ?_, ?_⟩
  · intro j hj
    rcases List.mem_append.mp hj with hj | hj
    · exact hs.fits_left hf hu j hj
    · refine (hi.fits j (.tail _ hj)).mono ho fun k hk => hs.scopeOf?_eq (hdisjoint ?_)
      exact List.mem_flatMap.mpr ⟨j, hj, hk⟩
  · intro k hk
    rw [pending_append, List.mem_append] at hk
    rcases hk with hk | hk
    · exact hleft hk
    · rw [hs.scopeOpenedBy?_eq (hdisjoint hk)]
      exact hi.unopened k (List.mem_append_right _ hk)
  · intro n as hw
    rcases hs.node_cases hf hn hw todo with hl | ⟨rfl, rfl, hl, hr⟩ | ⟨hown, hl⟩
    · exact .inl hl
    · exact .inr (hs.seated_node hf hu hl hr)
    · obtain ⟨s, hs', hseat⟩ := (hi.placed hw).resolve_left hl
      exact .inr ⟨s, by rw [hs.scopeOf?_eq hown, hs'], hseat.mono ho⟩
  · intro b as s hw hopened
    by_cases hown : b.number ∈ job.numbers
    · rcases hs.mem_pending hown with he | hl
      · obtain ⟨rfl, rfl⟩ := hw.unique hn hf.way he
        exact hs.owns_node hf hu hi.opened_lt (Job.role_ne_bound hown) hopened
      · rw [hleft hl] at hopened
        cases hopened
    · rw [hs.scopeOpenedBy?_eq hown] at hopened
      exact (hi.owns hw hopened).mono hs.grows ho
  · intro k hk
    have hne : job.node.number ≠ k := fun he => hk (he ▸ hf.way.number_mem)
    rw [hs.scopeOf?_of_ne hne, hs.grows.resolved (by simpa using hne.symm)]
    exact hi.within k hk

/-- The file has been placed; the rest is still to be looked at. -/
theorem Sound.start (hn : root.numbers.Nodup) (hk : root.kind = .file) (hv : Node.AllVisited root.children) :
    Sound root (jobs .visit [root] 0 root.children) ((ScopeTree.start root.number).place root.number 0) := by
  have hopened : ∀ k, ((ScopeTree.start root.number).place root.number 0).scopeOpenedBy? k =
      if root.number = k then some 0 else none := fun k => Table.find?_insert _ _ _ _
  have hplaced : ∀ k, ((ScopeTree.start root.number).place root.number 0).scopeOf? k =
      if root.number = k then some 0 else none := fun k => Table.find?_insert _ _ _ _
  have hroot : root.kind.isBlock := by rw [hk]; rfl
  have hcons := hn
  rw [Node.numbers_eq, List.nodup_cons] at hcons
  refine ⟨by rw [pending_visit]; exact hcons.2, ?_, ?_, ?_, ?_, ?_, ?_⟩
  · intro j hj
    refine fits_visit .root (hk ▸ rfl) (fun _ h => h) hv (.here ?_ hroot) hj
    rw [hopened, if_pos rfl]
  · intro k hm
    have hne : root.number ≠ k := by
      intro he
      rw [pending_visit, ← he] at hm
      exact hcons.1 hm
    rw [hopened, if_neg hne]
  · intro k s h
    rw [hopened] at h
    split at h
    · cases h
      exact Nat.zero_lt_one
    · cases h
  · intro n as hw
    rcases root_or_pending hn hw with ⟨rfl, rfl⟩ | hm
    · exact .inr ⟨0, by rw [hplaced, if_pos rfl], n, by simp [Node.seat?, hk, Node.Kind.isBlock], by simp [hopened]⟩
    · exact .inl hm
  · intro b as s hw h
    rw [hopened] at h
    split at h
    · rename_i he
      obtain ⟨rfl, rfl⟩ := hw.unique hn .root he.symm
      cases h
      exact .file hk rfl rfl rfl rfl
    · cases h
  · intro k hk'
    rw [Node.numbers_eq, List.mem_cons, not_or] at hk'
    rw [hplaced, if_neg fun he => hk'.1 he.symm]
    exact ⟨rfl, rfl⟩

/-- All nodes of a formed file have been placed. -/
theorem sound_build {tree : SyntaxTree} (h : tree.FormedFile) : Sound tree.root [] (build tree) :=
  (run_build h).invariant (fun hs hi => hi.step hs h.nodup) (.start h.nodup h.file (h.formed.items h.file))

theorem Owns.procedure (h : Owns t b as s) (hk : b.kind.isDefinition) :
    ∃ sc, t.scopes[s]? = some sc ∧ sc.kind = .procedure ∧ sc.node = b.number := by
  cases h with
  | file hb | routine hb | block hb =>
    rw [hb] at hk
    cases hk
  | definition _ hs hkind hn => exact ⟨_, hs, hkind, hn⟩

/-- Scopes are given to nodes by the layout of the tree alone. Every node is in a scope: the
    parameters of a definition in its procedure scope, a loop variable in the scope of the
    body of its loop, and any other node in the scope of the first block met on the way from
    the node up. Each such scope is the one its block or definition opened. What is not in the tree
    is in no scope and means nothing. -/
theorem build_scopes_lexical (tokens : List Token) :
    let tree := (Grammar.parse tokens).1
    let t := build tree
    (∀ n ∈ tree.nodes, ∃ s, t.scopeOf? n.number = some s ∧
      match n.kind with
      | .parameterList | .parameter .. =>
        ∃ d sc, tree.enclosingDefinition? n.number = some d ∧ t.scopeOpenedBy? d.number = some s ∧
          t.scopes[s]? = some sc ∧ sc.kind = .procedure ∧ sc.node = d.number
      | .loopVariable _ =>
        ∃ l body label, (tree.ancestors n.number).head? = some l ∧ l.kind = .forLoop label ∧
          l.children.getLast? = some body ∧ body.kind = .body ∧ t.scopeOpenedBy? body.number = some s
      | _ => ∃ b, (n :: tree.ancestors n.number).find? (·.kind.isBlock) = some b ∧ t.scopeOpenedBy? b.number = some s) ∧
    (∀ b ∈ tree.nodes, ∀ s, t.scopeOpenedBy? b.number = some s → Owns t b (tree.ancestors b.number) s) ∧
    ∀ k, k ∉ tree.nodes.map Node.number → t.scopeOf? k = none ∧ t.entryOf? k = none := by
  intro tree t
  have hfile : tree.FormedFile := Grammar.parse_formedFile tokens
  have hsound : Sound tree.root [] t := sound_build hfile
  refine ⟨fun n hn => ?_, fun b hb s hs => ?_, fun k hk => ?_⟩
  · obtain ⟨as, hw⟩ := SyntaxTree.mem_nodes_iff.mp hn
    obtain ⟨s, hs, b, hb, hopened⟩ := (hsound.placed hw).resolve_left (by simp)
    refine ⟨s, hs, ?_⟩
    rw [SyntaxTree.enclosingDefinition?, hfile.ancestors_of_way hw]
    have hdefinition : as.find? (·.kind.isDefinition) = some b →
        ∃ sc, t.scopes[s]? = some sc ∧ sc.kind = .procedure ∧ sc.node = b.number := by
      intro hfind
      obtain ⟨bs, hwb⟩ := hw.of_mem (List.mem_of_find?_eq_some hfind)
      have hdef := List.find?_some hfind
      exact (hsound.owns hwb hopened).procedure hdef
    cases hk : n.kind with
    | parameterList | parameter =>
      rw [Node.seat?, hk] at hb
      obtain ⟨sc, hsc⟩ := hdefinition hb
      exact ⟨b, sc, hb, hopened, hsc⟩
    | loopVariable name =>
      rw [Node.seat?, hk] at hb
      cases hw with
      | root => cases hb
      | @child l _ rest up hc =>
        obtain ⟨label, body, hl, hlast, hbody⟩ := (up.formed hfile.formed).layout.of_loopVariable hc hk
        obtain rfl : body = b := Option.some.inj (hlast.symm.trans hb)
        exact ⟨l, body, label, rfl, hl, hlast, hbody, hopened⟩
    | _ =>
      rw [Node.seat?, hk] at hb
      exact ⟨b, hb, hopened⟩
  · obtain ⟨as, hw⟩ := SyntaxTree.mem_nodes_iff.mp hb
    rw [hfile.ancestors_of_way hw]
    exact hsound.owns hw hs
  · rw [SyntaxTree.map_number_nodes] at hk
    exact hsound.within k hk

end ScopeTree

end Magik
