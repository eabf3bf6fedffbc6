/-
  Magik.Proofs.Scope.Resolution — what the names of a file refer to.

  Every name in the tree refers to an entry of that name, which is stored in a scope that
  the scope of the name sees. A definition sees nothing between itself and the file: the
  scopes seen from inside it were opened by it or inside it, or are global.
-/

import Magik.Proofs.Scope.Entries
import Magik.Proofs.Scope.Placement

namespace Magik

namespace Node

variable {name : String}

/-- Parameters and their lists, which stand in a definition beside its body. -/
def Kind.isParameterPart : Kind → Bool
  | .parameterList | .parameter .. => true
  | _ => false

/-- The name that stands at a node, read, assigned or declared. -/
def writtenName? (n : Node) : Option String :=
  match n.kind with
  | .identifier name | .declared name | .parameter name _ | .loopVariable name => some name
  | _ => none

theorem writtenName?_identifier {n : Node} (h : n.kind = .identifier name) : n.writtenName? = some name := by
  simp [writtenName?, h]

theorem writtenName?_of_declaredName? {n : Node} (h : n.declaredName? = some name) : n.writtenName? = some name := by
  cases hk : n.kind <;> simp_all [writtenName?, declaredName?]

theorem kind_of_writtenName? {n : Node} (h : n.writtenName? = some name) (hv : n.kind.isVisited) :
    n.kind = .identifier name := by
  cases hk : n.kind <;> simp_all [writtenName?, Kind.isVisited]

variable {root n b d : Node} {as : List Node}

theorem Layout.isParameterPart_eq_false {kind : Kind} {children : List Node} (h : Layout kind children)
    (hn : n ∈ children) (hk : n.kind.isParameterPart = false) : kind.isParameterPart = false := by
  cases h with
  | leaf => cases hn
  | parameterList h =>
    obtain ⟨name, mode, hp⟩ := h n hn
    rw [hp] at hk
    cases hk
  | definition hk' | values hk' | valueAndBody hk' | onlyBody hk' | assignment hk' | applied hk' =>
    cases kind <;> cases hk' <;> rfl
  | _ => rfl

/-- Between a definition and what is inside it, its parameters apart, there is a block. -/
theorem Way.block_of_mem (hw : Way root n as) (hf : root.Formed) (hn : n.kind.isParameterPart = false) (hd : d ∈ as)
    (hk : d.kind.isDefinition) : ∃ b bs, (n :: as).find? (·.kind.isBlock) = some b ∧ Way root b bs ∧ d ∈ bs := by
  induction hw with
  | root => cases hd
  | @child p n as up hc ih =>
    by_cases hblock : n.kind.isBlock
    · exact ⟨n, p :: as, by rw [List.find?_cons, hblock], .child up hc, hd⟩
    · have hlayout := (up.formed hf).layout
      rw [List.find?_cons, Bool.eq_false_iff.mpr hblock]
      rcases List.mem_cons.mp hd with rfl | hd
      · -- a definition has its parameters and a body, and nothing else
        obtain ⟨list, body, he, hl, hb⟩ := hlayout.of_isDefinition hk
        rw [he, List.mem_cons, List.mem_singleton] at hc
        rcases hc with rfl | rfl
        · rw [hl] at hn
          cases hn
        · exact absurd (hb ▸ rfl) hblock
      · exact ih (hlayout.isParameterPart_eq_false hc hn) hd

/-- A node inside a definition has its seat there, or the definition is its seat. -/
theorem Way.seat_of_mem (hw : Way root n as) (hf : root.Formed) (hb : n.seat? as = some b) (hd : d ∈ as)
    (hk : d.kind.isDefinition) : ∃ bs, Way root b bs ∧ d ∈ b :: bs := by
  have hother : n.kind.isParameterPart = false → (n :: as).find? (·.kind.isBlock) = some b →
      ∃ bs, Way root b bs ∧ d ∈ b :: bs := by
    intro hn hb
    obtain ⟨c, cs, hc, hwc, hdc⟩ := hw.block_of_mem hf hn hd hk
    cases hc.symm.trans hb
    exact ⟨cs, hwc, .tail _ hdc⟩
  have hparameter : as.find? (·.kind.isDefinition) = some b → ∃ bs, Way root b bs ∧ d ∈ b :: bs := by
    intro hb
    obtain ⟨-, pre, bs, rfl, hpre⟩ := List.find?_eq_some_iff_append.mp hb
    refine ⟨bs, hw.of_append, ?_⟩
    rcases List.mem_append.mp hd with hd | hd
    · exact absurd hk (by simpa using hpre d hd)
    · exact hd
  cases hkind : n.kind with
  | parameterList | parameter =>
    rw [seat?, hkind] at hb
    exact hparameter hb
  | loopVariable name =>
    rw [seat?, hkind] at hb
    cases hw with
    | root => cases hd
    | child up _ => exact ⟨_, .child up (List.mem_of_getLast? hb), .tail _ hd⟩
  | _ =>
    rw [seat?, hkind] at hb
    exact hother (hkind ▸ rfl) hb

end Node

namespace ScopeTree

open Node (Way)

variable {root n b d : Node} {as bs : List Node} {t t' : ScopeTree} {job : Job} {left todo : List Job}
  {scope s p v i : Nat} {sc : Scope} {name : String} {tree : SyntaxTree}

/-! ## What a scope sees -/

theorem visible_zero (t : ScopeTree) : t.visible 0 = [0] := way_zero _

section

variable (hs : t.scopes[s]? = some sc)
include hs

/-- A procedure sees itself and the global scope. -/
theorem visible_of_procedure (hk : sc.kind = .procedure) (h0 : 0 < s) :
    t.visible s = [s, 0] := by
  rw [visible, way_of_some (by simp [hs, nextVisible, hk]) h0, way_zero]

theorem procedureScope?_of_procedure (hk : sc.kind = .procedure) :
    t.procedureScope? s = some s := by
  rw [procedureScope?, outward, way, List.find?_cons]
  simp [hs, hk]

/-- A body sees itself and what the scope around it sees. -/
theorem visible_of_body (hk : sc.kind = .body) (hp : sc.parent = some p) (hlt : p < s) :
    t.visible s = s :: t.visible p :=
  way_of_some (by simp [hs, nextVisible, hk, hp]) hlt

theorem outward_of_parent (hp : sc.parent = some p) (hlt : p < s) :
    t.outward s = s :: t.outward p :=
  way_of_some (by simp [hs, hp]) hlt

theorem procedureScope?_of_body (hk : sc.kind = .body) (hp : sc.parent = some p)
    (hlt : p < s) : t.procedureScope? s = t.procedureScope? p := by
  rw [procedureScope?, outward_of_parent hs hp hlt, List.find?_cons, procedureScope?]
  simp [hs, hk]

end

/-- The node opened the scope, and the nodes around it those around the scope, up to the file. -/
inductive Climbs (root : Node) (t : ScopeTree) : Node → List Node → Nat → Prop
  | file {b : Node} {sc : Scope} (ho : t.scopeOpenedBy? b.number = some 0) (hs : t.scopes[0]? = some sc)
      (hkind : sc.kind = .global) (hn : sc.node = b.number) : Climbs root t b [] 0
  | definition {b c : Node} {as cs pre : List Node} {s p : Nat} {sc : Scope} (hw : Way root b as)
      (ho : t.scopeOpenedBy? b.number = some s) (hk : b.kind.isDefinition) (hs : t.scopes[s]? = some sc)
      (hkind : sc.kind = .procedure) (hn : sc.node = b.number) (hp : sc.parent = some p) (hlt : p < s) (heq : as = pre ++ c :: cs)
      (hup : Climbs root t c cs p) : Climbs root t b as s
  | routine {b d : Node} {as : List Node} {s : Nat} (hk : b.kind = .body) (hup : Climbs root t d as s) :
      Climbs root t b (d :: as) s
  | block {b c q : Node} {as cs pre : List Node} {s p : Nat} {sc : Scope} (hw : Way root b (q :: as))
      (ho : t.scopeOpenedBy? b.number = some s) (hk : b.kind = .body) (hq : q.kind.isDefinition = false)
      (hs : t.scopes[s]? = some sc) (hkind : sc.kind = .body) (hn : sc.node = b.number) (hp : sc.parent = some p)
      (hlt : p < s) (hc : (q :: as).find? (·.kind.isBlock) = some c)
      (heq : q :: as = pre ++ c :: cs) (hup : Climbs root t c cs p) : Climbs root t b (q :: as) s

namespace Sound

/-- The scope a definition opened is a procedure's, and sees itself and the global scope. -/
theorem procedure (h : Sound root todo t) (hw : Way root d as) (hd : d.kind.isDefinition)
    (ho : t.scopeOpenedBy? d.number = some s) :
    ∃ sc, t.scopes[s]? = some sc ∧ sc.node = d.number ∧ t.visible s = [s, 0] ∧ t.procedureScope? s = some s := by
  cases h.owns hw ho with
  | file hk | routine hk | block hk =>
    rw [hk] at hd
    cases hd
  | definition _ hs hkind hn _ hlt _ =>
    exact ⟨_, hs, hn, visible_of_procedure hs hkind (Nat.zero_lt_of_lt hlt), procedureScope?_of_procedure hs hkind⟩

/-- Where a block or definition is, the block around it has a way and a scope of its own. -/
theorem way_of_inside (hw : Way root b as) (hi : Inside t as s) : ∃ c cs, Way root c cs ∧ t.scopeOpenedBy? c.number = some s := by
  obtain ⟨c, hc, ho⟩ := hi
  obtain ⟨cs, hwc⟩ := hw.of_mem (List.mem_of_find?_eq_some hc)
  exact ⟨c, cs, hwc, ho⟩

theorem climbs (h : Sound root todo t) (hw : Way root b as) (ho : t.scopeOpenedBy? b.number = some s) :
    Climbs root t b as s := by
  induction hlen : as.length using Nat.strongRecOn generalizing b as s with
  | ind len ih =>
    subst hlen
    have hup : ∀ {c p}, c ∈ as → t.scopeOpenedBy? c.number = some p → ∃ pre cs, as = pre ++ c :: cs ∧ Climbs root t c cs p := by
      intro c p hc hoc
      obtain ⟨pre, cs, rfl⟩ := List.append_of_mem hc
      exact ⟨pre, cs, rfl, ih cs.length (by simp; omega) hw.of_append hoc rfl⟩
    cases h.owns hw ho with
    | file _ hs hkind hn => exact .file ho hs hkind hn
    | definition hk hs hkind hn hp hlt hi =>
      obtain ⟨c, hc, hoc⟩ := hi
      obtain ⟨pre, cs, heq, hc⟩ := hup (List.mem_of_find?_eq_some hc) hoc
      exact .definition hw ho hk hs hkind hn hp hlt heq hc
    | routine hk _ ho' =>
      cases hw with
      | child up _ => exact .routine hk (ih _ (Nat.lt_succ_self _) up ho' rfl)
    | block hk hq hs hkind hn hp hlt hi =>
      obtain ⟨c, hfind, hoc⟩ := hi
      obtain ⟨pre, cs, heq, hc⟩ := hup (List.mem_of_find?_eq_some hfind) hoc
      exact .block hw ho hk hq hs hkind hn hp hlt hfind heq hc

end Sound

namespace Climbs

/-- Every scope sees the global one and the procedure it is in. -/
theorem sees (h : Climbs root t b as s) :
    0 ∈ t.visible s ∧ ∀ i, t.procedureScope? s = some i → i ∈ t.visible s := by
  induction h with
  | file =>
    refine ⟨by simp [visible_zero], fun i hi => ?_⟩
    have hself : i ∈ t.outward 0 := List.mem_of_find?_eq_some hi
    rw [outward, way_zero] at hself
    rwa [visible_zero]
  | definition _ _ _ hs hkind _ _ hlt =>
    simp [visible_of_procedure hs hkind (Nat.zero_lt_of_lt hlt), procedureScope?_of_procedure hs hkind]
  | routine _ _ ih => exact ih
  | block _ _ _ _ hs hkind _ hp hlt _ _ _ ih =>
    rw [visible_of_body hs hkind hp hlt, procedureScope?_of_body hs hkind hp hlt]
    exact ⟨.tail _ ih.1, fun i hi => .tail _ (ih.2 i hi)⟩

/-- Seen from inside a definition, every scope but the global one was opened there. -/
theorem visible_within (h : Climbs root t b as s) (hf : root.Formed) (hn : root.numbers.Nodup) (hd : d ∈ b :: as)
    (hk : d.kind.isDefinition) (hv : v ∈ t.visible s) : v = 0 ∨ ∃ sc, t.scopes[v]? = some sc ∧ sc.node ∈ d.numbers := by
  have hbody : ∀ {b as}, b.kind = .body → d ∈ b :: as → d ∈ as := by
    intro b as hkb hd
    refine (List.mem_cons.mp hd).resolve_left fun he => ?_
    rw [he, hkb] at hk
    cases hk
  induction h with
  | file =>
    rw [visible_zero] at hv
    exact .inl (List.mem_singleton.mp hv)
  | definition hw _ _ hs hkind hnode _ hlt =>
    rw [visible_of_procedure hs hkind (Nat.zero_lt_of_lt hlt), List.mem_cons, List.mem_singleton] at hv
    exact hv.symm.imp_right fun he => ⟨_, he ▸ hs, hnode ▸ hw.number_mem_of_mem hd⟩
  | routine hkb _ ih => exact ih (hbody hkb hd) hv
  | block hw _ hkb hq hs hkind hnode hp hlt hc heq _ ih =>
    rw [visible_of_body hs hkind hp hlt] at hv
    rcases List.mem_cons.mp hv with rfl | hv
    · exact .inr ⟨_, hs, hnode ▸ hw.number_mem_of_mem hd⟩
    · -- the block around is inside the definition as well, since only a body stands in between
      have hwc := Way.of_append (heq ▸ hw)
      cases hw with
      | child up hcb =>
        have hdr := (List.mem_cons.mp (hbody hkb hd)).resolve_left fun he => by
          rw [← he, hk] at hq
          cases hq
        have hqk := (up.formed hf).layout.isParameterPart_eq_false hcb (hkb ▸ rfl)
        obtain ⟨c', cs', hfind, hwc', hdc⟩ := up.block_of_mem hf hqk hdr hk
        obtain ⟨-, rfl⟩ := hwc.unique hn hwc' (congrArg Node.number (Option.some.inj (hc.symm.trans hfind)))
        exact ih (.tail _ hdc) hv

end Climbs

/-! ## Names -/

/-- The walk so far: what has been looked at refers to an entry that it sees. -/
structure Resolving (root : Node) (todo : List Job) (t : ScopeTree) : Prop where
  sound : Sound root todo t
  named : t.Named
  refers : ∀ {n as name}, Way root n as → n.writtenName? = some name → n.number ∈ pending todo ∨
    ∃ s, t.scopeOf? n.number = some s ∧ s < t.scopes.length ∧ Refers t n.number name (t.visible s)

theorem Sound.lt_of_inside (h : Sound root todo t) (hi : Inside t as s) : s < t.scopes.length := by
  obtain ⟨b, -, ho⟩ := hi
  exact h.opened_lt ho

theorem Sound.sees_of_inside (h : Sound root todo t) (hw : Way root n as) (hi : Inside t as s) :
    0 ∈ t.visible s ∧ ∀ i, t.procedureScope? s = some i → i ∈ t.visible s := by
  obtain ⟨c, cs, hwc, ho⟩ := Sound.way_of_inside hw hi
  exact (h.climbs hwc ho).sees

/-- A step that settles a name has it refer to an entry that it sees. -/
theorem Step.refers_node (hs : Step job t left t') (h : Sound root (job :: todo) t) (hn : t.Named)
    (hsettled : job.node.number ∉ pending left) (hname : job.node.writtenName? = some name) :
    ∃ s, t'.scopeOf? job.node.number = some s ∧ s < t.scopes.length ∧
      Refers t' job.node.number name (t.visible s) := by
  have hf := h.fits job (.head _)
  have hw := hf.way
  have hself : ∀ s, s ∈ t.visible s := mem_way_self _
  cases hs with
  | read hk =>
    cases hf with
    | visit _ _ _ hi =>
      cases hname.symm.trans (Node.writtenName?_identifier hk)
      have hsees := h.sees_of_inside hw hi
      refine ⟨_, by rw [scopeOf?_read, scopeOf?_place_self], h.lt_of_inside hi, ?_⟩
      exact refers_read ((Carries.place _ _).named hn) (fun _ => id) hsees.1 _
  | target hk =>
    cases hf with
    | target _ _ hi =>
      cases hname.symm.trans (Node.writtenName?_identifier hk)
      have hsees := h.sees_of_inside hw hi
      refine ⟨_, by rw [scopeOf?_assign, scopeOf?_place_self], h.lt_of_inside hi, ?_⟩
      exact refers_assign ((Carries.place _ _).named hn) (fun _ => id) hsees.1 hsees.2 _
  | declared hd =>
    cases hf with
    | declared _ _ _ hseat =>
      cases hname.symm.trans (Node.writtenName?_of_declaredName? hd)
      obtain ⟨b, -, ho⟩ := hseat
      refine ⟨_, by rw [scopeOf?_declareVariable, scopeOf?_place_self], h.opened_lt ho, ?_⟩
      exact refers_declareVariable ((Carries.place _ _).named hn) (hself _) _ _
  | named hd =>
    cases hf with
    | named _ _ hseat hp =>
      cases hname.symm.trans (Node.writtenName?_of_declaredName? (Node.declaredName?_declared hd))
      obtain ⟨b, -, ho⟩ := hseat
      refine ⟨_, by rw [scopeOf?_declareVariable, hp], h.opened_lt ho, ?_⟩
      exact refers_declareVariable hn (hself _) _ _
  | valued => exact absurd (by simp [Job.numbers]) hsettled
  | bound hk =>
    rw [Node.writtenName?, hk] at hname
    cases hname
  | plain hk | body hk | definition hk | forLoop hk | attempt hk | separate hk | shared hk | assignment hk =>
    cases hf with
    | visit _ hv _ _ =>
      rw [Node.kind_of_writtenName? hname hv] at hk
      cases hk
  | parameters =>
    cases hf with
    | parameters _ hk => exact absurd hname (by simp [Node.writtenName?, hk])
  | routine =>
    cases hf with
    | routine _ hk => exact absurd hname (by simp [Node.writtenName?, hk])
  | loop =>
    cases hf with
    | loop _ hk => exact absurd hname (by simp [Node.writtenName?, hk])
  | handler =>
    cases hf with
    | handler _ hk => exact absurd hname (by simp [Node.writtenName?, hk])
  | handled =>
    cases hf with
    | handled _ hk => exact absurd hname (by simp [Node.writtenName?, hk])

theorem Resolving.step (h : Resolving root (job :: todo) t) (hs : Step job t left t') (hn : root.numbers.Nodup) :
    Resolving root (left ++ todo) t' := by
  have hf : Fits root t job := h.sound.fits job (.head _)
  refine ⟨h.sound.step hs hn, hs.carries.named h.named, fun {n as name} hw hname => ?_⟩
  have hlater : ∀ {s}, s < t.scopes.length → s < t'.scopes.length ∧ t'.visible s = t.visible s := by
    intro s hlt
    obtain ⟨sc, hsc, -⟩ := hs.grows.scopes (List.getElem?_eq_getElem hlt)
    exact ⟨(List.getElem?_eq_some_iff.mp hsc).1, hs.grows.visible_eq hlt⟩
  rcases hs.node_cases hf hn hw todo with hl | ⟨rfl, rfl, hl, -⟩ | ⟨hown, hl⟩
  · exact .inl hl
  · obtain ⟨s, hplaced, hlt, hr⟩ := hs.refers_node h.sound h.named hl hname
    exact .inr ⟨s, hplaced, (hlater hlt).1, (hlater hlt).2.symm ▸ hr⟩
  · obtain ⟨s, hplaced, hlt, hr⟩ := (h.refers hw hname).resolve_left hl
    refine .inr ⟨s, by rw [hs.scopeOf?_eq hown, hplaced], (hlater hlt).1, ?_⟩
    rw [(hlater hlt).2]
    refine hr.mono hs.carries (hs.entryOf?_eq hf hn hw (fun name' hk => ?_) hown)
    exact absurd hname (by simp [Node.writtenName?, hk])

theorem Resolving.start (h : tree.FormedFile) :
    Resolving tree.root (jobs .visit [tree.root] 0 tree.root.children)
      ((ScopeTree.start tree.root.number).place tree.root.number 0) := by
  refine ⟨.start h.nodup h.file (h.formed.items h.file), fun {i name x} hx => ?_, fun {n as name} hw hname => ?_⟩
  · have hnone : ((ScopeTree.start tree.root.number).place tree.root.number 0).entryIn? name i = none := by
      cases i <;> rfl
    rw [hnone] at hx
    cases hx
  · rcases root_or_pending h.nodup hw with ⟨rfl, rfl⟩ | hm
    · exact absurd hname (by simp [Node.writtenName?, h.file])
    · exact .inl hm

theorem resolving_build (h : tree.FormedFile) : Resolving tree.root [] (build tree) :=
  (run_build h).invariant (fun hs hi => hi.step hs h.nodup) (.start h)

/-- A name has a scope and an entry, and the node that it sits in opened the scope. -/
theorem Resolving.exists_seat (h : Resolving root [] t) (hw : Way root n as) (hname : n.writtenName? = some name) :
    ∃ s x e b, t.scopeOf? n.number = some s ∧ t.entryOf? n.number = some x ∧ t.entryAt? x = some e ∧ e.name = name ∧
      e.scope ∈ t.visible s ∧ n.seat? as = some b ∧ t.scopeOpenedBy? b.number = some s := by
  obtain ⟨s, hs, -, x, e, hx, he, hen, hvisible⟩ := (h.refers hw hname).resolve_left (by simp)
  obtain ⟨s', hs', b, hb, ho⟩ := (h.sound.placed hw).resolve_left (by simp)
  cases hs.symm.trans hs'
  exact ⟨s, x, e, b, hs, hx, he, hen, hvisible, hb, ho⟩

/-- A scope that was opened around a node was not opened by it or inside it. -/
theorem Sound.node_not_mem (h : Sound root todo t) (hn : root.numbers.Nodup) (hw : Way root d as) (hb : b ∈ as)
    (ho : t.scopeOpenedBy? b.number = some s) (hs : t.scopes[s]? = some sc) (hin : sc.node ∈ d.numbers) : s = 0 := by
  obtain ⟨pre, bs, rfl⟩ := List.append_of_mem hb
  have hwb := hw.of_append
  cases h.owns hwb ho with
  | file => rfl
  | definition _ hs' _ hn' | block _ _ hs' _ hn' =>
    cases hs.symm.trans hs'
    exact absurd (hn' ▸ hin) (hw.number_not_mem hn hb)
  | routine _ hd ho' =>
    cases hwb with
    | child up _ =>
      obtain ⟨sc', hs', hn', -⟩ := h.procedure up hd ho'
      cases hs.symm.trans hs'
      exact absurd (hn' ▸ hin) (hw.number_not_mem hn (by simp))

/-- Names refer to what is visible where they stand. Every name in the tree refers to an entry
    of that name, in a scope on the way that a look-up takes from the scope of the name. Inside
    a definition that entry is global or was declared inside the definition: no scope that
    something around the definition opened has it, the global one apart. -/
theorem build_names_visible (tokens : List Token) :
    let tree := (Grammar.parse tokens).1
    let t := build tree
    ∀ n ∈ tree.nodes, ∀ name, n.writtenName? = some name →
      ∃ s x e, t.scopeOf? n.number = some s ∧ t.entryOf? n.number = some x ∧ t.entryAt? x = some e ∧ e.name = name ∧
        e.scope ∈ t.visible s ∧
        ∀ d ∈ tree.ancestors n.number, d.kind.isDefinition →
          (e.scope = 0 ∨ ∃ sc, t.scopes[e.scope]? = some sc ∧ sc.node ∈ d.numbers) ∧
          ∀ b ∈ tree.ancestors d.number, t.scopeOpenedBy? b.number = some e.scope → e.scope = 0 := by
  intro tree t n hn name hname
  have hfile : tree.FormedFile := Grammar.parse_formedFile tokens
  have hr : Resolving tree.root [] t := resolving_build hfile
  obtain ⟨as, hw⟩ := SyntaxTree.mem_nodes_iff.mp hn
  obtain ⟨s, x, e, c, hs, hx, he, hen, hvisible, hc, hopened⟩ := hr.exists_seat hw hname
  refine ⟨s, x, e, hs, hx, he, hen, hvisible, fun d hd hk => ?_⟩
  rw [hfile.ancestors_of_way hw] at hd
  obtain ⟨cs, hwc, hdc⟩ := hw.seat_of_mem hfile.formed hc hd hk
  have hwithin := (hr.sound.climbs hwc hopened).visible_within hfile.formed hfile.nodup hdc hk hvisible
  refine ⟨hwithin, fun b hb hob => ?_⟩
  obtain ⟨ds, hwd⟩ := hw.of_mem hd
  rw [hfile.ancestors_of_way hwd] at hb
  rcases hwithin with h0 | ⟨sc, hsc, hin⟩
  · exact h0
  · exact hr.sound.node_not_mem hfile.nodup hwd hb hob hsc hin

end ScopeTree

end Magik
