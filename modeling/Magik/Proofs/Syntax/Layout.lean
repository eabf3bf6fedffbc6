/-
  Magik.Proofs.Syntax.Layout — how the children of a node are laid out.

  `Layout` has one rule for each documented layout, and says what kinds of nodes stand in
  it. `Formed` says it of a node and of all below it, and that each child was numbered
  before its parent.
-/

import Magik.Proofs.Syntax.Numbers

namespace Magik.Node

namespace Kind

variable {k : Kind}

/-! ## Families of kinds -/

/-- Nodes that can stand for a value. -/
def isExpression : Kind → Bool
  | .procedure .. | .conditional | .forLoop _ | .whileLoop _ | .plainLoop _ | .block | .protect | .attempt | .lock
  | .catching | .assignment | .augmentedAssignment _ | .binary _ | .unary _ | .invocation _ | .call | .identifier _
  | .literal _ | .vector => true
  | _ => false

/-- Nodes that can stand in a body. -/
def isStatement : Kind → Bool
  | .declaration .. | .returned | .emitted | .leave _ | .continued _ | .loopBody | .thrown | .multipleAssignment
  | .syntaxError => true
  | k => k.isExpression

/-- Nodes that can stand in a file. -/
def isItem : Kind → Bool
  | .package _ | .method _ => true
  | k => k.isStatement

/-- Nodes that stand only where their parent has a place for them. -/
def isPart : Kind → Bool
  | .parameterList | .parameter .. | .body | .declared _ | .branch | .otherwise | .attemptVariable _ => true
  | _ => false

def isLeaf : Kind → Bool
  | .package _ | .parameter .. | .loopVariable _ | .attemptVariable _ | .identifier _ | .literal _ | .syntaxError => true
  | _ => false

/-- Nodes with any number of values. -/
def takesValues : Kind → Bool
  | .returned | .emitted | .leave _ | .continued _ | .loopBody | .vector => true
  | _ => false

/-- Nodes with a value and a body. -/
def takesValueAndBody : Kind → Bool
  | .branch | .whileLoop _ | .lock | .catching => true
  | _ => false

/-- Nodes with a body and nothing else. -/
def takesBody : Kind → Bool
  | .otherwise | .plainLoop _ | .block | .handler _ => true
  | _ => false

/-- Assignments to one name. -/
def isSingleAssignment : Kind → Bool
  | .assignment | .augmentedAssignment _ => true
  | _ => false

/-- Nodes with what they are applied to, and arguments. -/
def takesArguments : Kind → Bool
  | .invocation _ | .call => true
  | _ => false

theorem isStatement_of_isExpression (h : k.isExpression) : k.isStatement := by
  cases k <;> simp_all [isExpression, isStatement]

theorem isItem_of_isStatement (h : k.isStatement) : k.isItem := by
  cases k <;> simp_all [isExpression, isStatement, isItem]

end Kind

/-! ## Layouts -/

inductive Layout : Kind → List Node → Prop
  | file {items : List Node} (h : ∀ n ∈ items, n.kind.isItem) : Layout .file items
  | leaf {kind : Kind} (hk : kind.isLeaf) : Layout kind []
  | definition {kind : Kind} {list body : Node} (hk : kind.isDefinition) (hl : list.kind = .parameterList)
      (hb : body.kind = .body) : Layout kind [list, body]
  | parameterList {ps : List Node} (h : ∀ p ∈ ps, ∃ name mode, p.kind = .parameter name mode) :
      Layout .parameterList ps
  | body {statements : List Node} (h : ∀ s ∈ statements, s.kind.isStatement) : Layout .body statements
  | separate {modifier : Modifier} {vars : List Node} (hne : vars ≠ []) (h : ∀ v ∈ vars, ∃ name, v.kind = .declared name) :
      Layout (.declaration modifier false) vars
  | shared {modifier : Modifier} {vars : List Node} {value : Node} (hne : vars ≠ [])
      (h : ∀ v ∈ vars, (∃ name, v.kind = .declared name) ∧ v.children = []) (hv : value.kind.isExpression) :
      Layout (.declaration modifier true) (vars ++ [value])
  | bare {name : String} : Layout (.declared name) []
  | valued {name : String} {value : Node} (hv : value.kind.isExpression) : Layout (.declared name) [value]
  | values {kind : Kind} {vs : List Node} (hk : kind.takesValues) (h : ∀ v ∈ vs, v.kind.isExpression) : Layout kind vs
  | thrown {tag : Node} {vs : List Node} (ht : tag.kind.isExpression) (h : ∀ v ∈ vs, v.kind.isExpression) :
      Layout .thrown (tag :: vs)
  | conditional {branches : List Node} {last : Option Node} (hne : branches ≠ []) (h : ∀ b ∈ branches, b.kind = .branch)
      (hl : ∀ e ∈ last, e.kind = .otherwise) : Layout .conditional (branches ++ last.toList)
  | valueAndBody {kind : Kind} {value body : Node} (hk : kind.takesValueAndBody) (hv : value.kind.isExpression)
      (hb : body.kind = .body) : Layout kind [value, body]
  | onlyBody {kind : Kind} {body : Node} (hk : kind.takesBody) (hb : body.kind = .body) : Layout kind [body]
  | protect {body last : Node} (hb : body.kind = .body) (hl : last.kind = .body) : Layout .protect [body, last]
  | forLoop {label : Option String} {vars : List Node} {iterable body : Node} (hne : vars ≠ [])
      (h : ∀ v ∈ vars, ∃ name, v.kind = .loopVariable name) (hi : iterable.kind.isExpression) (hb : body.kind = .body) :
      Layout (.forLoop label) (vars ++ [iterable, body])
  | attempt {binding : Option Node} {body : Node} {handlers : List Node}
      (h : ∀ v ∈ binding, ∃ name, v.kind = .attemptVariable name) (hb : body.kind = .body)
      (hh : ∀ m ∈ handlers, ∃ names, m.kind = .handler names) : Layout .attempt (binding.toList ++ body :: handlers)
  | assignment {kind : Kind} {target value : Node} (hk : kind.isSingleAssignment)
      (ht : ∃ name, target.kind = .identifier name) (hv : value.kind.isExpression) : Layout kind [target, value]
  | multipleAssignment {targets : List Node} {value : Node} (hne : targets ≠ [])
      (h : ∀ m ∈ targets, ∃ name, m.kind = .identifier name) (hv : value.kind.isExpression) :
      Layout .multipleAssignment (targets ++ [value])
  | binary {operator : BinaryOperator} {left right : Node} (hl : left.kind.isExpression) (hr : right.kind.isExpression) :
      Layout (.binary operator) [left, right]
  | unary {operator : UnaryOperator} {operand : Node} (ho : operand.kind.isExpression) : Layout (.unary operator) [operand]
  | applied {kind : Kind} {first : Node} {args : List Node} (hk : kind.takesArguments) (hf : first.kind.isExpression)
      (h : ∀ a ∈ args, a.kind.isExpression) : Layout kind (first :: args)

/-- What can stand in a node of a kind; loop variables stand in for loops and handlers in tries only. -/
inductive Stands : Kind → Kind → Prop
  | statement {kind k : Kind} (h : k.isStatement) : Stands kind k
  | part {kind k : Kind} (h : k.isPart) : Stands kind k
  | item {k : Kind} (h : k.isItem) : Stands .file k
  | loopVariable {label : Option String} {name : String} : Stands (.forLoop label) (.loopVariable name)
  | handler {names : List String} : Stands .attempt (.handler names)

namespace Layout

variable {kind : Kind} {children : List Node}

theorem items (h : Layout .file children) : ∀ n ∈ children, n.kind.isItem := by
  cases h with
  | file h => exact h
  | _ => contradiction

theorem statements (h : Layout .body children) : ∀ s ∈ children, s.kind.isStatement := by
  cases h with
  | body h => exact h
  | _ => contradiction

theorem parameters (h : Layout .parameterList children) : ∀ p ∈ children, ∃ name mode, p.kind = .parameter name mode := by
  cases h with
  | parameterList h => exact h
  | _ => contradiction

theorem declared {name : String} (h : Layout (.declared name) children) :
    children = [] ∨ ∃ value, children = [value] ∧ value.kind.isExpression := by
  cases h with
  | bare => exact .inl rfl
  | valued hv => exact .inr ⟨_, rfl, hv⟩
  | _ => contradiction

theorem of_separate {modifier : Modifier} (h : Layout (.declaration modifier false) children) :
    ∀ v ∈ children, ∃ name, v.kind = .declared name := by
  cases h with
  | separate _ h => exact h
  | _ => contradiction

section

variable (h : Layout kind children) {v : Node}
include h

theorem of_takesBody (hk : kind.takesBody) : ∃ body, children = [body] ∧ body.kind = .body := by
  cases h with
  | onlyBody _ hb => exact ⟨_, rfl, hb⟩
  | _ => first | cases hk | (cases kind <;> cases hk <;> contradiction)

theorem of_takesValueAndBody (hk : kind.takesValueAndBody) :
    ∃ value body, children = [value, body] ∧ value.kind.isExpression ∧ body.kind = .body := by
  cases h with
  | valueAndBody _ hv hb => exact ⟨_, _, rfl, hv, hb⟩
  | _ => first | cases hk | (cases kind <;> cases hk <;> contradiction)

theorem of_isDefinition (hk : kind.isDefinition) :
    ∃ list body, children = [list, body] ∧ list.kind = .parameterList ∧ body.kind = .body := by
  cases h with
  | definition _ hl hb => exact ⟨_, _, rfl, hl, hb⟩
  | _ => first | cases hk | (cases kind <;> cases hk <;> contradiction)

theorem eq_nil_of_isLeaf (hk : kind.isLeaf) : children = [] := by
  cases h with
  | leaf => rfl
  | _ => first | cases hk | (cases kind <;> cases hk <;> contradiction)

theorem of_isSingleAssignment (hk : kind.isSingleAssignment) : ∃ target value, children = [target, value] := by
  cases h with
  | assignment => exact ⟨_, _, rfl⟩
  | _ => first | cases hk | (cases kind <;> cases hk <;> contradiction)

theorem stands (hv : v ∈ children) : Stands kind v.kind := by
  have value (he : v.kind.isExpression) : v.kind.isStatement := Kind.isStatement_of_isExpression he
  have part {k kind : Kind} (hk : v.kind = k) (hp : k.isPart) : Stands kind v.kind := .part (hk ▸ hp)
  have two {a b : Node} (h : v ∈ [a, b]) : v = a ∨ v = b := by simpa using h
  cases h with
  | leaf | bare => cases hv
  | file h => exact .item (h v hv)
  | body h => exact .statement (h v hv)
  | values _ h => exact .statement (value (h v hv))
  | definition _ hl hb =>
    rcases two hv with rfl | rfl
    · exact part hl rfl
    · exact part hb rfl
  | protect hb hl => rcases two hv with rfl | rfl <;> exact part ‹_› rfl
  | onlyBody _ hb =>
    obtain rfl := List.mem_singleton.mp hv
    exact part hb rfl
  | parameterList h =>
    obtain ⟨_, _, hk⟩ := h v hv
    exact part hk rfl
  | separate _ h =>
    obtain ⟨_, hk⟩ := h v hv
    exact part hk rfl
  | shared _ h he =>
    rcases List.mem_append.mp hv with hv | hv
    · obtain ⟨⟨_, hk⟩, -⟩ := h v hv
      exact part hk rfl
    · obtain rfl := List.mem_singleton.mp hv
      exact .statement (value he)
  | valued he | unary he =>
    obtain rfl := List.mem_singleton.mp hv
    exact .statement (value he)
  | thrown ht h | applied _ ht h =>
    rcases List.mem_cons.mp hv with rfl | hv
    · exact .statement (value ht)
    · exact .statement (value (h v hv))
  | binary hl hr => rcases two hv with rfl | rfl <;> exact .statement (value ‹_›)
  | valueAndBody _ he hb =>
    rcases two hv with rfl | rfl
    · exact .statement (value he)
    · exact part hb rfl
  | conditional _ h hl =>
    rcases List.mem_append.mp hv with hv | hv
    · exact part (h v hv) rfl
    · exact part (hl v (Option.mem_toList.mp hv)) rfl
  | forLoop _ h hi hb =>
    rcases List.mem_append.mp hv with hv | hv
    · obtain ⟨_, hk⟩ := h v hv
      exact hk ▸ .loopVariable
    · rcases two hv with rfl | rfl
      · exact .statement (value hi)
      · exact part hb rfl
  | attempt h hb hh =>
    rcases List.mem_append.mp hv with hv | hv
    · obtain ⟨_, hk⟩ := h v (Option.mem_toList.mp hv)
      exact part hk rfl
    · rcases List.mem_cons.mp hv with rfl | hv
      · exact part hb rfl
      · obtain ⟨_, hk⟩ := hh v hv
        exact hk ▸ .handler
  | assignment _ ht he =>
    rcases two hv with rfl | rfl
    · obtain ⟨_, hk⟩ := ht
      exact .statement (hk ▸ rfl)
    · exact .statement (value he)
  | multipleAssignment _ h he =>
    rcases List.mem_append.mp hv with hv | hv
    · obtain ⟨_, hk⟩ := h v hv
      exact .statement (hk ▸ rfl)
    · obtain rfl := List.mem_singleton.mp hv
      exact .statement (value he)

theorem of_loopVariable {name : String} (hv : v ∈ children) (hk : v.kind = .loopVariable name) :
    ∃ label body, kind = .forLoop label ∧ children.getLast? = some body ∧ body.kind = .body := by
  have hs := h.stands hv
  rw [hk] at hs
  cases hs with
  | statement hs | part hs | item hs => cases hs
  | loopVariable =>
    cases h with
    | forLoop _ _ _ hb => exact ⟨_, _, rfl, by simp, hb⟩
    | _ => contradiction

theorem of_handler {m : Node} {names : List String} (hm : m ∈ children)
    (hk : m.kind = .handler names) :
    kind = .attempt ∧ ∃ front body handlers, children = front ++ body :: handlers ∧ (∀ v ∈ front, v.kind ≠ .body) ∧
      (∀ v ∈ front, ∀ names, v.kind ≠ .handler names) ∧ body.kind = .body ∧
      ∀ h ∈ handlers, ∃ names, h.kind = .handler names := by
  have hs := h.stands hm
  rw [hk] at hs
  cases hs with
  | statement hs | part hs | item hs => cases hs
  | handler =>
    cases h with
    | @attempt binding body handlers h hb hh =>
      have hbinding : ∀ v ∈ binding.toList, ∃ name, v.kind = .attemptVariable name := fun v hv => h v (by simpa using hv)
      refine ⟨rfl, binding.toList, body, handlers, rfl, fun v hv => ?_, fun v hv names => ?_, hb, hh⟩
      · obtain ⟨name, hv⟩ := hbinding v hv
        simp [hv]
      · obtain ⟨name, hv⟩ := hbinding v hv
        simp [hv]
    | _ => contradiction

/-- Methods and package lines stand in a file only. -/
theorem of_topLevel (hv : v ∈ children) (hk : (∃ header, v.kind = .method header) ∨ ∃ name, v.kind = .package name) :
    kind = .file := by
  have hs := h.stands hv
  rcases hk with ⟨header, hk⟩ | ⟨name, hk⟩ <;> rw [hk] at hs
  all_goals
    cases hs with
    | item => rfl
    | statement hs | part hs => cases hs

/-- No file stands in a node. -/
theorem ne_file (hv : v ∈ children) : v.kind ≠ .file := by
  intro hk
  have hs := h.stands hv
  rw [hk] at hs
  cases hs with
  | statement hs | part hs | item hs => cases hs

end

end Layout

/-- The node and all below it are laid out by the rules, and numbered from below. -/
inductive Formed : Node → Prop
  | node {number : Nat} {kind : Kind} {span : Span} {children : List Node} (layout : Layout kind children)
      (smaller : ∀ c ∈ children, c.number < number) (below : ∀ c ∈ children, Formed c) :
      Formed ⟨number, kind, span, children⟩

namespace Formed

variable {n c : Node}

theorem layout (h : n.Formed) : Layout n.kind n.children := by
  cases h with
  | node hl _ _ => exact hl

theorem smaller (h : n.Formed) (hc : c ∈ n.children) : c.number < n.number := by
  cases h with
  | node _ hs _ => exact hs c hc

theorem child (h : n.Formed) (hc : c ∈ n.children) : c.Formed := by
  cases h with
  | node _ _ hb => exact hb c hc

theorem le_number (h : n.Formed) {k : Nat} (hk : k ∈ n.numbers) : k ≤ n.number := by
  induction h with
  | node _ smaller _ ih =>
    rw [numbers_eq] at hk
    rcases List.mem_cons.mp hk with rfl | hk
    · exact Nat.le_refl _
    · obtain ⟨c, hc, hk⟩ := exists_of_mem_numbersAll hk
      exact Nat.le_trans (ih c hc hk) (Nat.le_of_lt (smaller c hc))

end Formed

/-! ## Trees made between two moments -/

/-- Formed trees with numbers that were given between two moments, each once. -/
def Built (low high : Nat) (ns : List Node) : Prop := Fresh low high ns ∧ ∀ n ∈ ns, n.Formed

namespace Built

variable {low middle high : Nat} {a b ns : List Node}

theorem nil (low high : Nat) : Built low high [] := ⟨.nil low high, by simp⟩

theorem append (ha : Built low middle a) (hb : Built middle high b) (hl : low ≤ middle) (hh : middle ≤ high) :
    Built low high (a ++ b) := by
  refine ⟨ha.1.append hb.1 hl hh, fun n hn => ?_⟩
  rcases List.mem_append.mp hn with hn | hn
  · exact ha.2 n hn
  · exact hb.2 n hn

/-- A node takes the next number over children that fit it. -/
theorem node {kind : Kind} (h : Built low high ns) (hl : low ≤ high) (layout : Layout kind ns) (span : Span) :
    Built low (high + 1) [⟨high, kind, span, ns⟩] := by
  refine ⟨h.1.node hl kind span, ?_⟩
  intro n hn
  obtain rfl := List.mem_singleton.mp hn
  refine .node layout (fun c hc => ?_) h.2
  exact (h.1.2 c.number (numbers_subset hc _ c.number_mem_numbers)).2

end Built

end Magik.Node
