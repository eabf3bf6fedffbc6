/-
  Magik.Syntax.Node — syntax trees.

  Every node carries the number it was given when it was made, its place in the arena:
  children are made before their parents, and a number is never given twice. When a node is
  made its children are told that it is their parent. Nodes that did not make it into the
  tree stay in the arena, so `SyntaxTree.size` may be larger than the number of nodes.

  How the children of a node are laid out depends on its kind:
  definitions have a parameter list and a body; a declaration its variables, and the
  value after them when several names share it; a variable its initial value, if any;
  a conditional its branches (condition and body) and at most one `otherwise`; a for
  loop its variables, what it runs over, and its body; a while loop its condition and
  body; a try its variable, if any, its body and its handlers; lock and catch an
  expression and a body; an assignment its target and value, one to several names its
  targets and the value; an invocation its receiver and a call its callee, then the
  arguments.
-/

import Magik.Span
import Magik.Syntax.Operator

namespace Magik

structure MethodHeader where
  exemplar : String
  name : String
  isPrivate : Bool
  isIterator : Bool
  isAbstract : Bool
  doc : List String
  deriving DecidableEq, Repr

namespace Node

inductive Kind where
  | file
  | package (name : String)
  | method (header : MethodHeader)
  | procedure (name : Option String) (isIterator : Bool) (doc : List String)
  | parameterList
  | parameter (name : String) (mode : ParameterMode)
  | body
  | declaration (modifier : Modifier) (multiple : Bool)
  | declared (name : String)
  | returned
  | emitted
  | leave (label : Option String)
  | continued (label : Option String)
  | loopBody
  | thrown
  | conditional
  | branch
  | otherwise
  | forLoop (label : Option String)
  | loopVariable (name : String)
  | whileLoop (label : Option String)
  | plainLoop (label : Option String)
  | block
  | protect
  | attempt
  | attemptVariable (name : String)
  | handler (conditions : List String)
  | lock
  | catching
  | assignment
  | augmentedAssignment (operator : BinaryOperator)
  | multipleAssignment
  | binary (operator : BinaryOperator)
  | unary (operator : UnaryOperator)
  | invocation (name : String)
  | call
  | identifier (name : String)
  | literal (value : Literal)
  | vector
  | syntaxError
  deriving DecidableEq, Repr

namespace Kind

def describe : Kind → String
  | .file => "module"
  | .package _ => "package"
  | .method _ => "method definition"
  | .procedure .. => "procedure definition"
  | .parameterList => "parameter list"
  | .parameter .. => "parameter"
  | .body => "body"
  | .declaration .. => "variable declaration"
  | .declared _ => "variable"
  | .returned => "return"
  | .emitted => "emit"
  | .leave _ => "leave"
  | .continued _ => "continue"
  | .loopBody => "loopbody"
  | .thrown => "throw"
  | .conditional => "if"
  | .branch => "branch"
  | .otherwise => "else"
  | .forLoop _ => "for loop"
  | .loopVariable _ => "loop variable"
  | .whileLoop _ => "while loop"
  | .plainLoop _ => "loop"
  | .block => "block"
  | .protect => "protect"
  | .attempt => "try"
  | .attemptVariable _ => "try variable"
  | .handler _ => "when"
  | .lock => "lock"
  | .catching => "catch"
  | .assignment => "assignment"
  | .augmentedAssignment _ => "augmented assignment"
  | .multipleAssignment => "multiple assignment"
  | .binary _ => "binary operation"
  | .unary _ => "unary operation"
  | .invocation _ => "method invocation"
  | .call => "procedure invocation"
  | .identifier _ => "identifier"
  | .literal _ => "literal"
  | .vector => "simple vector"
  | .syntaxError => "syntax error"

/-- Methods and procedures: what a `_return` leaves and a name cannot look out of. -/
def isDefinition : Kind → Bool
  | .method _ | .procedure .. => true
  | _ => false

end Kind

end Node

structure Node where
  number : Nat
  kind : Node.Kind
  span : Span
  children : List Node
  deriving Repr

namespace Node

def identifierName? (n : Node) : Option String :=
  match n.kind with
  | .identifier name => some name
  | _ => none

def child? (n : Node) (i : Nat) : Option Node := n.children[i]?

/-! ## Measures -/

mutual

/-- How many nodes there are from a node down. -/
def weight : Node → Nat
  | ⟨_, _, _, children⟩ => 1 + weightAll children

def weightAll : List Node → Nat
  | [] => 0
  | n :: ns => n.weight + weightAll ns

end

theorem weightAll_append (a b : List Node) : weightAll (a ++ b) = weightAll a + weightAll b := by
  induction a with
  | nil => simp [weightAll]
  | cons n ns ih => simp [weightAll, ih]; omega

theorem weight_eq (n : Node) : n.weight = 1 + weightAll n.children := by
  cases n
  simp [weight]

/-! ## Traversal -/

/-- The nodes of a stack of subtrees, each before its own descendants. -/
def drain : List Node → List Node
  | [] => []
  | n :: stack => n :: drain (n.children ++ stack)
termination_by stack => weightAll stack
decreasing_by simp [weightAll, weightAll_append, weight_eq]

/-- All nodes below a node, in the order of the source. -/
def descendants (n : Node) : List Node := drain n.children

/-- A node and all below it. -/
def withDescendants (n : Node) : List Node := n :: n.descendants

mutual

/-- The innermost node at a position inside a node, the first child that covers it
    leading the way. -/
def innermost (line column : Nat) : Node → Node
  | ⟨number, kind, span, children⟩ => (innermostIn line column children).getD ⟨number, kind, span, children⟩

def innermostIn (line column : Nat) : List Node → Option Node
  | [] => none
  | n :: ns => if n.span.contains line column then some (innermost line column n) else innermostIn line column ns

end

end Node

/-- A node that was made, and the number of the node that it has become a child of. -/
structure Slot where
  node : Node
  parent : Option Nat

/-- All nodes that were made, each at its number. -/
abbrev Arena := Array Slot

namespace Arena

/-- Tells nodes that another is their parent. -/
def adopt (a : Arena) (parent : Nat) (children : List Node) : Arena :=
  children.foldl (fun a c => a.modify c.number fun slot => { slot with parent := some parent }) a

/-- Adds a node, which becomes the parent of its children. -/
def add (a : Arena) (n : Node) : Arena := (a.adopt n.number n.children).push ⟨n, none⟩

end Arena

structure SyntaxTree where
  root : Node
  arena : Arena

namespace SyntaxTree

/-- How many nodes were made. -/
def size (t : SyntaxTree) : Nat := t.arena.size

/-- All nodes, each before its descendants. -/
def nodes (t : SyntaxTree) : List Node := t.root.withDescendants

def find? (t : SyntaxTree) (number : Nat) : Option Node := t.arena[number]?.map Slot.node

def parent? (t : SyntaxTree) (number : Nat) : Option Nat := t.arena[number]?.bind Slot.parent

/-- The nodes around the one with a number, innermost first. A parent has a larger number than
    its children. -/
def ancestors (t : SyntaxTree) (number : Nat) : List Node :=
  match t.parent? number with
  | none => []
  | some p => if h : number < p ∧ p < t.arena.size then t.arena[p].node :: t.ancestors p else []
termination_by t.size - number
decreasing_by
  unfold size
  omega

/-- The nearest method or procedure around a node. -/
def enclosingDefinition? (t : SyntaxTree) (number : Nat) : Option Node :=
  (t.ancestors number).find? fun n => n.kind.isDefinition

/-- The innermost node below the root whose span covers a position. -/
def nodeAt? (t : SyntaxTree) (line column : Nat) : Option Node := Node.innermostIn line column t.root.children

end SyntaxTree

end Magik
