/-
  Magik.Grammar.Expression — expressions.

  An expression is an operand followed by invocations, calls, index brackets and
  operators, as long as they bind more tightly than what stands to the left. The rules
  read the expressions inside through `expr`; `expression` ties that knot: inner
  expressions are read only further on in the source.
-/

import Magik.Grammar.Construct

namespace Magik.Grammar.Parse

def literal? : Token.Kind → Option Literal
  | .integer value => some (.integer value)
  | .float value => some (.float value)
  | .string value => some (.string value)
  | .symbol name => some (.symbol name)
  | .character value => some (.character value)
  | .keyword .kwUnset => some .unset
  | .keyword .kwMaybe => some .maybe
  | .keyword .kwTrue => some .true
  | .keyword .kwFalse => some .false
  | .keyword .kwSelfRef => some .self
  | .keyword .kwClone => some .clone
  | .keyword .kwSuper => some .super
  | .keyword .kwThisThread => some .thisThread
  | _ => none

/-! ## Operands -/

/-- An operator in front of its operand. -/
def unaryOperation (expr : ReadsExpression) (operator : UnaryOperator) (precedence : Precedence) : Parse Node := do
  let start := (← advance).span
  let operand ← expr precedence
  node (.unary operator) (start.union operand.span) [operand]

def globalReference : Parse Node := do
  let start := (← advance).span
  let t ← identifier .globalName
  node (.literal (.globalReference t.lexeme)) (start.union t.span) []

def parenthesised (expr : ReadsExpression) : Parse Node := do
  skip 1
  let inner ← expr .lowest
  token .rightParen .closingParen
  return inner

def vector (expr : ReadsExpression) : Parse Node := do
  let start := (← advance).span
  let elements ← arguments expr .rightBrace
  nodeFrom .vector start elements

def unexpected : Parse Node := do
  let t ← current
  failWith (.unexpected t) t.span

def operand (expr : ReadsExpression) : Parse Node := do
  let t ← current
  match literal? t.kind with
  | some value =>
    skip 1
    node (.literal value) t.span []
  | none =>
    match t.kind with
    | .identifier => do
      skip 1
      node (.identifier t.lexeme) t.span []
    | .atSign => globalReference
    | .leftParen => parenthesised expr
    | .leftBrace => vector expr
    | .keyword .kwNot => unaryOperation expr .not .not
    | .tilde => unaryOperation expr .tilde .unary
    | .minus => unaryOperation expr .negate .unary
    | .plus => unaryOperation expr .plus .unary
    | .keyword .kwProc => procedure expr false
    | .keyword .kwIter => do
      if (← upcoming).tail.head?.any fun w => w.token.kind = .keyword .kwProc then
        skip 1
        procedure expr true
      else unexpected
    | .keyword .kwIf => conditional expr
    | .keyword .kwFor => forLoop expr
    | .keyword .kwWhile => whileLoop expr
    | .keyword .kwLoop => plainLoop expr
    | .keyword .kwBlock => block expr
    | .keyword .kwProtect => protect expr
    | .keyword .kwTry => attemptConstruct expr
    | .keyword .kwLock => guarded expr .lock .kwEndLock .endOfLock
    | .keyword .kwCatch => guarded expr .catching .kwEndCatch .endOfCatch
    | _ => unexpected

/-! ## What follows an operand -/

/-- The chevron of an assignment method and the value after it, if there is one. -/
def assignedValue (expr : ReadsExpression) : Parse (String × List Node) := do
  let t ← current
  if t.kind = .chevron ∨ t.kind = .bootChevron then
    skip 1
    return (t.lexeme, [← expr .lowest])
  else
    return ("", [])

/-- Arguments in parentheses that open on the same line, if there are any. -/
def argumentsHere (expr : ReadsExpression) : Parse (List Node) := do
  if (← onSameLine) && (← kind) = .leftParen then
    skip 1
    arguments expr .rightParen
  else
    return []

def invocation (expr : ReadsExpression) (receiver : Node) : Parse Node := do
  skip 1
  let name ← identifier .methodName
  let args ← argumentsHere expr
  let (chevron, value) ← assignedValue expr
  nodeFrom (.invocation (name.lexeme ++ chevron)) receiver.span (receiver :: args ++ value)

def indexing (expr : ReadsExpression) (receiver : Node) : Parse Node := do
  skip 1
  let args ← arguments expr .rightBracket
  let (chevron, value) ← assignedValue expr
  nodeFrom (.invocation ("[]" ++ chevron)) receiver.span (receiver :: args ++ value)

def call (expr : ReadsExpression) (callee : Node) : Parse Node := do
  skip 1
  let args ← arguments expr .rightParen
  nodeFrom .call callee.span (callee :: args)

/-- The node of an operation whose operator has been passed. -/
def operationNode (left right : Node) (kind : Node.Kind) : Parse Node :=
  node kind (left.span.union right.span) [left, right]

/-- An assignment; only an identifier may be its target. -/
def assignmentTo (expr : ReadsExpression) (left : Node) (kind : Node.Kind) : Parse Node := do
  let right ← expr .lowest
  if left.identifierName?.isSome then operationNode left right kind
  else failWith .invalidTarget left.span

def operation (expr : ReadsExpression) (left : Node) (op : Operation) : Parse Node := do
  skip 1
  match op with
  | .assign => assignmentTo expr left .assignment
  | .augment operator => assignmentTo expr left (.augmentedAssignment operator)
  | .combine operator => operationNode left (← expr (rightPrecedence operator)) (.binary operator)

/-- One more part of an expression, or its end. -/
def extend (expr : ReadsExpression) (precedence : Precedence) (left : Node) : Parse (Round Node Node) := do
  let k ← kind
  let here ← onSameLine
  if k = .dot then return .again (← invocation expr left)
  else if k = .leftParen ∧ here then return .again (← call expr left)
  else if k = .leftBracket ∧ here then return .again (← indexing expr left)
  else
    match operation? k with
    | none => return .done left
    | some op =>
      if op.precedence.level ≤ precedence.level then return .done left
      else return .again (← operation expr left op)

def expressionWith (expr : ReadsExpression) (precedence : Precedence) : Parse Node := do
  let first ← operand expr
  loop (extend expr precedence) first

/-- An expression that holds together more than a precedence. -/
def expression (precedence : Precedence) (s : State) : Reply Node :=
  expressionWith (fun p t => if t.rest.length < s.rest.length then expression p t else .fault .noProgress) precedence s
termination_by s.rest.length

end Magik.Grammar.Parse
