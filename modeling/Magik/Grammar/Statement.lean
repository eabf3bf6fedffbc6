/-
  Magik.Grammar.Statement — lists, statements and bodies, given how to read expressions.
-/

import Magik.Grammar.Operation
import Magik.Grammar.Recovery

namespace Magik.Grammar.Parse

/-- How to read an expression that holds together more than a precedence. -/
abbrev ReadsExpression := Precedence → Parse Node

/-! ## Lists -/

/-- Comma-separated expressions. -/
def expressions (expr : ReadsExpression) : Parse (List Node) :=
  loop (fun values => do
    let value ← expr .lowest
    let values := values ++ [value]
    if (← kind) = .comma then
      skip 1
      return .again values
    else
      return .done values) []

/-- Comma-separated expressions up to and including the closing bracket. -/
def arguments (expr : ReadsExpression) (close : Token.Kind) : Parse (List Node) := do
  if (← kind) = close then
    skip 1
    return []
  else
    loop (fun values => do
      skipIf fun k => k = .keyword .kwScatter
      let value ← expr .lowest
      let values := values ++ [value]
      let t ← current
      if t.kind = .comma then
        skip 1
        return .again values
      else if t.kind = close then
        skip 1
        return .done values
      else
        failWith (.separator .arguments t.kind) t.span) []

/-- A parameter name. -/
def parameter (mode : ParameterMode) : Parse Node := do
  let t ← identifier .parameterName
  node (.parameter t.lexeme mode) t.span []

/-- The mode that a keyword in front of a parameter sets. -/
def parameterMode? : Token.Kind → Option ParameterMode
  | .keyword .kwOptional => some .optional
  | .keyword .kwGather => some .gather
  | _ => none

/-- Parameters up to and including the closing bracket. `_optional` and `_gather` hold
    for all that follow. -/
def parameters (close : Token.Kind) : Parse (List Node) := do
  if (← kind) = close then
    skip 1
    return []
  else
    loop (fun (ps, mode) => do
      let mode := (parameterMode? (← kind)).getD mode
      skipIf fun k => (parameterMode? k).isSome
      let p ← parameter mode
      let ps := ps ++ [p]
      let t ← current
      if t.kind = .comma then
        skip 1
        return .again (ps, mode)
      else if t.kind = close then
        skip 1
        return .done ps
      else
        failWith (.separator .parameters t.kind) t.span) (([] : List Node), ParameterMode.required)

/-- The node for parameters that were just read. -/
def parameterList (ps : List Node) : Parse Node := do
  node .parameterList ((← previousSpan).around (ps.map Node.span)) ps

/-! ## Statements -/

/-- Whether a token can begin the value of a `_return` or `>>`. -/
def startsValue : Token.Kind → Bool
  | .endOfFile | .semicolon | .dollar | .rightParen | .rightBrace | .rightBracket | .comma => false
  | .keyword .kwThen | .keyword .kwReturn | .keyword .kwLocal | .keyword .kwConstant | .keyword .kwGlobal
  | .keyword .kwDynamic | .keyword .kwImport | .keyword .kwRecursive | .keyword .kwLeave | .keyword .kwContinue => false
  | k => !closesConstruct k

/-- Values that begin on the same line, if there are any. -/
def valuesHere (expr : ReadsExpression) : Parse (List Node) := do
  if (← onSameLine) && startsValue (← kind) then expressions expr
  else return []

/-- `_return` and `>>`, with their values. -/
def valueStatement (expr : ReadsExpression) (kind : Node.Kind) : Parse Node := do
  let start := (← advance).span
  let values ← valuesHere expr
  nodeFrom kind start values

/-- Values after `_with`, if there are any. -/
def optionalWith (expr : ReadsExpression) : Parse (List Node) := do
  if ← isKeyword .kwWith then
    skip 1
    expressions expr
  else
    return []

/-- `_leave` and `_continue`. -/
def jump (expr : ReadsExpression) (kind : Option String → Node.Kind) : Parse Node := do
  let start := (← advance).span
  let label ← optionalLabel
  let values ← optionalWith expr
  nodeFrom (kind label) start values

def loopBodyStatement (expr : ReadsExpression) : Parse Node := do
  let start := (← advance).span
  token .leftParen .loopBodyParen
  let values ← arguments expr .rightParen
  nodeFrom .loopBody start values

def throwStatement (expr : ReadsExpression) : Parse Node := do
  let start := (← advance).span
  let tag ← expr .lowest
  let values ← optionalWith expr
  nodeFrom .thrown start (tag :: values)

/-- Names in parentheses that share one value. -/
def sharedDeclaration (expr : ReadsExpression) (modifier : Modifier) (start : Span) : Parse Node := do
  skip 1
  let vars ← loop (fun vars => do
    let t ← identifier (.variableName modifier)
    let v ← node (.declared t.lexeme) t.span []
    let vars := vars ++ [v]
    let next ← current
    if next.kind = .comma then
      skip 1
      return .again vars
    else if next.kind = .rightParen then
      skip 1
      return .done vars
    else
      failWith (.expected .variableSeparator) next.span) []
  token .chevron .variableChevron
  let value ← expr .lowest
  nodeFrom (.declaration modifier true) start (vars ++ [value])

/-- A name with its initial value, if it has one. -/
def declaredVariable (expr : ReadsExpression) (modifier : Modifier) : Parse Node := do
  let t ← identifier (.variableName modifier)
  if (← kind) = .chevron then
    skip 1
    let value ← expr .lowest
    node (.declared t.lexeme) (t.span.union value.span) [value]
  else
    node (.declared t.lexeme) t.span []

def declaration (expr : ReadsExpression) (modifier : Modifier) : Parse Node := do
  let start := (← advance).span
  if (← kind) = .leftParen then sharedDeclaration expr modifier start
  else
    let vars ← loop (fun vars => do
      let v ← declaredVariable expr modifier
      let vars := vars ++ [v]
      if (← kind) = .comma then
        skip 1
        return .again vars
      else
        return .done vars) []
    nodeFrom (.declaration modifier false) start vars

/-- Whether names, a closing parenthesis and a chevron follow. -/
def targetsFollow : List Word → Bool
  | name :: separator :: rest =>
    if name.token.kind = .identifier then
      if separator.token.kind = .comma then targetsFollow rest
      else separator.token.kind = .rightParen && rest.head?.any fun w => w.token.kind = .chevron
    else false
  | _ => false

/-- An assignment to several names in parentheses; `targetsFollow` holds. -/
def multipleAssignment (expr : ReadsExpression) : Parse Node := do
  let start := (← advance).span
  let targets ← loop (fun targets => do
    let t ← advance
    let target ← node (.identifier t.lexeme) t.span []
    let targets := targets ++ [target]
    if (← kind) = .comma then
      skip 1
      return .again targets
    else
      return .done targets) []
  skip 2
  let value ← expr .lowest
  nodeFrom .multipleAssignment start (targets ++ [value])

def statement (expr : ReadsExpression) : Parse Node := do
  match ← kind with
  | .keyword .kwLocal => declaration expr .localVariable
  | .keyword .kwConstant => declaration expr .constant
  | .keyword .kwGlobal => declaration expr .global
  | .keyword .kwDynamic => declaration expr .dynamic
  | .keyword .kwImport => declaration expr .imported
  | .keyword .kwRecursive => declaration expr .recursive
  | .keyword .kwReturn => valueStatement expr .returned
  | .emit => valueStatement expr .emitted
  | .keyword .kwLeave => jump expr .leave
  | .keyword .kwContinue => jump expr .continued
  | .keyword .kwLoopBody => loopBodyStatement expr
  | .keyword .kwThrow => throwStatement expr
  | .leftParen => do
    if targetsFollow (← upcoming).tail then multipleAssignment expr else expr .lowest
  | _ => expr .lowest

/-! ## Bodies -/

/-- From the first statement to the last; a body without statements is the place of the
    token it stopped at. -/
def bodySpan (here : Token) (statements : List Node) : Span :=
  match statements.head?, statements.getLast? with
  | some first, some last => first.span.union last.span
  | _, _ => .point here.line here.column

/-- Passes a semicolon or a statement, unless the body ends there. A malformed statement
    is kept as an error node. -/
def bodyRound (expr : ReadsExpression) (statements : List Node) : Parse (Round (List Node) (List Node)) := do
  let k ← kind
  if k = .semicolon then
    skip 1
    return .again statements
  else if k = .endOfFile ∨ k = .dollar ∨ closesConstruct k then
    return .done statements
  else
    let start ← upcoming
    match ← attempt (statement expr) with
    | some s => return .again (statements ++ [s])
    | none => return .again (statements ++ [← skipStatement start])

/-- Statements up to the next keyword that closes a construct. -/
def body (expr : ReadsExpression) : Parse Node := do
  let here ← current
  let statements ← loop (bodyRound expr) []
  node .body (bodySpan here statements) statements

end Magik.Grammar.Parse
