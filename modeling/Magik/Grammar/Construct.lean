/-
  Magik.Grammar.Construct — conditionals, loops, blocks and procedures, given how to read
  expressions.
-/

import Magik.Grammar.Statement

namespace Magik.Grammar.Parse

def procedure (expr : ReadsExpression) (isIterator : Bool) : Parse Node := do
  let start := (← advance).span
  let name ← optionalLabel
  token .leftParen .procedureParen
  let ps ← parameters .rightParen
  let list ← parameterList ps
  let lines ← doc
  let content ← body expr
  closing .kwEndProc .endOfProcedure
  nodeFrom (.procedure name isIterator lines) start [list, content]

/-- A condition and its body, and the branches that follow it. -/
def branches (expr : ReadsExpression) (start : Span) : Parse (List Node) :=
  loop (fun (bs, opening) => do
    let condition ← expr .lowest
    keyword .kwThen .thenKeyword
    let content ← body expr
    let b ← nodeFrom .branch opening [condition, content]
    let bs := bs ++ [b]
    if ← isKeyword .kwElif then
      return .again (bs, (← advance).span)
    else
      return .done bs) (([] : List Node), start)

/-- The branch for when all conditions are false, if there is one. -/
def otherwise (expr : ReadsExpression) : Parse (List Node) := do
  if ← isKeyword .kwElse then
    let opening := (← advance).span
    let content ← body expr
    return [← nodeFrom .otherwise opening [content]]
  else
    return []

def conditional (expr : ReadsExpression) : Parse Node := do
  let start := (← advance).span
  let bs ← branches expr start
  let last ← otherwise expr
  closing .kwEndIf .endOfConditional
  nodeFrom .conditional start (bs ++ last)

def forLoop (expr : ReadsExpression) : Parse Node := do
  let start := (← advance).span
  let vars ← loop (fun vars => do
    let t ← identifier .loopVariable
    let v ← node (.loopVariable t.lexeme) t.span []
    let vars := vars ++ [v]
    if (← kind) = .comma then
      skip 1
      return .again vars
    else
      return .done vars) []
  keyword .kwOver .overKeyword
  let iterable ← expr .lowest
  keyword .kwLoop .loopAfterIterator
  let label ← optionalLabel
  let content ← body expr
  closing .kwEndLoop .endOfLoop
  nodeFrom (.forLoop label) start (vars ++ [iterable, content])

def whileLoop (expr : ReadsExpression) : Parse Node := do
  let start := (← advance).span
  let condition ← expr .lowest
  keyword .kwLoop .loopAfterCondition
  let label ← optionalLabel
  let content ← body expr
  closing .kwEndLoop .endOfLoop
  nodeFrom (.whileLoop label) start [condition, content]

def plainLoop (expr : ReadsExpression) : Parse Node := do
  let start := (← advance).span
  let label ← optionalLabel
  let content ← body expr
  closing .kwEndLoop .endOfLoop
  nodeFrom (.plainLoop label) start [content]

def block (expr : ReadsExpression) : Parse Node := do
  let start := (← advance).span
  let _ ← optionalLabel
  let content ← body expr
  closing .kwEndBlock .endOfBlock
  nodeFrom .block start [content]

def protect (expr : ReadsExpression) : Parse Node := do
  let start := (← advance).span
  let content ← body expr
  closing .kwProtection .protection
  let last ← body expr
  closing .kwEndProtect .endOfProtect
  nodeFrom .protect start [content, last]

/-- The variable of a try, if it names one. -/
def attemptVariable : Parse (List Node) := do
  if ← isKeyword .kwWith then
    skip 1
    let t ← identifier .attemptVariable
    return [← node (.attemptVariable t.lexeme) t.span []]
  else
    return []

/-- The names of the conditions a handler is for. -/
def handledConditions : List Word → List String
  | [] => []
  | name :: rest =>
    if name.token.kind = .identifier then
      match rest with
      | [] => [name.token.lexeme]
      | separator :: more =>
        if separator.token.kind = .comma then name.token.lexeme :: handledConditions more else [name.token.lexeme]
    else []

/-- How many tokens the conditions of a handler take, commas included. -/
def handledLength : List Word → Nat
  | [] => 0
  | name :: rest =>
    if name.token.kind = .identifier then
      match rest with
      | [] => 1
      | separator :: more => if separator.token.kind = .comma then 2 + handledLength more else 1
    else 0

def handlers (expr : ReadsExpression) : Parse (List Node) :=
  loop (fun hs => do
    if ← isKeyword .kwWhen then
      let start := (← advance).span
      let rest ← remaining
      skip (handledLength rest)
      let content ← body expr
      let h ← nodeFrom (.handler (handledConditions rest)) start [content]
      return .again (hs ++ [h])
    else
      return .done hs) []

def attemptConstruct (expr : ReadsExpression) : Parse Node := do
  let start := (← advance).span
  let binding ← attemptVariable
  let content ← body expr
  let hs ← handlers expr
  closing .kwEndTry .endOfAttempt
  nodeFrom .attempt start (binding ++ [content] ++ hs)

/-- `_lock` and `_catch`: an expression and a body. -/
def guarded (expr : ReadsExpression) (kind : Node.Kind) (word : Keyword) (wanted : Wanted) : Parse Node := do
  let start := (← advance).span
  let guard ← expr .lowest
  let content ← body expr
  closing word wanted
  nodeFrom kind start [guard, content]

end Magik.Grammar.Parse
