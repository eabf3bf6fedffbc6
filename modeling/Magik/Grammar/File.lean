/-
  Magik.Grammar.File — the items of a file: packages, pragmas, methods and statements.

  Every list of tokens has a tree. A malformed item becomes an error node and reading
  goes on after it.
-/

import Magik.Grammar.Expression

namespace Magik.Grammar

namespace Parse

def packageItem : Parse Node := do
  let start := (← advance).span
  let t ← identifier .packageName
  node (.package t.lexeme) (start.union t.span) []

/-- How many tokens a pragma takes after its opening parenthesis; none if the file ends
    inside it. -/
def pragmaRest (depth : Nat) : List Word → Option Nat
  | [] => none
  | w :: ws =>
    match w.token.kind with
    | .endOfFile => none
    | .leftParen => (pragmaRest (depth + 1) ws).map (· + 1)
    | .rightParen => if depth ≤ 1 then some 1 else (pragmaRest (depth - 1) ws).map (· + 1)
    | _ => (pragmaRest depth ws).map (· + 1)

/-- How many tokens come before the end of the file. -/
def toEnd (words : List Word) : Nat := (words.takeWhile fun w => w.token.kind ≠ .endOfFile).length

def pragma : Parse Unit := do
  skip 1
  token .leftParen .pragmaParen
  let rest ← remaining
  match pragmaRest 1 rest with
  | some n => skip n
  | none =>
    skip (toEnd rest)
    fail

def isMethodModifier : Token.Kind → Bool
  | .keyword .kwPrivate | .keyword .kwIter | .keyword .kwAbstract => true
  | _ => false

/-- What after `_iter` says that it is the modifier of a method. -/
def continuesMethod : Token.Kind → Bool
  | .keyword .kwMethod | .keyword .kwPrivate => true
  | _ => false

/-- Parameters in parentheses that open on the same line, if there are any. -/
def parametersHere : Parse (List Node) := do
  if (← onSameLine) && (← kind) = .leftParen then
    skip 1
    parameters .rightParen
  else
    return []

/-- The name and parameters after an exemplar's name. -/
def methodSignature : Parse (String × List Node) := do
  let t ← current
  if t.kind = .dot then
    skip 1
    let name ← identifier .methodName
    return (name.lexeme, ← parametersHere)
  else if t.kind = .leftBracket then
    skip 1
    return ("[]", ← parameters .rightBracket)
  else
    failWith (.expected .methodSeparator) t.span

/-- The chevron and value parameter of an assignment method, if it is one. -/
def assignedParameter : Parse (String × List Node) := do
  let t ← current
  if t.kind = .chevron ∨ t.kind = .bootChevron then
    skip 1
    return (t.lexeme, [← parameter .assigned])
  else
    return ("", [])

/-- A method, from the start of its first modifier. -/
def methodItem (start : Span) : Parse Node := do
  let linesBefore ← doc
  let modifiers := ((← remaining).takeWhile fun w => isMethodModifier w.token.kind).map fun w => w.token.kind
  skip modifiers.length
  keyword .kwMethod .methodKeyword
  let exemplar ← identifier .exemplarName
  let (name, ps) ← methodSignature
  let (chevron, value) ← assignedParameter
  let list ← parameterList (ps ++ value)
  let linesInside ← doc
  let content ← body expression
  closing .kwEndMethod .endOfMethod
  let header : MethodHeader :=
    { exemplar := exemplar.lexeme
      name := name ++ chevron
      isPrivate := modifiers.contains (.keyword .kwPrivate)
      isIterator := modifiers.contains (.keyword .kwIter)
      isAbstract := modifiers.contains (.keyword .kwAbstract)
      doc := linesBefore ++ linesInside }
  nodeFrom (.method header) start [list, content]

/-- An item of the file; a pragma leaves no node. -/
def item : Parse (Option Node) := do
  let t ← current
  match t.kind with
  | .keyword .kwPackage => return some (← packageItem)
  | .keyword .kwPragma =>
    pragma
    return none
  | .keyword .kwMethod | .keyword .kwPrivate | .keyword .kwAbstract => return some (← methodItem t.span)
  | .keyword .kwIter =>
    if (← upcoming).tail.head?.any fun w => continuesMethod w.token.kind then return some (← methodItem t.span)
    else return some (← statement expression)
  | _ => return some (← statement expression)

/-- Adds an item to those before it. A malformed item is kept as an error node. -/
def addItem (items : List Node) : Parse (List Node) := do
  let start ← upcoming
  match ← attempt item with
  | some (some n) => return items ++ [n]
  | some none => return items
  | none => return items ++ [← skipItem start]

/-- Passes a separator or an item, unless the file ends there. -/
def fileRound (items : List Node) : Parse (Round (List Node) (List Node)) := do
  let k ← kind
  if k = .endOfFile then return .done items
  else if k = .dollar ∨ k = .semicolon then
    skip 1
    return .again items
  else
    return .again (← addItem items)

def fileItems : Parse (List Node) := loop fileRound []

def file : Parse Node := do
  let items ← fileItems
  node .file (Span.nowhere.around (items.map Node.span)) items

end Parse

/-- The tree of a list of tokens, and what is wrong with it. -/
def parse (tokens : List Token) : SyntaxTree × List Diagnostic :=
  match Parse.file (.start tokens) with
  | .found root s => (⟨root, s.arena⟩, s.diagnostics)
  | _ => (⟨⟨0, .file, .nowhere, []⟩, Arena.add #[] ⟨0, .file, .nowhere, []⟩⟩, [])

end Magik.Grammar
