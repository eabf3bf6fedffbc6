/-
  Magik.Grammar.Recovery — where parsing goes on after a malformed part.

  A malformed statement is passed over, the constructs opened in it up to their closing
  keywords, until a semicolon, a keyword that closes something around it, or the next
  line. A malformed item of the file is passed over until the next `$` or the start of
  a method, package or pragma. `$` ends both, and `_endmethod` always ends a statement.
-/

import Magik.Grammar.Parse

namespace Magik.Grammar

/-- Keywords that end a body: those that close a construct and those that divide one. -/
def closesConstruct : Token.Kind → Bool
  | .keyword .kwEndMethod | .keyword .kwEndProc | .keyword .kwElif | .keyword .kwElse | .keyword .kwEndIf
  | .keyword .kwEndLoop | .keyword .kwEndBlock | .keyword .kwWhen | .keyword .kwEndTry | .keyword .kwProtection
  | .keyword .kwEndProtect | .keyword .kwEndLock | .keyword .kwEndCatch => true
  | _ => false

def opensNesting : Token.Kind → Bool
  | .keyword .kwIf | .keyword .kwLoop | .keyword .kwProc | .keyword .kwBlock | .keyword .kwTry | .keyword .kwProtect
  | .keyword .kwLock | .keyword .kwCatch => true
  | _ => false

def closesNesting : Token.Kind → Bool
  | .keyword .kwEndIf | .keyword .kwEndLoop | .keyword .kwEndProc | .keyword .kwEndBlock | .keyword .kwEndTry
  | .keyword .kwEndProtect | .keyword .kwEndLock | .keyword .kwEndCatch => true
  | _ => false

/-- One more for a keyword that opens a construct, one less for its end. -/
def nesting (k : Token.Kind) : Int :=
  if opensNesting k then 1 else if closesNesting k then -1 else 0

/-- How deep the cursor is after tokens of a statement. -/
def depthAfter (words : List Word) : Nat := (words.foldl (fun d w => d + nesting w.token.kind) 0).toNat

/-- Whether a token ends a malformed statement: inside so many constructs, after a token
    on the given line. -/
def endsStatement (depth line : Nat) (t : Token) : Bool :=
  t.kind = .endOfFile || t.kind = .dollar || t.kind = .keyword .kwEndMethod ||
    (depth = 0 && (t.kind = .semicolon || closesConstruct t.kind || line < t.line))

/-- Tokens at which a new item of the file may begin. -/
def startsItem : Token.Kind → Bool
  | .dollar | .keyword .kwMethod | .keyword .kwPrivate | .keyword .kwAbstract | .keyword .kwIter | .keyword .kwPackage
  | .keyword .kwPragma | .endOfFile => true
  | _ => false

namespace Parse

/-- Makes sure that at least one token after `start` has been passed. -/
def leave (start : List Word) : Parse Unit := do
  if (← remaining).length = start.length then skip 1

/-- The node for what was passed over since `start`. -/
def syntaxError (start : List Word) : Parse Node := do
  match start with
  | [] => fun _ => .fault .noToken
  | first :: _ =>
    if (← remaining).length < start.length then nodeFrom .syntaxError first.token.span []
    else node .syntaxError first.token.span []

/-- Passes a token of a malformed statement, unless it ends there. -/
def statementRound : Nat × Nat → Parse (Round (Nat × Nat) Unit)
  | (depth, line) => do
    let t ← current
    if endsStatement depth line t then return .done ()
    else
      skip 1
      return .again (((depth : Int) + nesting t.kind).toNat, t.line)

/-- Passes over the rest of a malformed statement that began at `start`. -/
def skipStatement (start : List Word) : Parse Node := do
  leave start
  let depth := depthAfter (start.take (start.length - (← remaining).length))
  let line := (← previousSpan).endLine
  loop statementRound (depth, line)
  syntaxError start

/-- Passes a token of a malformed item, unless another may begin there. -/
def itemRound : Unit → Parse (Round Unit Unit)
  | () => do
    if startsItem (← kind) then return .done ()
    else
      skip 1
      return .again ()

/-- Passes over the rest of a malformed item of the file that began at `start`. -/
def skipItem (start : List Word) : Parse Node := do
  leave start
  loop itemRound ()
  syntaxError start

end Parse

end Magik.Grammar
