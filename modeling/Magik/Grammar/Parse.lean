/-
  Magik.Grammar.Parse — parsers over a list of tokens.

  A parser takes a state to an answer or gives up. Giving up keeps the state:
  diagnostics stay reported, nodes stay in the arena, and the cursor stays where the trouble
  was, so that recovery can go on from there. The doc comments in front of a token
  travel with it; the end of the file is a token, and no parser moves past it.

  A fault is what must not happen: looking for a token past the end of the file, or going
  round without getting on. Nothing catches a fault. Repetition goes through `loop`,
  where each round has to move the cursor forward before the next.
-/

import Magik.Diagnostic
import Magik.Grammar.Problem
import Magik.Syntax.Node

namespace Magik.Grammar

/-! ## Tokens and their doc lines -/

/-- A token and the doc lines right in front of it. -/
structure Word where
  token : Token
  doc : List String
  deriving Repr

/-- Attaches doc comments to the tokens they stand in front of. -/
def attachDocs : List String → List Token → List Word
  | _, [] => []
  | doc, t :: ts =>
    match t.kind with
    | .docComment text => attachDocs (doc ++ [text]) ts
    | _ => ⟨t, doc⟩ :: attachDocs [] ts

/-! ## States and parsers -/

structure State where
  /-- The token before the cursor. -/
  previous : Option Token
  /-- What is left, the end of the file last. -/
  rest : List Word
  /-- The nodes made so far. -/
  arena : Arena
  diagnostics : List Diagnostic

/-- The number the next node gets. -/
def State.next (s : State) : Nat := s.arena.size

def State.start (tokens : List Token) : State := ⟨none, attachDocs [] tokens, #[], []⟩

inductive Fault where
  /-- A token past the last, or past the end of the file. -/
  | noToken
  /-- Another round, or an inner expression, where the cursor has not moved. -/
  | noProgress
  deriving DecidableEq, Repr

inductive Reply (α : Type) where
  | found (a : α) (s : State)
  | gaveUp (s : State)
  | fault (f : Fault)

def Parse (α : Type) : Type := State → Reply α

namespace Parse

instance : Monad Parse where
  pure a := fun s => .found a s
  bind p f := fun s =>
    match p s with
    | .found a s' => f a s'
    | .gaveUp s' => .gaveUp s'
    | .fault e => .fault e

theorem pure_apply {α : Type} (a : α) (s : State) : (pure a : Parse α) s = .found a s := rfl

theorem bind_apply {α β : Type} (p : Parse α) (f : α → Parse β) (s : State) :
    (p >>= f) s = match p s with
      | .found a s' => f a s'
      | .gaveUp s' => .gaveUp s'
      | .fault e => .fault e := rfl

theorem bind_found {α β : Type} {p : Parse α} {f : α → Parse β} {s t : State} {a : α} (h : p s = .found a t) :
    (p >>= f) s = f a t := by
  rw [bind_apply, h]

/-- Gives up, keeping the state. -/
def fail {α : Type} : Parse α := fun s => .gaveUp s

/-- The answer of a parser, or that it gave up. -/
def attempt {α : Type} (p : Parse α) : Parse (Option α) := fun s =>
  match p s with
  | .found a s' => .found (some a) s'
  | .gaveUp s' => .found none s'
  | .fault e => .fault e

/-- What a round of a loop asks for. -/
inductive Round (σ α : Type) where
  | again (x : σ)
  | done (a : α)

/-- Rounds until one is done, each further on than the one before. -/
def loop {σ α : Type} (round : σ → Parse (Round σ α)) (x : σ) (s : State) : Reply α :=
  match round x s with
  | .found (.again x') s' => if s'.rest.length < s.rest.length then loop round x' s' else .fault .noProgress
  | .found (.done a) s' => .found a s'
  | .gaveUp s' => .gaveUp s'
  | .fault e => .fault e
termination_by s.rest.length

/-! ## The cursor -/

def current : Parse Token := fun s =>
  match s.rest with
  | [] => .fault .noToken
  | w :: _ => .found w.token s

def kind : Parse Token.Kind := do return (← current).kind

/-- What is left. -/
def remaining : Parse (List Word) := fun s => .found s.rest s

/-- What is left where that is more than the end of the file. -/
def upcoming : Parse (List Word) := fun s =>
  match s.rest with
  | [] => .fault .noToken
  | w :: _ => if w.token.kind = .endOfFile then .fault .noToken else .found s.rest s

/-- Passes the current token. -/
def advance : Parse Token := fun s =>
  match s.rest with
  | [] => .fault .noToken
  | w :: ws =>
    if w.token.kind = .endOfFile then .fault .noToken
    else .found w.token { s with previous := some w.token, rest := ws }

/-- Passes a number of tokens. -/
def skip : Nat → Parse Unit
  | 0 => pure ()
  | n + 1 => do
    let _ ← advance
    skip n

def isKeyword (word : Keyword) : Parse Bool := do return (← kind) = .keyword word

/-- The token before the cursor. -/
def previous : Parse (Option Token) := fun s => .found s.previous s

/-- Whether the current token starts on the line of the token before it. -/
def onSameLine : Parse Bool := do
  let t ← current
  return (← previous).all fun p => p.line = t.line

def previousSpan : Parse Span := do return ((← previous).map Token.span).getD .nowhere

/-- The doc lines in front of the current token. -/
def doc : Parse (List String) := fun s => .found ((s.rest.head?.map (·.doc)).getD []) s

/-! ## Nodes and problems -/

/-- A node with the next number, around its children. -/
def node (kind : Node.Kind) (span : Span) (children : List Node) : Parse Node := fun s =>
  .found ⟨s.next, kind, span, children⟩ { s with arena := s.arena.add ⟨s.next, kind, span, children⟩ }

def report (problem : Problem) (span : Span) : Parse Unit := fun s =>
  .found () { s with diagnostics := s.diagnostics ++ [.error problem.message (some span)] }

def failWith {α : Type} (problem : Problem) (span : Span) : Parse α := do
  report problem span
  fail

/-- A node from a start to the token before the cursor. -/
def nodeFrom (kind : Node.Kind) (start : Span) (children : List Node) : Parse Node := do
  node kind (start.union (← previousSpan)) children

/-- Passes an identifier. -/
def identifier (wanted : Wanted) : Parse Token := do
  let t ← current
  if t.kind = .identifier then advance
  else failWith (.expected wanted) t.span

/-- Passes a token of a kind. -/
def token (kind : Token.Kind) (wanted : Wanted) : Parse Unit := do
  let t ← current
  if t.kind = kind then skip 1
  else failWith (.expectedAt wanted t.lexeme) t.span

def keyword (word : Keyword) (wanted : Wanted) : Parse Unit := token (.keyword word) wanted

/-- Passes the keyword that closes a construct. A missing one is reported and the
    construct ends where it stands. -/
def closing (word : Keyword) (wanted : Wanted) : Parse Unit := do
  let t ← current
  if t.kind = .keyword word then skip 1
  else report (.unclosed wanted t) t.span

/-- Passes the current token if it is of some kinds. -/
def skipIf (passes : Token.Kind → Bool) : Parse Unit := do
  if passes (← kind) then skip 1
  else return ()

/-- A label after `@`, if there is one. -/
def optionalLabel : Parse (Option String) := do
  if (← kind) = .atSign then
    skip 1
    return some (← identifier .labelName).lexeme
  else
    return none

end Parse

end Magik.Grammar
