/-
  Magik.Server.Range — places in a text as an editor counts them.

  Lines and characters count from zero and the end of a range is the place after its last
  character. They are 32-bit numbers.
-/

import Magik.Span

namespace Magik.Server

structure Position where
  line : Nat
  character : Nat
  deriving DecidableEq, Repr

structure Range where
  start : Position
  stop : Position
  deriving DecidableEq, Repr

/-- The start of a text. -/
def Range.origin : Range := ⟨⟨0, 0⟩, ⟨0, 0⟩⟩

/-- A count as a 32-bit number. -/
def word (n : Nat) : Nat := n % Nat.pow 2 32

/-- The next 32-bit number, the last one staying. -/
def nextWord (n : Nat) : Nat := min (n + 1) (Nat.pow 2 32 - 1)

/-- The range of a span. A span that ends before it starts covers one character. -/
def Range.ofSpan (s : Span) : Range :=
  let start : Position := ⟨word (s.line - 1), word (s.column - 1)⟩
  let stop : Position := ⟨word (s.endLine - 1), word s.endColumn⟩
  if stop.line < start.line ∨ (stop.line = start.line ∧ stop.character < start.character) then
    ⟨start, ⟨start.line, nextWord start.character⟩⟩
  else ⟨start, stop⟩

end Magik.Server
