/-
  Magik.Span — the stretch of source text a token, node or diagnostic stands for.

  Lines and columns count from one and both ends are inside. Line zero is nowhere: the
  neutral element of `union`.
-/

namespace Magik

structure Span where
  line : Nat
  column : Nat
  endLine : Nat
  endColumn : Nat
  deriving DecidableEq, Repr, Inhabited

namespace Span

def nowhere : Span := ⟨0, 0, 0, 0⟩

def point (line column : Nat) : Span := ⟨line, column, line, column⟩

/-- Whether the first position is at or before the second. -/
def atOrBefore (line column line' column' : Nat) : Bool :=
  line < line' || (line == line' && column ≤ column')

/-- The smallest span around both. -/
def union (a b : Span) : Span :=
  if a.line = 0 then b
  else if b.line = 0 then a
  else
    let first := if atOrBefore a.line a.column b.line b.column then a else b
    let last := if atOrBefore b.endLine b.endColumn a.endLine a.endColumn then a else b
    ⟨first.line, first.column, last.endLine, last.endColumn⟩

/-- Whether a position lies in the span, its ends included. -/
def contains (s : Span) (line column : Nat) : Bool :=
  s.line ≤ line && line ≤ s.endLine && !(line == s.line && column < s.column) &&
    !(line == s.endLine && s.endColumn < column)

/-- The span around a start and all that follow it. -/
def around (start : Span) (spans : List Span) : Span := spans.foldl union start

@[simp] theorem union_nowhere (a : Span) : union nowhere a = a := by
  simp [union, nowhere]

end Span

end Magik
