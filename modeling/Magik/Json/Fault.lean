/-
  Magik.Json.Fault — what keeps a text from being a JSON document, and where.

  A place is known by the bytes that are left after it, so a reader that has only the rest
  of a text can name one.
-/

namespace Magik.Json

inductive Fault where
  | endInList
  | endInObject
  | endInString
  | endInValue
  | noColon
  | noListSeparator
  | noObjectSeparator
  | noWord
  | noValue
  | badEscape
  | badNumber
  | tooLarge
  | controlCharacter
  | keyNotText
  | loneSurrogate
  | trailingComma
  | trailingText
  | shortEscape
  | tooDeep
  deriving DecidableEq, Repr

def Fault.message : Fault → String
  | .endInList => "EOF while parsing a list"
  | .endInObject => "EOF while parsing an object"
  | .endInString => "EOF while parsing a string"
  | .endInValue => "EOF while parsing a value"
  | .noColon => "expected `:`"
  | .noListSeparator => "expected `,` or `]`"
  | .noObjectSeparator => "expected `,` or `\x7d`"
  | .noWord => "expected ident"
  | .noValue => "expected value"
  | .badEscape => "invalid escape"
  | .badNumber => "invalid number"
  | .tooLarge => "number out of range"
  | .controlCharacter => "control character (\\u0000-\\u001F) found while parsing a string"
  | .keyNotText => "key must be a string"
  | .loneSurrogate => "lone leading surrogate in hex escape"
  | .trailingComma => "trailing comma"
  | .trailingText => "trailing characters"
  | .shortEscape => "unexpected end of hex escape"
  | .tooDeep => "recursion limit exceeded"

/-- The bytes of a text. -/
def bytes (cs : List Char) : Nat := cs.foldl (fun n c => n + c.utf8Size) 0

/-- Where reading stopped, and why. -/
structure Stop (ε : Type) where
  cause : ε
  /-- The bytes after the place. -/
  left : Nat
  deriving DecidableEq, Repr

namespace Stop

variable {ε : Type}

/-- In front of the rest of a text. -/
def before (cause : ε) (rest : List Char) : Stop ε := ⟨cause, bytes rest⟩

/-- After the first byte of the rest of a text, or at its end. -/
def behind (cause : ε) (rest : List Char) : Stop ε := ⟨cause, bytes rest - 1⟩

/-- The column of the place in a text of so many bytes. -/
def column (s : Stop ε) (size : Nat) : Nat := size - s.left

def map {δ : Type} (f : ε → δ) (s : Stop ε) : Stop δ := ⟨f s.cause, s.left⟩

end Stop

/-- What reading gave, as a rule with the rest of the text. -/
abbrev Outcome (α : Type) := Except (Stop Fault) α

end Magik.Json
