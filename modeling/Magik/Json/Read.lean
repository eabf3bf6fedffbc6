/-
  Magik.Json.Read — reading JSON documents.

  Nesting ends at a depth of 127. Control characters do not stand in strings, and a
  surrogate needs its other half. Reading stops at the first fault, and a bracket or a
  comma that is not wanted is not passed.
-/

import Magik.Json.Number

namespace Magik.Json

def isSpace (c : Char) : Bool := c = ' ' || c = '\n' || c = '\t' || c = '\r'

def skipSpace (cs : List Char) : List Char := cs.dropWhile isSpace

/-! ## Strings -/

/-- The number that four hexadecimal digits in front of a text are, and what follows them. -/
def unit? : List Char → Option (Nat × List Char)
  | a :: b :: c :: d :: rest => (Text.numeral? 16 [a, b, c, d]).map fun n => (n, rest)
  | _ => none

/-- Four bytes that have to be hexadecimal digits. -/
def readUnit (cs : List Char) : Outcome (Nat × List Char) :=
  if bytes cs < 4 then .error (.before .endInString [])
  else
    match unit? cs with
    | some found => .ok found
    | none => .error ⟨.badEscape, bytes cs - 4⟩

def isHighSurrogate (n : Nat) : Bool := 0xD800 ≤ n && n < 0xDC00

def isLowSurrogate (n : Nat) : Bool := 0xDC00 ≤ n && n < 0xE000

/-- A character that has to follow the first half of a pair. -/
def expectInPair (expected : Char) : List Char → Outcome (List Char)
  | [] => .error (.before .endInString [])
  | c :: rest => if c = expected then .ok rest else .error (.behind .shortEscape (c :: rest))

/-- A character written by its code, after the mark. -/
def readCode (cs : List Char) : Outcome (Char × List Char) := do
  let (high, rest) ← readUnit cs
  if isLowSurrogate high then .error (.before .loneSurrogate rest)
  else if isHighSurrogate high then
    let (low, rest) ← readUnit (← expectInPair 'u' (← expectInPair '\\' rest))
    if isLowSurrogate low then
      return (Char.ofNat (0x10000 + (high - 0xD800) * 0x400 + (low - 0xDC00)), rest)
    else .error (.before .loneSurrogate rest)
  else
    return (Char.ofNat high, rest)

def simpleEscape? : Char → Option Char
  | '"' => some '"'
  | '\\' => some '\\'
  | '/' => some '/'
  | 'b' => some '\x08'
  | 'f' => some '\x0c'
  | 'n' => some '\n'
  | 'r' => some '\r'
  | 't' => some '\t'
  | _ => none

/-- A character after a backslash. -/
def readEscape : List Char → Outcome (Char × List Char)
  | [] => .error (.before .endInString [])
  | 'u' :: rest => readCode rest
  | c :: rest =>
    match simpleEscape? c with
    | some e => .ok (e, rest)
    | none => .error (.behind .badEscape (c :: rest))

/-- A string after its opening quote. -/
def readString (done : List Char) : List Char → Outcome (String × List Char)
  | [] => .error (.before .endInString [])
  | '"' :: rest => .ok (String.ofList done.reverse, rest)
  | '\\' :: escaped =>
    match readEscape escaped with
    | .error stop => .error stop
    | .ok (c, rest) =>
      if rest.length ≤ escaped.length then readString (c :: done) rest else .error (.before .endInString rest)
  | c :: rest => if c.toNat < 0x20 then .error (.before .controlCharacter rest) else readString (c :: done) rest
termination_by cs => cs.length

/-! ## Brackets -/

inductive Bracket where
  | square
  | curly
  deriving DecidableEq, Repr

namespace Bracket

def close : Bracket → Char
  | .square => ']'
  | .curly => '\x7d'

/-- What is wrong when a text ends inside. -/
def unfinished : Bracket → Fault
  | .square => .endInList
  | .curly => .endInObject

/-- What is wrong when neither a comma nor the closing bracket follows an item. -/
def unseparated : Bracket → Fault
  | .square => .noListSeparator
  | .curly => .noObjectSeparator

/-- An item comes here: inside curly brackets it starts with a quote. -/
def start (b : Bracket) (cs : List Char) : Outcome (Bool × List Char) :=
  if b = .curly ∧ cs.head? ≠ some '"' then .error (.behind .keyNotText cs) else .ok (true, cs)

/-- Whether another item follows. If so the rest starts with it, otherwise the closing
    bracket has been passed. -/
def next (b : Bracket) (first : Bool) (cs : List Char) : Outcome (Bool × List Char) :=
  match skipSpace cs with
  | [] => .error (.before b.unfinished [])
  | c :: rest =>
    if c = b.close then .ok (false, rest)
    else if first then b.start (c :: rest)
    else if c ≠ ',' then .error (.behind b.unseparated (c :: rest))
    else
      match skipSpace rest with
      | [] => .error (.before .endInValue [])
      | c :: rest => if c = b.close then .error (.behind .trailingComma (c :: rest)) else b.start (c :: rest)

/-- Items up to and including the closing bracket, at most so many. -/
def readUpTo {α : Type} (b : Bracket) (item : List Char → Outcome (α × List Char)) :
    Nat → Bool → List α → List Char → Outcome (List α × List Char)
  | 0, _, _, cs => .error (.before b.unfinished cs)
  | count + 1, first, done, cs =>
    match b.next first cs with
    | .error stop => .error stop
    | .ok (false, rest) => .ok (done.reverse, rest)
    | .ok (true, rest) =>
      match item rest with
      | .error stop => .error stop
      | .ok (a, rest) => readUpTo b item count false (a :: done) rest

/-- Items up to and including the closing bracket. A text has no more of them than characters. -/
def readItems {α : Type} (b : Bracket) (item : List Char → Outcome (α × List Char)) (first : Bool) (cs : List Char) :
    Outcome (List α × List Char) :=
  b.readUpTo item (cs.length + 1) first [] cs

end Bracket

/-! ## Values -/

/-- The colon between a name and a value. -/
def readColon (cs : List Char) : Outcome (List Char) :=
  match skipSpace cs with
  | [] => .error (.before .endInObject [])
  | c :: rest => if c = ':' then .ok rest else .error (.behind .noColon (c :: rest))

/-- A name, a colon and a value. -/
def readMember (value : List Char → Outcome (Value × List Char)) (cs : List Char) :
    Outcome ((String × Value) × List Char) := do
  let (name, rest) ← readString [] cs.tail
  let (v, rest) ← value (← readColon rest)
  return ((name, v), rest)

/-- The letters of a word after its first. -/
def readWord (v : Value) : List Char → List Char → Outcome (Value × List Char)
  | [], cs => .ok (v, cs)
  | _ :: _, [] => .error (.before .endInValue [])
  | expected :: more, c :: rest =>
    if c = expected then readWord v more rest else .error (.behind .noWord (c :: rest))

/-- A value that is no array and no object. -/
def readScalar (cs : List Char) : Outcome (Value × List Char) :=
  match cs with
  | [] => .error (.before .endInValue [])
  | 'n' :: rest => readWord .null ['u', 'l', 'l'] rest
  | 't' :: rest => readWord (.bool true) ['r', 'u', 'e'] rest
  | 'f' :: rest => readWord (.bool false) ['a', 'l', 's', 'e'] rest
  | '"' :: rest => (readString [] rest).map fun (s, rest) => (.string s, rest)
  | c :: _ => if c = '-' ∨ Text.isDigit c then readNumber cs else .error (.behind .noValue cs)

/-- A value nested at most so deep. -/
def readValue : Nat → List Char → Outcome (Value × List Char)
  | 0, cs =>
    match skipSpace cs with
    | '[' :: rest => .error (.behind .tooDeep ('[' :: rest))
    | '\x7b' :: rest => .error (.behind .tooDeep ('\x7b' :: rest))
    | scalar => readScalar scalar
  | depth + 1, cs =>
    match skipSpace cs with
    | '[' :: rest =>
      (Bracket.square.readItems (readValue depth) true rest).map fun (items, rest) => (.array items, rest)
    | '\x7b' :: rest =>
      (Bracket.curly.readItems (readMember (readValue depth)) true rest).map fun (members, rest) =>
        (.object members, rest)
    | scalar => readScalar scalar

def deepest : Nat := 127

/-- Nothing but space is left. -/
def readEnd (cs : List Char) : Outcome Unit :=
  match skipSpace cs with
  | [] => .ok ()
  | rest => .error (.behind .trailingText rest)

/-- The document that a text is. -/
def read (text : String) : Outcome Value := do
  let (v, rest) ← readValue deepest text.toList
  readEnd rest
  return v

end Magik.Json
