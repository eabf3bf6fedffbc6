/-
  Magik.Uri.Address — numbers that hosts are known by.

  An address of four bytes is written as up to four numbers with points between them, the
  last of which takes the bytes that are left; a leading `0x` makes a number hexadecimal,
  a leading zero octal. An address of eight words is written in hexadecimal with colons;
  two colons stand for zeros, and the last two words may be four bytes.
-/

import Magik.Text.Basic

namespace Magik.Uri

/-! ## Four bytes -/

/-- A part of an address: its digits after the mark of their base. -/
def part? : List Char → Option Nat
  | [] => none
  | '0' :: 'x' :: rest | '0' :: 'X' :: rest => Text.numeral? 16 rest
  | '0' :: c :: rest => Text.numeral? 8 (c :: rest)
  | cs => Text.numeral? 10 cs

/-- The parts of a name, a point at its end aside. -/
def nameParts (name : List Char) : List (List Char) :=
  let parts := Text.pieces '.' name
  if parts.getLast? = some [] ∧ 1 < parts.length then parts.dropLast else parts

/-- Whether a name has to be an address: its last part is a number. -/
def endsInNumber (name : List Char) : Bool :=
  (nameParts name).getLast?.any fun last => last ≠ [] && (last.all Text.isDigit || (part? last).isSome)

/-- The four bytes that a name is. -/
def ipv4? (name : List Char) : Option Nat := do
  let numbers ← (nameParts name).mapM part?
  let last ← numbers.getLast?
  let leading := numbers.dropLast
  if leading.length ≤ 3 ∧ leading.all (· < 256) ∧ last < Nat.pow 256 (4 - leading.length) then
    return leading.foldl (fun n byte => n * 256 + byte) 0 * Nat.pow 256 (4 - leading.length) + last
  else none

def writeIpv4 (n : Nat) : String :=
  ".".intercalate ([n / Nat.pow 256 3, n / Nat.pow 256 2 % 256, n / 256 % 256, n % 256].map toString)

/-! ## Eight words -/

/-- A decimal byte without leading zeros. -/
def byte? (cs : List Char) : Option Nat :=
  if cs = [] ∨ (cs.head? = some '0' ∧ cs.length ≠ 1) then none
  else (Text.numeral? 10 cs).bind fun n => if n < 256 then some n else none

def word? (cs : List Char) : Option Nat :=
  if cs = [] ∨ 4 < cs.length then none else Text.numeral? 16 cs

/-- The words of a group; the last part may be four bytes. -/
def words? : List (List Char) → Option (List Nat)
  | [] => some []
  | [last] =>
    match (Text.pieces '.' last).mapM byte? with
    | some [a, b, c, d] => some [a * 256 + b, c * 256 + d]
    | _ => (word? last).map ([·])
  | part :: more => do
    let w ← word? part
    return w :: (← words? more)

/-- The text before the first two colons and the text after them. -/
def splitGap : List Char → Option (List Char × List Char)
  | ':' :: ':' :: rest => some ([], rest)
  | c :: rest => (splitGap rest).map fun (before, after) => (c :: before, after)
  | [] => none

/-- The words of a text without a gap. Only at the end may four bytes stand. -/
def group? (isLast : Bool) (cs : List Char) : Option (List Nat) :=
  if cs = [] then some []
  else if isLast then words? (Text.pieces ':' cs)
  else (Text.pieces ':' cs).mapM word?

/-- The eight words that a text is. -/
def ipv6? (cs : List Char) : Option (List Nat) :=
  match splitGap cs with
  | none => do
    let words ← words? (Text.pieces ':' cs)
    if words.length = 8 then return words else none
  | some (before, after) => do
    let before ← group? false before
    let after ← group? true after
    if before.length + after.length ≤ 7 then
      return before ++ List.replicate (8 - before.length - after.length) 0 ++ after
    else none

/-- How many zeros stand first. -/
def zeroRun (words : List Nat) : Nat := (words.takeWhile (· = 0)).length

/-- Where the first of the longest runs of two zeros or more starts, and its length. -/
def gap? (words : List Nat) : Option (Nat × Nat) :=
  ((List.range words.length).map fun i => (i, zeroRun (words.drop i))).foldl (fun best run =>
    if 2 ≤ run.2 ∧ best.all (·.2 < run.2) then some run else best) none

def writeWords (words : List Nat) : String :=
  ":".intercalate (words.map fun n => String.ofList (Nat.toDigits 16 n))

def writeIpv6 (words : List Nat) : String :=
  match gap? words with
  | some (start, length) => writeWords (words.take start) ++ "::" ++ writeWords (words.drop (start + length))
  | none => writeWords words

end Magik.Uri
