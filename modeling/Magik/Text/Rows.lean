/-
  Magik.Text.Rows — tables of characters written as texts.

  Rows stand between blanks. A row names characters by their code points in hexadecimal:
  `C0` is one, `C0-D6` all from a first to a last, and `100-12E/2` every second of these.
  What the table says about them follows, after `>` as numbers parted by commas or after `=`
  as characters. The first character is left out where it comes next after the row before,
  and so is a number that stands at its place in that row. `2474=(*123*)` is short for three
  rows from the character on: each has one of the characters between the stars.

  Where every character has a letter, runs of characters that have the same one are written
  from a code point on: of each run the letter and, in hexadecimal, the length, unless that
  is one.
-/

import Magik.Text.Basic

namespace Magik.Text

structure Row where
  first : Nat
  last : Nat
  step : Nat
  values : List Nat
  deriving DecidableEq, Repr

namespace Row

def holds (r : Row) (n : Nat) : Bool := r.first ≤ n && n ≤ r.last && (n - r.first) % r.step = 0

/-- A number, or what it is if it is left out. -/
def readNumber (otherwise : Nat) (cs : List Char) : Option Nat := if cs = [] then some otherwise else numeral? 16 cs

/-- The characters of a row; where the first is left out, it is the next after another row. -/
def readKey (before : Row) (cs : List Char) : Option (Nat × Nat × Nat) :=
  match pieces '-' cs with
  | [one] => do
    let n ← readNumber (before.last + 1) one
    return (n, n, 1)
  | [first, rest] => do
    let first ← readNumber (before.last + 1) first
    match pieces '/' rest with
    | [last] => return (first, ← numeral? 16 last, 1)
    | [last, step] => return (first, ← numeral? 16 last, ← numeral? 16 step)
    | _ => none
  | _ => none

def read (before : Row) (cs : List Char) : Option (List Row) :=
  match pieces '>' cs, pieces '=' cs with
  | [key, values], _ => do
    let (first, last, step) ← readKey before key
    return [⟨first, last, step, ← (pieces ',' values).zipIdx.mapM fun (cs, i) => readNumber (before.values.getD i 0) cs⟩]
  | _, [key, text] => do
    let (first, last, step) ← readKey before key
    match pieces '*' text with
    | start :: each :: rest =>
      return each.zipIdx.map fun (c, i) => ⟨first + i, first + i, 1, (start ++ c :: rest.flatten).map Char.toNat⟩
    | _ => return [⟨first, last, step, text.map Char.toNat⟩]
  | _, _ => none

/-- The rows of some texts, each read after the one before it. -/
def readAll : Row → List (List Char) → List Row
  | _, [] => []
  | before, cs :: rest =>
    match read before cs with
    | some rs => rs ++ readAll (rs.getLastD before) rest
    | none => readAll before rest

end Row

/-- The rows of a table. -/
def rows (text : String) : List Row :=
  Row.readAll ⟨0, 0, 1, []⟩ (pieces ' ' (text.toList.map fun c => if c = '\n' then ' ' else c))

/-- The row of a character. -/
def row? (table : List Row) (c : Char) : Option Row := table.find? (·.holds c.toNat)

/-- The letter of the character after so many others, where a run is being read. -/
def letterAfter (n : Nat) (letter : Char) (length : Nat) : List Char → Char
  | [] => letter
  | c :: rest =>
    match hexDigit? c with
    | some d => letterAfter n letter (16 * length + d) rest
    | none => if n < max length 1 then letter else letterAfter (n - max length 1) c 0 rest

/-- The letter of a character in a table of runs. -/
def letterIn (table : List (Nat × String)) (otherwise c : Char) : Char :=
  match (table.takeWhile (·.1 ≤ c.toNat)).getLast? with
  -- one more character seems to stand in front of the runs
  | some (first, runs) => letterAfter (c.toNat - first + 1) otherwise 0 runs.toList
  | none => otherwise

end Magik.Text
