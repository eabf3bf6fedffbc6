/-
  Magik.Uri.Punycode — labels of any characters written in letters, digits and hyphens.

  The ASCII characters come first. Every other character is given by how many positions
  and code points it lies behind the one before it, in order of the code points, as a
  number to a base of thirty-six whose digits have thresholds that follow the numbers
  written so far.
-/

namespace Magik.Uri.Punycode

def digit (n : Nat) : Char := if n < 26 then Char.ofNat (0x61 + n) else Char.ofNat (0x30 + n - 26)

def digit? (c : Char) : Option Nat :=
  if 'a' ≤ c ∧ c ≤ 'z' then some (c.toNat - 0x61)
  else if 'A' ≤ c ∧ c ≤ 'Z' then some (c.toNat - 0x41)
  else if '0' ≤ c ∧ c ≤ '9' then some (c.toNat - 0x30 + 26)
  else none

/-- A digit below the threshold of its place is the last one. -/
def threshold (place bias : Nat) : Nat := max 1 (min 26 (place - bias))

theorem threshold_pos (place bias : Nat) : 0 < threshold place bias := by
  simp only [threshold]; omega

/-- The bias for a number that was halved until small, and how often. -/
def settle (delta rounds : Nat) : Nat :=
  if 455 < delta then settle (delta / 35) (rounds + 1) else 36 * rounds + 36 * delta / (delta + 38)
termination_by delta
decreasing_by omega

/-- The bias after a number has been written. -/
def adapt (delta length : Nat) (first : Bool) : Nat :=
  let damped := if first then delta / 700 else delta / 2
  settle (damped + damped / length) 0

/-! ## Writing -/

def digits (bias place n : Nat) : List Char :=
  let t := threshold place bias
  if n < t then [digit n] else digit (t + (n - t) % (36 - t)) :: digits bias (place + 36) ((n - t) / (36 - t))
termination_by n
decreasing_by
  have := threshold_pos place bias
  exact Nat.lt_of_le_of_lt (Nat.div_le_self _ _) (by omega)

structure Writing where
  out : List Char
  /-- How far the next character lies behind. -/
  delta : Nat
  bias : Nat
  /-- The characters written. -/
  count : Nat

/-- Passes a character of the label while the characters of code point `code` are written. -/
def pass (basic code : Nat) (w : Writing) (c : Char) : Writing :=
  if c.toNat < code then { w with delta := w.delta + 1 }
  else if c.toNat = code then
    ⟨w.out ++ digits w.bias 36 w.delta, 0, adapt w.delta (w.count + 1) (w.count = basic), w.count + 1⟩
  else w

/-- Writes the characters of the code points that are left, the last of them before `code`. -/
def writeCodes (label : List Char) (basic : Nat) : Nat → Writing → List Nat → Writing
  | _, w, [] => w
  | code, w, next :: more =>
    let w := { w with delta := w.delta + (next - code) * (w.count + 1) }
    let w := label.foldl (pass basic next) w
    writeCodes label basic (next + 1) { w with delta := w.delta + 1 } more

def isBasic (c : Char) : Bool := c.toNat < 0x80

def encode (label : List Char) : List Char :=
  let basic := label.filter isBasic
  let codes := ((label.filter fun c => !isBasic c).map Char.toNat).mergeSort.eraseDups
  let w := writeCodes label basic.length 0x80 ⟨[], 0, 72, basic.length⟩ codes
  basic ++ (if basic = [] then [] else ['-']) ++ w.out

/-! ## Reading -/

/-- A number and what follows it. -/
def number? (bias place weight n : Nat) : List Char → Option (Nat × List Char)
  | [] => none
  | c :: rest =>
    match digit? c with
    | none => none
    | some d =>
      let t := threshold place bias
      if d < t then some (n + d * weight, rest) else number? bias (place + 36) (weight * (36 - t)) (n + d * weight) rest

def isCode (n : Nat) : Bool := n < 0xD800 || (0xDFFF < n && n < 0x110000)

/-- Puts characters into the label as the numbers say. -/
def insertCodes (bias code position : Nat) (label : List Char) (cs : List Char) : Option (List Char) :=
  if cs = [] then some label
  else
    match number? bias 36 1 position cs with
    | none => none
    | some (n, rest) =>
      let length := label.length + 1
      let next := code + n / length
      if isCode next ∧ rest.length < cs.length then
        insertCodes (adapt (n - position) length (position = 0)) next (n % length + 1)
          (label.insertIdx (n % length) (Char.ofNat next)) rest
      else none
termination_by cs.length

/-- The label that a text stands for. -/
def decode (cs : List Char) : Option (List Char) :=
  let tail := (cs.reverse.takeWhile (· ≠ '-')).reverse
  let basic := cs.take (cs.length - tail.length - 1)
  if basic.all isBasic then insertCodes 72 0x80 0 basic tail else none

end Magik.Uri.Punycode
