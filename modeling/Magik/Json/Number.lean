/-
  Magik.Json.Number — numbers of JSON documents.

  A number without fraction and exponent is an integer if it fits into sixty-four bits,
  unsigned or, with a minus sign, signed. Every other number is a double: its first
  digits, as many as fit into sixty-four bits, are scaled by powers of ten in double
  arithmetic, so the last bit may be off the nearest double. A number past the largest
  double is refused.
-/

import Magik.Json.Fault
import Magik.Json.Value
import Magik.Text.Basic

namespace Magik.Json

/-- The largest power of ten that is a double. -/
def largestPower : Nat := 308

/-- A magnitude times a power of ten; none if that is too large. -/
def scaled (f : Binary64) (exponent : Int) : Option Binary64 :=
  if f.isZero then some f
  else if largestPower < exponent then none
  else if 0 ≤ exponent then
    let product := f.mul (.ofDecimal 1 exponent)
    if product.isInfinite then none else some product
  else if -largestPower ≤ exponent then some (f.div (.ofDecimal 1 (-exponent)))
  else scaled (f.div (.ofDecimal 1 largestPower)) (exponent + largestPower)
termination_by (-exponent).toNat
decreasing_by simp only [largestPower] at *; omega

/-- The digits read so far: their value as far as it fits, and the power of ten that
    stands for the rest. -/
structure Significand where
  value : Nat
  exponent : Int
  /-- Whether a digit on this side of the point did not fit. -/
  full : Bool

def Significand.limit : Nat := Nat.pow 2 64

/-- One more digit in front of the point. -/
def Significand.whole (s : Significand) (c : Char) : Significand :=
  let value := s.value * 10 + Text.digitValue c
  if s.full ∨ limit ≤ value then { s with exponent := s.exponent + 1, full := true }
  else { s with value }

/-- One more digit behind the point. -/
def Significand.fraction (s : Significand) (c : Char) : Significand :=
  let value := s.value * 10 + Text.digitValue c
  if s.full ∨ limit ≤ value then { s with full := true }
  else { s with value, exponent := s.exponent - 1 }

/-- An exponent this large is not read to its end. -/
def exponentLimit : Nat := Nat.pow 2 31

/-- The digits of an exponent, and what follows them; none as soon as it is past the
    limit, with what follows the digit that took it there. -/
def readExponentDigits (n : Nat) : List Char → Option Nat × List Char
  | [] => (some n, [])
  | c :: rest =>
    if Text.isDigit c then
      let n := n * 10 + Text.digitValue c
      if exponentLimit ≤ n then (none, rest) else readExponentDigits n rest
    else (some n, c :: rest)

/-- A magnitude times a power of ten, with the sign of a number. -/
def float (negative : Bool) (s : Significand) (exponent : Int) (rest : List Char) : Outcome (Value × List Char) :=
  match scaled (.ofRatio s.value 1) (s.exponent + exponent) with
  | some f => .ok (.float (if negative then f.neg else f), rest)
  | none => .error (.before .tooLarge rest)

/-- A double after the mark of its exponent. -/
def readExponent (negative : Bool) (s : Significand) (cs : List Char) : Outcome (Value × List Char) :=
  let (down, cs) := match cs with
    | '+' :: rest => (false, rest)
    | '-' :: rest => (true, rest)
    | _ => (false, cs)
  match cs with
  | [] => .error (.before .endInValue [])
  | c :: _ =>
    if Text.isDigit c then
      match readExponentDigits 0 cs with
      | (some n, rest) => float negative s (if down then -n else n) rest
      | (none, rest) =>
        if s.value ≠ 0 ∧ !down then .error (.before .tooLarge rest)
        else float negative ⟨0, 0, false⟩ 0 (rest.dropWhile Text.isDigit)
    else .error (.behind .badNumber cs)

/-- A double whose digits end here. -/
def readScaled (negative : Bool) (s : Significand) (cs : List Char) : Outcome (Value × List Char) :=
  match cs with
  | 'e' :: rest | 'E' :: rest => readExponent negative s rest
  | _ => float negative s 0 cs

/-- A double after its point. -/
def readFraction (negative : Bool) (s : Significand) (cs : List Char) : Outcome (Value × List Char) :=
  let decimals := cs.takeWhile Text.isDigit
  if decimals = [] then .error (.behind (if cs = [] then .endInValue else .badNumber) cs)
  else readScaled negative (decimals.foldl Significand.fraction { s with full := false }) (cs.dropWhile Text.isDigit)

/-- The integer that the digits are, if it fits. -/
def wholeNumber (negative : Bool) (s : Significand) : Option Value :=
  if s.full then none
  else if negative then if s.value = 0 ∨ Nat.pow 2 63 < s.value then none else some (.integer (-s.value))
  else some (.integer s.value)

/-- A number whose first digits are these, before what follows them. -/
def readRest (negative : Bool) (s : Significand) (cs : List Char) : Outcome (Value × List Char) :=
  match cs with
  | '.' :: rest => readFraction negative s rest
  | 'e' :: _ | 'E' :: _ => readScaled negative s cs
  | _ =>
    match wholeNumber negative s with
    | some v => .ok (v, cs)
    | none => readScaled negative s cs

/-- A number after its sign. No digit follows a leading zero. -/
def readMagnitude (negative : Bool) (cs : List Char) : Outcome (Value × List Char) :=
  match cs with
  | [] => .error (.before .endInValue [])
  | '0' :: rest =>
    if rest.head?.any Text.isDigit then .error (.behind .badNumber rest) else readRest negative ⟨0, 0, false⟩ rest
  | c :: _ =>
    if Text.isDigit c then
      readRest negative ((cs.takeWhile Text.isDigit).foldl Significand.whole ⟨0, 0, false⟩) (cs.dropWhile Text.isDigit)
    else .error (.behind .badNumber cs)

def readNumber (cs : List Char) : Outcome (Value × List Char) :=
  match cs with
  | '-' :: rest => readMagnitude true rest
  | _ => readMagnitude false cs

end Magik.Json
