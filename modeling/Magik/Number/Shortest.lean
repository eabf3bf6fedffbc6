/-
  Magik.Number.Shortest — the fewest decimal digits that read back as a double.

  On the grid of one digit, then two, up to seventeen, the two neighbours of the
  number are read back; the first grid with a hit wins, and of two hits the nearer. A
  layout says which way an exact tie goes, where positional notation ends, and how an
  exponent is signed.
-/

import Magik.Number.Binary64

namespace Magik

/-- A decimal `digits · 10 ^ scale`. -/
structure Decimal where
  digits : Nat
  scale : Int
  deriving DecidableEq, Repr

/-- Which of two neighbours an exact tie goes to. -/
inductive Tie where
  | up
  | toEven
  deriving DecidableEq, Repr

/-- The neighbour of `num / den` on the whole numbers that is nearer. -/
def Tie.nearest (tie : Tie) (num den : Nat) : Nat :=
  let below := num / den
  match compare (2 * (num % den)) den with
  | .lt => below
  | .gt => below + 1
  | .eq => match tie with
    | .up => below + 1
    | .toEven => if below % 2 = 0 then below else below + 1

namespace Binary64

/-- The largest `e` with `10 ^ e ≤ num / den`, for positive `num` and `den`. -/
def leadingDigit (num den : Nat) : Int :=
  if den ≤ num then ((Nat.toDigits 10 (num / den)).length : Int) - 1
  else
    let guess := (Nat.toDigits 10 (den / num)).length
    if den ≤ num * Nat.pow 10 (guess - 1) then -((guess : Int) - 1) else -(guess : Int)

/-- The neighbour of `b` on the grid of multiples of `10 ^ scale` that reads back. -/
def onGrid (tie : Tie) (b : Binary64) (scale : Int) : Option Decimal :=
  let num := if 0 ≤ scale then b.ratio.1 else b.ratio.1 * Nat.pow 10 (-scale).toNat
  let den := if 0 ≤ scale then b.ratio.2 * Nat.pow 10 scale.toNat else b.ratio.2
  let below := num / den
  let readsBack (digits : Nat) : Bool := ofDecimal digits scale = b
  match readsBack below, readsBack (below + 1) with
  | true, true => some ⟨tie.nearest num den, scale⟩
  | true, false => some ⟨below, scale⟩
  | false, true => some ⟨below + 1, scale⟩
  | false, false => none

/-- The shortest decimal that reads back as the magnitude of a finite, nonzero number. -/
def shortest (tie : Tie) (b : Binary64) : Decimal :=
  let lead := leadingDigit b.abs.ratio.1 b.abs.ratio.2
  ((List.range 17).findSome? fun (n : Nat) => b.abs.onGrid tie (lead - n)).getD ⟨0, 0⟩

end Binary64

/-- How numbers are written. -/
structure NumberLayout where
  /-- The least exponent of the leading digit that is written positionally; none if all are. -/
  least : Option Int
  /-- The greatest one. -/
  most : Option Int
  tie : Tie
  /-- Whether a positive exponent has a sign. -/
  plusSign : Bool

namespace NumberLayout

/-- From `0.0001` up to but excluding `1e16` positionally. -/
def scientific : NumberLayout := ⟨some (-4), some 15, .up, false⟩

def zeros (n : Nat) : List Char := List.replicate n '0'

/-- Digits with the point after the one of exponent zero; a whole number keeps `.0`. -/
def writePositional (digits : List Char) (exponent : Int) : List Char :=
  if exponent < 0 then ['0', '.'] ++ zeros (-exponent - 1).toNat ++ digits
  else
    let whole := exponent.toNat + 1
    if digits.length ≤ whole then digits ++ zeros (whole - digits.length) ++ ['.', '0']
    else digits.take whole ++ ['.'] ++ digits.drop whole

def writeExponent (plusSign : Bool) (digits : List Char) (exponent : Int) : List Char :=
  let mantissa := if digits.length ≤ 1 then digits else digits.take 1 ++ ['.'] ++ digits.drop 1
  mantissa ++ ['e'] ++ (if plusSign ∧ 0 ≤ exponent then ['+'] else []) ++ (toString exponent).toList

/-- A magnitude that is finite and not zero. -/
def writeDecimal (layout : NumberLayout) (d : Decimal) : List Char :=
  let all := Nat.toDigits 10 d.digits
  let exponent := (all.length : Int) - 1 + d.scale
  let digits := (all.reverse.dropWhile (· = '0')).reverse
  if layout.least.all (· ≤ exponent) ∧ layout.most.all (exponent ≤ ·) then writePositional digits exponent
  else writeExponent layout.plusSign digits exponent

/-- The text of a number with the fewest digits that read back. -/
def write (layout : NumberLayout) (b : Binary64) : String :=
  let sign := if b.isNegative then "-" else ""
  if b.isInfinite then sign ++ "inf"
  else if b.isZero then sign ++ "0.0"
  else sign ++ String.ofList (layout.writeDecimal (b.shortest layout.tie))

end NumberLayout

end Magik
