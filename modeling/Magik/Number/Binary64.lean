/-
  Magik.Number.Binary64 — double-precision numbers, by their bits.

  A number is read from a ratio of naturals: the nearest double, a tie to the even
  one, infinity past the largest. Decimal texts, products and quotients all go
  through that one rounding, so nothing here depends on the machine's arithmetic.
-/

namespace Magik

/-- A double-precision number: sign, eleven exponent bits, fifty-two fraction bits. -/
structure Binary64 where
  bits : UInt64
  deriving DecidableEq, Repr

namespace Binary64

/-- The quotient rounded to the nearest natural, a half to the even one. -/
def roundDiv (n d : Nat) : Nat :=
  let q := n / d
  let r := n % d
  if d < 2 * r || (2 * r == d && q % 2 == 1) then q + 1 else q

/-- The largest `e` with `2 ^ e ≤ num / den`, for positive `num` and `den`. -/
def leadingBit (num den : Nat) : Int :=
  let guess : Int := (num.log2 : Int) - (den.log2 : Int)
  let reached := if 0 ≤ guess then den * Nat.pow 2 guess.toNat ≤ num else den ≤ num * Nat.pow 2 (-guess).toNat
  if reached then guess else guess - 1

def infinityBits : Nat := 0x7FF0000000000000

/-- The double nearest to `num / den`. -/
def ofRatio (num den : Nat) : Binary64 :=
  if num = 0 ∨ den = 0 then ⟨0⟩
  else
    let scale : Int := max (leadingBit num den - 52) (-1074)
    let mantissa := if 0 ≤ scale then roundDiv num (den * Nat.pow 2 scale.toNat) else roundDiv (num * Nat.pow 2 (-scale).toNat) den
    ⟨(min ((scale + 1074).toNat * Nat.pow 2 52 + mantissa) infinityBits).toUInt64⟩

/-- The double nearest to `digits · 10 ^ scale`. Far outside the range of doubles the
    answer is zero or infinity, whatever the digits are. -/
def ofDecimal (digits : Nat) (scale : Int) : Binary64 :=
  let magnitude : Int := (Nat.toDigits 10 digits).length + scale
  if digits = 0 ∨ magnitude < -400 then ⟨0⟩
  else if 400 < magnitude then ⟨infinityBits.toUInt64⟩
  else if 0 ≤ scale then ofRatio (digits * Nat.pow 10 scale.toNat) 1
  else ofRatio digits (Nat.pow 10 (-scale).toNat)

def isNegative (b : Binary64) : Bool := b.bits.toNat / Nat.pow 2 63 == 1

/-- The number without its sign. -/
def abs (b : Binary64) : Binary64 := ⟨(b.bits.toNat % Nat.pow 2 63).toUInt64⟩

def neg (b : Binary64) : Binary64 :=
  if b.isNegative then b.abs else ⟨(b.bits.toNat + Nat.pow 2 63).toUInt64⟩

def isZero (b : Binary64) : Bool := b.abs.bits == 0

def isInfinite (b : Binary64) : Bool := b.abs.bits.toNat == infinityBits

/-- The magnitude of a finite number as a ratio. -/
def ratio (b : Binary64) : Nat × Nat :=
  let field := b.abs.bits.toNat / Nat.pow 2 52
  let fraction := b.abs.bits.toNat % Nat.pow 2 52
  let mantissa := if field = 0 then fraction else fraction + Nat.pow 2 52
  let scale : Int := (max field 1 : Nat) - 1075
  if 0 ≤ scale then (mantissa * Nat.pow 2 scale.toNat, 1) else (mantissa, Nat.pow 2 (-scale).toNat)

/-- The product of two finite magnitudes. -/
def mul (a b : Binary64) : Binary64 :=
  ofRatio (a.ratio.1 * b.ratio.1) (a.ratio.2 * b.ratio.2)

/-- The quotient of two finite magnitudes. -/
def div (a b : Binary64) : Binary64 :=
  ofRatio (a.ratio.1 * b.ratio.2) (a.ratio.2 * b.ratio.1)

end Binary64

end Magik
