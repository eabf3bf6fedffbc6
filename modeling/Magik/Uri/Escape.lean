/-
  Magik.Uri.Escape — bytes written as a percent sign and two hexadecimal digits.

  Characters outside ASCII are always written so. Of ASCII every part of a locator keeps
  others as they are.
-/

import Magik.Text.Basic

namespace Magik.Uri

def hexDigit (n : Nat) : Char := if n < 10 then Char.ofNat (0x30 + n) else Char.ofNat (0x41 + n - 10)

def escapeByte (b : UInt8) : List Char := ['%', hexDigit (b.toNat / 16), hexDigit (b.toNat % 16)]

/-- A text with the characters of a set escaped, and those outside ASCII. -/
def escape (inSet : Char → Bool) (cs : List Char) : List Char :=
  cs.flatMap fun c => if 0x80 ≤ c.toNat || inSet c then (String.utf8EncodeChar c).flatMap escapeByte else [c]

/-- The bytes of a text with escapes undone. A percent sign without two digits stays. -/
def unescape : List Char → List UInt8
  | '%' :: a :: b :: rest =>
    match Text.hexDigit? a, Text.hexDigit? b with
    | some high, some low => UInt8.ofNat (high * 16 + low) :: unescape rest
    | _, _ => UInt8.ofNat '%'.toNat :: unescape (a :: b :: rest)
  | c :: rest => String.utf8EncodeChar c ++ unescape rest
  | [] => []

/-! ## Sets -/

def isControl (c : Char) : Bool := c.toNat < 0x20 || c.toNat = 0x7F

def inFragmentSet (c : Char) : Bool := isControl c || [' ', '"', '<', '>', '`'].contains c

def inPathSet (c : Char) : Bool := inFragmentSet c || ['#', '?', '\x7b', '\x7d'].contains c

def inUserSet (c : Char) : Bool :=
  inPathSet c || ['/', ':', ';', '=', '@', '[', '\\', ']', '^', '|'].contains c

def inQuerySet (c : Char) : Bool := isControl c || [' ', '"', '#', '<', '>'].contains c

/-- In the query of a scheme that names hosts. -/
def inHostedQuerySet (c : Char) : Bool := inQuerySet c || c = '\''

end Magik.Uri
