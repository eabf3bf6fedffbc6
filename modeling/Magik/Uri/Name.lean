/-
  Magik.Uri.Name — names of hosts.

  A name is folded and cut into labels. A label with characters outside ASCII is written
  with the mark `xn--`; one that has the mark is judged by what it stands for. A label does
  not start with a mark of another character, joiners stand only where they change how
  letters join, and in a name that runs from right to left every label runs one way.
-/

import Magik.Text.Direction
import Magik.Uri.Escape
import Magik.Uri.Fold
import Magik.Uri.Punycode

namespace Magik.Uri

/-- Characters that stand in no host. -/
def isBarred (c : Char) : Bool :=
  ['\x00', '\t', '\n', '\r', ' ', '#', '/', ':', '<', '>', '?', '@', '[', '\\', ']', '^', '|'].contains c

/-- Characters of ASCII that stand in no name. -/
def isBarredInName (c : Char) : Bool := isBarred c || isControl c || c = '%'

/-! ## Joiners -/

def zeroWidthNonJoiner : Nat := 0x200C

def zeroWidthJoiner : Nat := 0x200D

/-- The class of the marks that end a syllable. -/
def viramaClass : Nat := 9

/-- Whether the first letter of a text joins in one of two ways, seen across others. -/
def joins (one other : Text.Joining) : List Char → Bool
  | [] => false
  | c :: rest =>
    let kind := Text.joining c
    kind = one || kind = other || (kind = .transparent && joins one other rest)

/-- Whether a joiner changes anything between the reversed text before it and the text after
    it. -/
def joinerCounts (c : Char) (before after : List Char) : Bool :=
  (before.head?.any fun d => Text.combiningClass d = viramaClass) ||
    (c.toNat = zeroWidthNonJoiner && joins .left .both before && joins .right .both after)

/-- Whether every joiner of a label changes something; `before` is reversed. -/
def joinersCount (before : List Char) : List Char → Bool
  | [] => true
  | c :: rest =>
    ((c.toNat ≠ zeroWidthNonJoiner && c.toNat ≠ zeroWidthJoiner) || joinerCounts c before rest) &&
      joinersCount (c :: before) rest

/-! ## Directions -/

def isRightToLeft (d : Text.Direction) : Bool := d = .rightToLeft || d = .arabicLetter

/-- Whether a name runs from right to left. -/
def isBidirectional (name : List Char) : Bool :=
  name.any fun c => isRightToLeft (Text.direction c) || Text.direction c = .arabicNumber

/-- Directions that stand anywhere in a label. -/
def isInner (d : Text.Direction) : Bool :=
  [.europeanNumber, .europeanSeparator, .europeanTerminator, .commonSeparator, .neutral, .boundary, .mark].contains d

/-- Whether directions after the first run from left to right; the last comes first. -/
def runsLeftToRight : List Text.Direction → Bool
  | [] => true
  | last :: inner => (last = .leftToRight || last = .europeanNumber) && inner.all fun d => d = .leftToRight || isInner d

/-- Whether directions after the first run from right to left; the last comes first. -/
def runsRightToLeft : List Text.Direction → Bool
  | [] => true
  | last :: inner =>
    (isRightToLeft last || last = .europeanNumber || last = .arabicNumber) &&
      (inner.all fun d => isRightToLeft d || d = .arabicNumber || isInner d) &&
      !((last :: inner).contains .europeanNumber && (last :: inner).contains .arabicNumber)

/-- Whether a label runs one way. -/
def runsOneWay (label : List Char) : Bool :=
  match label.map Text.direction with
  | [] => true
  | first :: rest =>
    let reversed := rest.reverse.dropWhile (· = .mark)
    if first = .leftToRight then runsLeftToRight reversed else isRightToLeft first && runsRightToLeft reversed

/-! ## Labels -/

/-- No label outside ASCII is longer. -/
def longestLabel : Nat := 1000

def longestMarked : Nat := 2000

def mark : List Char := ['x', 'n', '-', '-']

/-- Whether a character stays when it is folded. -/
def isFolded (c : Char) : Bool := foldChar c = some [c]

/-- Whether a label is one that needs the mark. -/
def needsMark (label : List Char) : Bool :=
  !label.all Punycode.isBasic && label.all isFolded && !label.contains '.' && Text.compose label = label &&
    label.take 4 ≠ mark

/-- The label that a text stands for. -/
def shown? (text : List Char) : Option (List Char) :=
  if text.take 4 ≠ mark then some text
  else
    let rest := text.drop 4
    if longestMarked < rest.length then none
    else (Punycode.decode rest).bind fun label =>
      if needsMark label ∧ Punycode.encode label = rest then some label else none

/-- Whether a label may stand in a name. -/
def isLabel (label : List Char) : Bool :=
  !label.head?.any Text.isMark && joinersCount [] label &&
    (label.all Punycode.isBasic || label.length ≤ longestLabel)

/-- A label in ASCII. -/
def written (label : List Char) : List Char :=
  if label.all Punycode.isBasic then label else mark ++ Punycode.encode label

/-- The name that an escaped text is, in ASCII. -/
def name? (cs : List Char) : Option (List Char) := do
  let text ← String.fromUTF8? ⟨(unescape cs).toArray⟩
  let labels ← (Text.pieces '.' (← fold text.toList)).mapM shown?
  let all := labels.flatten
  if labels.all isLabel ∧ (isBidirectional all → labels.all runsOneWay) ∧ !all.any isBarredInName then
    return ['.'].intercalate (labels.map written)
  else none

end Magik.Uri
