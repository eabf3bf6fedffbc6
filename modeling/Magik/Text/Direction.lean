/-
  Magik.Text.Direction — which way characters run (property Bidi_Class), and how letters of
  cursive scripts join their neighbours (property Joining_Type).

  The tables cover the characters that stand in names of hosts. They leave out marks without
  a width: these follow the character before them, and letters join across them.
-/

import Magik.Text.Kind

namespace Magik.Text

inductive Direction where
  | leftToRight
  | rightToLeft
  | arabicLetter
  | arabicNumber
  | europeanNumber
  | europeanSeparator
  | europeanTerminator
  | commonSeparator
  | neutral
  | boundary
  | mark
  deriving DecidableEq, Repr

/-- The direction that a letter of the table stands for. -/
def Direction.ofLetter : Char → Direction
  | 'r' => .rightToLeft
  | 'y' => .arabicLetter
  | 'n' => .arabicNumber
  | 'N' => .europeanNumber
  | 's' => .europeanSeparator
  | 't' => .europeanTerminator
  | 'S' => .commonSeparator
  | 'o' => .neutral
  | 'k' => .boundary
  | 'm' => .mark
  | _ => .leftToRight

def directionRuns : List (Nat × String) := [
  (0xA1, "ot4o9t3o26l1Fol1B8oBl7oEl2o1Clo82l4ol80ol193o5tr65o13yt2ySyoDy30n1Ftn2y71oyAoy6NAyB8r44o4r65y6Bl128t2l7t"),
  (0x9FC, "lF5tl101o6tol7Do7l1C0tlF9o5l452oAl66ol29Ao2l13Etl14o1Bl135o6l95o25l14Do3l2Fol48Ck2o22t3o11So1At63o6Cto1F"),
  (0x214E, "l3Bo89sto122l45o1Alo316lo153l100o330lB5o6lEo7l100o205l3o19lFol6ol5o4l5Fol5AolC4o26l1BDAo40l5690o37l146o3"),
  (0xA610, "l63oEl7Fo22l66ol9Fo4lCt2l3AoCl2E9o3l5046y11o2B0yl28Dol3Eo4Dl3o11l140N1Bl504r11For219o7r1C0y24n16r34orF1"),
  (0x10E60, "n1Fr33y1Eo9r57y2Ar9Dl5Bo14l36Eo5l287oDlB1ml4C2ol3F3o8t4o11l4D7Bo3l272ol5C1Do2F1l2F8o5DlBAo57lFA8tl2FFo"),
  (0x1E600, "l200r471yCDo412l1Ao6l3DolB2o99Bl")]

def asciiDirection (c : Char) : Direction :=
  if c.isAlpha then .leftToRight
  else if isDigit c then .europeanNumber
  else if ['+', '-'].contains c then .europeanSeparator
  else if ['#', '$', '%'].contains c then .europeanTerminator
  else if [',', '.', '/', ':'].contains c then .commonSeparator
  else .neutral

/-- Marks without a width that run from left to right all the same. -/
def isForwardMark (c : Char) : Bool := [0xCBF, 0xCC6, 0x11A07, 0x11A08, 0x11C3F].contains c.toNat

def direction (c : Char) : Direction :=
  if c.toNat < 0x80 then asciiDirection c
  else if isNonspacing c && !isForwardMark c then .mark
  else .ofLetter (letterIn directionRuns 'l' c)

/-! ## Cursive scripts -/

inductive Joining where
  | none
  | left
  | right
  | both
  /-- Letters join across it. -/
  | transparent
  deriving DecidableEq, Repr

/-- The kind that a letter of the table stands for. -/
def Joining.ofLetter : Char → Joining
  | 'l' => .left
  | 'r' => .right
  | 'z' => .both
  | 't' => .transparent
  | _ => .none

def joiningRuns : List (Nat × String) := [
  (0x620, "zor4zrzrz5r4zDoz7rz2o23z3r3o5zFr12z26rz2r9zrzrz2r2oro14r6oAz3o2zo10rz4r5z4rz9rzrzrz2r1FzBr3zFr2z4rzr2z3"),
  (0x778, "r2z6o4Az21o55rz5r2zrzArzr3o7zoz4orzr1Ao3zo2z5rz1Br3orz2r2z6rzFoF3Ezo18z59oCz26o8F95z32lo624Dz5roror2o2l"),
  (0x10ACE, "r5z4lz5rz3ro2rzAro90zrzr3z3rz2rzr2zro17r4z2o151lz21rzo19Erz2ozAo60z3rz11oCz3ro1Bz4r2zCo2Ezoz2r3ozr2z2rz2"),
  (0x10FC0, "ozr2zo4rzloD904z7Bto")]

def joining (c : Char) : Joining :=
  if isNonspacing c then .transparent else .ofLetter (letterIn joiningRuns 'o' c)

end Magik.Text
