/-
  Magik.Token.Lexer — dividing a source into tokens.

  The text is a sequence of gaps (blanks and plain comments) and tokens. A scanner is
  given the first character of a token and what follows it, and answers the kind and
  how many further characters belong to the token, so that the lexeme and the rest are
  always a division of the text. The first problem ends the scan.
-/

import Magik.Text.Basic
import Magik.Text.Kind
import Magik.Token.Basic

namespace Magik.Token

/-! ## Places and problems -/

structure Position where
  line : Nat
  column : Nat
  deriving DecidableEq, Repr

/-- The place after a character: a line feed starts a line, a carriage return takes no
    column. -/
def Position.advance (p : Position) (c : Char) : Position :=
  if c = '\n' then ⟨p.line + 1, 1⟩ else if c = '\r' then p else ⟨p.line, p.column + 1⟩

def Position.after (p : Position) (cs : List Char) : Position := cs.foldl Position.advance p

def Position.start : Position := ⟨1, 1⟩

/-- Why a text cannot be divided into tokens. -/
inductive Problem where
  | unexpectedCharacter (c : Char)
  | unterminatedString
  | unterminatedSymbol
  | missingSymbolName
  | missingCharacter
  | unknownCharacterName (name : String)
  | invalidRadix (radix : String)
  | integerOutOfRange (lexeme : String)
  | unknownKeyword (lexeme : String)
  | missingChevron
  deriving DecidableEq, Repr

def Problem.text : Problem → String
  | .unexpectedCharacter c => "Unexpected character '" ++ String.ofList [c] ++ "'"
  | .unterminatedString => "Unterminated string literal starting"
  | .unterminatedSymbol => "Unterminated symbol literal starting"
  | .missingSymbolName => "Expected symbol name after ':'"
  | .missingCharacter => "Expected character after '%'"
  | .unknownCharacterName name => "Unknown character name '%" ++ name ++ "'"
  | .invalidRadix radix => "Invalid radix '" ++ radix ++ "'"
  | .integerOutOfRange lexeme => "Failed to parse integer literal '" ++ lexeme ++ "'"
  | .unknownKeyword lexeme => "Unknown keyword '" ++ lexeme ++ "'"
  | .missingChevron => "Expected '<<' after '^'"

/-- A problem with the token that starts at a place. -/
structure ScanError where
  problem : Problem
  place : Position
  deriving DecidableEq, Repr

def ScanError.message (e : ScanError) : String :=
  s!"{e.problem.text} at line {e.place.line}, column {e.place.column}"

/-! ## Characters -/

/-- A character between tokens. -/
def isGap (c : Char) : Bool := c = ' ' || c = '\t' || c = '\r' || c = '\n'

def isLineEnd (c : Char) : Bool := c = '\n' || c = '\r'

/-- A character inside a name. -/
def isNameChar (c : Char) : Bool := Text.isLetterOrNumber c || c = '_' || c = '?' || c = '!'

/-- What an alphanumeric character counts for in a radix above it. -/
def digitValue (c : Char) : Nat :=
  if c.isDigit then c.toNat - '0'.toNat
  else if c.isLower then c.toNat - 'a'.toNat + 10
  else c.toNat - 'A'.toNat + 10

/-- The positional value of digits, if each counts for less than the radix. -/
def readDigits (radix : Nat) (cs : List Char) : Option Nat :=
  cs.foldl (fun v c => v.bind fun n => if digitValue c < radix then some (radix * n + digitValue c) else none) (some 0)

/-- Integers beyond this one cannot be written. -/
def largestInteger : Nat := Nat.pow 2 63 - 1

/-! ## Scanners -/

/-- The kind of a token and how many characters it has after its first. -/
abbrev Scanned := Except Problem (Kind × Nat)

def scanString (rest : List Char) : Scanned :=
  let body := rest.takeWhile fun c => c ≠ '"' && c ≠ '\n'
  match rest.drop body.length with
  | '"' :: _ => .ok (.string (String.ofList body), body.length + 1)
  | _ => .error .unterminatedString

/-- The value and length of a symbol's text, inside or outside of bars; none if bars
    stay open. -/
def symbolText : Bool → List Char → Option (List Char × Nat)
  | false, [] => some ([], 0)
  | true, [] => none
  | false, c :: cs =>
    if c = '|' then (symbolText true cs).map fun p => (p.1, p.2 + 1)
    else if isNameChar c then (symbolText false cs).map fun p => (c :: p.1, p.2 + 1)
    else some ([], 0)
  | true, c :: cs =>
    if c = '|' then (symbolText false cs).map fun p => (p.1, p.2 + 1)
    else if c = '\n' then none
    else (symbolText true cs).map fun p => (c :: p.1, p.2 + 1)

def scanSymbol (rest : List Char) : Scanned :=
  match symbolText false rest with
  | none => .error .unterminatedSymbol
  | some ([], _) => .error .missingSymbolName
  | some (value, n) => .ok (.symbol (String.ofList value), n)

def namedCharacter? (name : String) : Option Char :=
  if name = "space" then some ' '
  else if name = "tab" then some '\t'
  else if name = "newline" || name = "lf" then some '\n'
  else if name = "cr" then some '\r'
  else none

/-- A letter followed by a letter or number begins a name; any other character stands
    for itself. -/
def scanCharacter (rest : List Char) : Scanned :=
  match rest with
  | [] => .error .missingCharacter
  | first :: more =>
    if Text.isLetter first && more.head?.any Text.isLetterOrNumber then
      let name := first :: more.takeWhile fun c => Text.isLetterOrNumber c || c = '_'
      match namedCharacter? (String.ofList name) with
      | some c => .ok (.character c, name.length)
      | none => .error (.unknownCharacterName (String.ofList name))
    else .ok (.character first, 1)

/-- The digits of a radix form, after its `r`. -/
def radixDigits : List Char → List Char
  | 'r' :: rest => rest.takeWhile Char.isAlphanum
  | _ => []

/-- The digits after a point; a point that no digit follows is no part of the number. -/
def fractionDigits : List Char → List Char
  | '.' :: rest => rest.takeWhile Char.isDigit
  | _ => []

/-- The characters of an exponent: mark, sign and digits, if there is a digit. -/
def exponentText : List Char → List Char
  | mark :: rest =>
    if mark = 'e' || mark = 'E' || mark = '&' then
      match rest with
      | sign :: more =>
        if sign = '+' || sign = '-' then
          let digits := more.takeWhile Char.isDigit
          if digits.isEmpty then [] else mark :: sign :: digits
        else
          let digits := rest.takeWhile Char.isDigit
          if digits.isEmpty then [] else mark :: digits
      | [] => []
    else []
  | [] => []

def exponentValue (text : List Char) : Int :=
  match text with
  | _ :: '-' :: digits => -((readDigits 10 digits).getD 0 : Nat)
  | _ :: '+' :: digits => ((readDigits 10 digits).getD 0 : Nat)
  | _ :: digits => ((readDigits 10 digits).getD 0 : Nat)
  | [] => 0

def scanRadix (whole digits : List Char) : Scanned :=
  let lexeme := whole ++ 'r' :: digits
  match readDigits 10 whole with
  | some radix =>
    if 2 ≤ radix ∧ radix ≤ 36 then
      match readDigits radix digits with
      | some value =>
        if value ≤ largestInteger then .ok (.integer value, lexeme.length - 1)
        else .error (.integerOutOfRange (String.ofList lexeme))
      | none => .error (.integerOutOfRange (String.ofList lexeme))
    else .error (.invalidRadix (String.ofList whole))
  | none => .error (.invalidRadix (String.ofList whole))

def scanDecimal (whole rest : List Char) : Scanned :=
  let fraction := fractionDigits rest
  let fractionLength := if fraction.isEmpty then 0 else fraction.length + 1
  let exponent := exponentText (rest.drop fractionLength)
  if fraction.isEmpty && exponent.isEmpty then
    match readDigits 10 whole with
    | some value =>
      if value ≤ largestInteger then .ok (.integer value, whole.length - 1)
      else .error (.integerOutOfRange (String.ofList whole))
    | none => .error (.integerOutOfRange (String.ofList whole))
  else
    let digits := (readDigits 10 (whole ++ fraction)).getD 0
    .ok (.float (Binary64.ofDecimal digits (exponentValue exponent - fraction.length)),
      whole.length - 1 + fractionLength + exponent.length)

def scanNumber (first : Char) (rest : List Char) : Scanned :=
  let whole := first :: rest.takeWhile Char.isDigit
  let after := rest.dropWhile Char.isDigit
  match radixDigits after with
  | [] => scanDecimal whole after
  | digits => scanRadix whole digits

def scanKeyword (rest : List Char) : Scanned :=
  let body := rest.takeWhile fun c => c.isAlphanum || c = '_'
  let lexeme := String.ofList ('_' :: body)
  match Keyword.ofSpelling? lexeme with
  | some word => .ok (.keyword word, body.length)
  | none => .error (.unknownKeyword lexeme)

/-- What follows a name's package: a colon before a letter, and the name proper. -/
def qualifiedText : List Char → List Char
  | ':' :: c :: rest => if Text.isLetter c then ':' :: (c :: rest).takeWhile isNameChar else []
  | _ => []

def scanIdentifier (rest : List Char) : Scanned :=
  let body := rest.takeWhile isNameChar
  .ok (.identifier, body.length + (qualifiedText (rest.drop body.length)).length)

/-- An operator that becomes an assignment when a chevron follows. -/
def scanAugmented (plain augmented : Kind) (rest : List Char) : Scanned :=
  match rest with
  | '<' :: '<' :: _ => .ok (augmented, 2)
  | _ => .ok (plain, 0)

def scanToken (first : Char) (rest : List Char) : Scanned :=
  match first with
  | '"' => scanString rest
  | ':' => scanSymbol rest
  | '%' => scanCharacter rest
  | '_' => scanKeyword rest
  | '(' => .ok (.leftParen, 0)
  | ')' => .ok (.rightParen, 0)
  | '\x7b' => .ok (.leftBrace, 0)
  | '\x7d' => .ok (.rightBrace, 0)
  | '[' => .ok (.leftBracket, 0)
  | ']' => .ok (.rightBracket, 0)
  | ',' => .ok (.comma, 0)
  | '.' => .ok (.dot, 0)
  | ';' => .ok (.semicolon, 0)
  | '$' => .ok (.dollar, 0)
  | '@' => .ok (.atSign, 0)
  | '=' => .ok (.equal, 0)
  | '<' =>
    match rest with
    | '<' :: _ => .ok (.chevron, 1)
    | '=' :: _ => .ok (.lessEqual, 1)
    | '>' :: _ => .ok (.notEqual, 1)
    | _ => .ok (.less, 0)
  | '>' =>
    match rest with
    | '>' :: _ => .ok (.emit, 1)
    | '=' :: _ => .ok (.greaterEqual, 1)
    | _ => .ok (.greater, 0)
  | '~' =>
    match rest with
    | '=' :: _ => .ok (.notEqual, 1)
    | _ => .ok (.tilde, 0)
  | '^' =>
    match rest with
    | '<' :: '<' :: _ => .ok (.bootChevron, 2)
    | _ => .error .missingChevron
  | '+' => scanAugmented .plus .plusChevron rest
  | '-' => scanAugmented .minus .minusChevron rest
  | '/' => scanAugmented .slash .slashChevron rest
  | '*' =>
    match rest with
    | '*' :: _ => .ok (.starStar, 1)
    | _ => scanAugmented .star .starChevron rest
  | _ =>
    if first.isDigit then scanNumber first rest
    else if Text.isLetter first || first = '!' then scanIdentifier rest
    else .error (.unexpectedCharacter first)

/-! ## The whole text -/

/-- A comment's text without its leading marks and outer white space. -/
def commentText (lexeme : List Char) : String :=
  String.ofList (Text.trim (lexeme.dropWhile (· = '#')))

/-- The tokens of a text that starts at a place. -/
def scanFrom (place : Position) : List Char → Except ScanError (List Token)
  | [] => .ok [⟨.endOfFile, "", place.line, place.column⟩]
  | c :: rest =>
    if isGap c then scanFrom (place.advance c) rest
    else if c = '#' then
      let comment := '#' :: rest.takeWhile fun d => !isLineEnd d
      let next := scanFrom (place.after comment) (rest.dropWhile fun d => !isLineEnd d)
      if rest.head? = some '#' then
        next.map (⟨.docComment (commentText comment), String.ofList comment, place.line, place.column⟩ :: ·)
      else next
    else
      match scanToken c rest with
      | .error problem => .error ⟨problem, place⟩
      | .ok (kind, n) =>
        let lexeme := c :: rest.take n
        (scanFrom (place.after lexeme) (rest.drop n)).map
          (⟨kind, String.ofList lexeme, place.line, place.column⟩ :: ·)
termination_by cs => cs.length
decreasing_by
  · simp
  · have := (List.dropWhile_suffix (l := rest) fun d => !isLineEnd d).length_le
    simp only [List.length_cons]
    omega
  · simp only [List.length_drop, List.length_cons]
    omega

/-- The tokens of a source. -/
def scan (source : String) : Except ScanError (List Token) := scanFrom .start source.toList

end Magik.Token
