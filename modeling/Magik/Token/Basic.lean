/-
  Magik.Token.Basic — the words a source is divided into.

  A token keeps its text as written and the place of its first character. Doc comments
  are tokens; the end of the file is one too, without text.
-/

import Magik.Number.Shortest
import Magik.Span
import Magik.Text.Kind
import Magik.Token.Keyword

namespace Magik

namespace Token

inductive Kind where
  | identifier
  | integer (value : Nat)
  | float (value : Binary64)
  | string (value : String)
  | symbol (value : String)
  | character (value : Char)
  | keyword (word : Keyword)
  | docComment (text : String)
  | leftParen | rightParen | leftBrace | rightBrace | leftBracket | rightBracket
  | comma | dot | semicolon | dollar | atSign
  | chevron | bootChevron | plusChevron | minusChevron | starChevron | slashChevron
  | emit
  | equal | notEqual | less | lessEqual | greater | greaterEqual
  | plus | minus | star | starStar | slash | tilde
  | endOfFile
  deriving DecidableEq, Repr

namespace Kind

/-- The name of the kind, its value aside. -/
def label : Kind → String
  | .identifier => "Identifier"
  | .integer _ => "IntegerLiteral"
  | .float _ => "FloatLiteral"
  | .string _ => "StringLiteral"
  | .symbol _ => "SymbolLiteral"
  | .character _ => "CharacterLiteral"
  | .keyword _ => "Keyword"
  | .docComment _ => "DocComment"
  | .leftParen => "LParen"
  | .rightParen => "RParen"
  | .leftBrace => "LBrace"
  | .rightBrace => "RBrace"
  | .leftBracket => "LBracket"
  | .rightBracket => "RBracket"
  | .comma => "Comma"
  | .dot => "Dot"
  | .semicolon => "Semicolon"
  | .dollar => "Dollar"
  | .atSign => "At"
  | .chevron => "Chevron"
  | .bootChevron => "BootChevron"
  | .plusChevron => "PlusChevron"
  | .minusChevron => "MinusChevron"
  | .starChevron => "StarChevron"
  | .slashChevron => "SlashChevron"
  | .emit => "Emit"
  | .equal => "Equal"
  | .notEqual => "NotEqual"
  | .less => "Less"
  | .lessEqual => "LessEqual"
  | .greater => "Greater"
  | .greaterEqual => "GreaterEqual"
  | .plus => "Plus"
  | .minus => "Minus"
  | .star => "Star"
  | .starStar => "StarStar"
  | .slash => "Slash"
  | .tilde => "Tilde"
  | .endOfFile => "Eof"

/-- The value a kind carries, as messages write it. -/
def value? : Kind → Option String
  | .integer n => some (toString n)
  | .float x => some (NumberLayout.scientific.write x)
  | .string s => some (Text.quoted s)
  | .symbol s => some (Text.quoted s)
  | .character c => some (Text.quotedSingle c)
  | .keyword k => some k.label
  | .docComment t => some (Text.quoted t)
  | _ => none

/-- The kind as messages name it: its label, with the value in parentheses. -/
def describe (k : Kind) : String :=
  match k.value? with
  | some v => k.label ++ "(" ++ v ++ ")"
  | none => k.label

end Kind

end Token

structure Token where
  kind : Token.Kind
  lexeme : String
  line : Nat
  column : Nat
  deriving DecidableEq, Repr

namespace Token

/-- From the first character to the last; a token without text takes one column. -/
def span (t : Token) : Span := ⟨t.line, t.column, t.line, t.column + (max t.lexeme.length 1 - 1)⟩

end Token

end Magik
