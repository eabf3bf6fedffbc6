/-
  Magik.Grammar.Problem — what can be wrong with the order of tokens, and how it is said.
-/

import Magik.Syntax.Operator
import Magik.Token.Basic

namespace Magik.Grammar

/-- What the grammar asks for at a place. -/
inductive Wanted where
  | packageName | pragmaParen
  | methodKeyword | exemplarName | methodName | methodSeparator | parameterName
  | variableName (modifier : Modifier) | variableSeparator | variableChevron
  | globalName | labelName | loopVariable | attemptVariable
  | loopBodyParen | closingParen | procedureParen
  | thenKeyword | overKeyword | loopAfterIterator | loopAfterCondition
  | endOfMethod | endOfProcedure | endOfConditional | endOfLoop | endOfBlock
  | protection | endOfProtect | endOfAttempt | endOfLock | endOfCatch
  deriving DecidableEq, Repr

def Wanted.text : Wanted → String
  | .packageName => "package name after '_package'"
  | .pragmaParen => "'(' after '_pragma'"
  | .methodKeyword => "'_method'"
  | .exemplarName => "exemplar name after '_method'"
  | .methodName => "method name after '.'"
  | .methodSeparator => "'.' or '[' after exemplar name"
  | .parameterName => "parameter name"
  | .variableName modifier => "identifier after '" ++ modifier.keyword ++ "'"
  | .variableSeparator => "',' or ')' in variable list"
  | .variableChevron => "'<<' after parenthesised variable list"
  | .globalName => "global name after '@'"
  | .labelName => "label name after '@'"
  | .loopVariable => "loop variable after '_for'"
  | .attemptVariable => "condition variable after '_with'"
  | .loopBodyParen => "'(' after '_loopbody'"
  | .closingParen => "')' after expression"
  | .procedureParen => "'(' after '_proc'"
  | .thenKeyword => "'_then' after condition"
  | .overKeyword => "'_over' after loop variables"
  | .loopAfterIterator => "'_loop' after iterator"
  | .loopAfterCondition => "'_loop' after condition"
  | .endOfMethod => "'_endmethod' to close method"
  | .endOfProcedure => "'_endproc' to close procedure"
  | .endOfConditional => "'_endif' to close conditional"
  | .endOfLoop => "'_endloop' to close loop"
  | .endOfBlock => "'_endblock' to close block"
  | .protection => "'_protection' in protect block"
  | .endOfProtect => "'_endprotect' to close protect"
  | .endOfAttempt => "'_endtry' to close try"
  | .endOfLock => "'_endlock' to close lock"
  | .endOfCatch => "'_endcatch' to close catch"

/-- The lists whose items are separated by commas. -/
inductive Listing where
  | parameters
  | arguments
  deriving DecidableEq, Repr

def Listing.text : Listing → String
  | .parameters => "parameter list"
  | .arguments => "argument list"

inductive Problem where
  /-- Something is missing. -/
  | expected (wanted : Wanted)
  /-- Something is missing where a lexeme stands. -/
  | expectedAt (wanted : Wanted) (lexeme : String)
  /-- The end of a construct is missing where a token stands. -/
  | unclosed (wanted : Wanted) (found : Token)
  | separator (listing : Listing) (found : Token.Kind)
  | unexpected (found : Token)
  | invalidTarget

def Problem.message : Problem → String
  | .expected wanted => "expected " ++ wanted.text
  | .expectedAt wanted lexeme => "expected " ++ wanted.text ++ " (found '" ++ lexeme ++ "')"
  | .unclosed wanted found =>
    let what := if found.kind = .endOfFile then "end of file" else "'" ++ found.lexeme ++ "'"
    "expected " ++ wanted.text ++ " (found " ++ what ++ ")"
  | .separator listing found =>
    "expected ',' or closing bracket in " ++ listing.text ++ ", found " ++ found.describe
  | .unexpected found => "unexpected token " ++ found.kind.describe ++ " ('" ++ found.lexeme ++ "')"
  | .invalidTarget => "invalid assignment target"

end Magik.Grammar
