/-
  Magik.Grammar.Operation — what an operator between two operands does and how tightly
  it binds.
-/

import Magik.Syntax.Operator
import Magik.Token.Basic

namespace Magik.Grammar

inductive Precedence where
  | lowest | assignment | or | and | not | equality | term | factor | exponent | unary
  deriving DecidableEq, Repr

def Precedence.level : Precedence → Nat
  | .lowest => 0
  | .assignment => 1
  | .or => 2
  | .and => 3
  | .not => 4
  | .equality => 5
  | .term => 6
  | .factor => 7
  | .exponent => 8
  | .unary => 9

inductive Operation where
  | assign
  | augment (operator : BinaryOperator)
  | combine (operator : BinaryOperator)
  deriving DecidableEq, Repr

/-- How tightly a binary operator binds. -/
def precedenceOf : BinaryOperator → Precedence
  | .or | .orIf | .xor => .or
  | .and | .andIf => .and
  | .identical | .notIdentical | .equal | .notEqual | .less | .lessEqual | .greater | .greaterEqual => .equality
  | .add | .subtract => .term
  | .multiply | .divide | .div | .mod => .factor
  | .power => .exponent

def Operation.precedence : Operation → Precedence
  | .assign | .augment _ => .assignment
  | .combine operator => precedenceOf operator

/-- How tightly the right operand of a binary operator has to hold together: more than
    the operator, except that powers group to the right. -/
def rightPrecedence : BinaryOperator → Precedence
  | .power => .factor
  | operator => precedenceOf operator

def operation? : Token.Kind → Option Operation
  | .chevron | .bootChevron => some .assign
  | .plusChevron => some (.augment .add)
  | .minusChevron => some (.augment .subtract)
  | .starChevron => some (.augment .multiply)
  | .slashChevron => some (.augment .divide)
  | .equal => some (.combine .equal)
  | .notEqual => some (.combine .notEqual)
  | .less => some (.combine .less)
  | .lessEqual => some (.combine .lessEqual)
  | .greater => some (.combine .greater)
  | .greaterEqual => some (.combine .greaterEqual)
  | .plus => some (.combine .add)
  | .minus => some (.combine .subtract)
  | .star => some (.combine .multiply)
  | .slash => some (.combine .divide)
  | .starStar => some (.combine .power)
  | .keyword .kwIs => some (.combine .identical)
  | .keyword .kwIsnt => some (.combine .notIdentical)
  | .keyword .kwDiv => some (.combine .div)
  | .keyword .kwMod => some (.combine .mod)
  | .keyword .kwAnd => some (.combine .and)
  | .keyword .kwAndIf => some (.combine .andIf)
  | .keyword .kwOr => some (.combine .or)
  | .keyword .kwOrIf => some (.combine .orIf)
  | .keyword .kwXor => some (.combine .xor)
  | _ => none

end Magik.Grammar
