/-
  Magik.Syntax.Operator — operators, modifiers and literals of the language.
-/

import Magik.Number.Binary64

namespace Magik

inductive BinaryOperator where
  | identical | notIdentical
  | equal | notEqual | less | lessEqual | greater | greaterEqual
  | add | subtract | multiply | divide | div | mod | power
  | and | andIf | or | orIf | xor
  deriving DecidableEq, Repr

namespace BinaryOperator

def symbol : BinaryOperator → String
  | .identical => "_is"
  | .notIdentical => "_isnt"
  | .equal => "="
  | .notEqual => "~="
  | .less => "<"
  | .lessEqual => "<="
  | .greater => ">"
  | .greaterEqual => ">="
  | .add => "+"
  | .subtract => "-"
  | .multiply => "*"
  | .divide => "/"
  | .div => "_div"
  | .mod => "_mod"
  | .power => "**"
  | .and => "_and"
  | .andIf => "_andif"
  | .or => "_or"
  | .orIf => "_orif"
  | .xor => "_xor"

def all : List BinaryOperator :=
  [.identical, .notIdentical, .equal, .notEqual, .less, .lessEqual, .greater, .greaterEqual, .add, .subtract,
   .multiply, .divide, .div, .mod, .power, .and, .andIf, .or, .orIf, .xor]

/-- Reads a symbol; inequality has two. -/
def ofSymbol? (symbol : String) : Option BinaryOperator :=
  if symbol = "<>" then some .notEqual else all.find? fun o => o.symbol = symbol

/-- The connectives, `_xor` aside. -/
def isLogical : BinaryOperator → Bool
  | .and | .andIf | .or | .orIf => true
  | _ => false

def isConjunction : BinaryOperator → Bool
  | .and | .andIf => true
  | _ => false

theorem ofSymbol?_symbol (o : BinaryOperator) : ofSymbol? o.symbol = some o := by
  cases o <;> decide

end BinaryOperator

inductive UnaryOperator where
  | not
  | tilde
  | negate
  | plus
  deriving DecidableEq, Repr

/-- How a declaration makes its names known. -/
inductive Modifier where
  | localVariable
  | constant
  | global
  | dynamic
  | imported
  | recursive
  deriving DecidableEq, Repr

def Modifier.keyword : Modifier → String
  | .localVariable => "_local"
  | .constant => "_constant"
  | .global => "_global"
  | .dynamic => "_dynamic"
  | .imported => "_import"
  | .recursive => "_recursive"

inductive ParameterMode where
  | required
  | optional
  | gather
  /-- The value of an assignment method. -/
  | assigned
  deriving DecidableEq, Repr

inductive Literal where
  | integer (value : Nat)
  | float (value : Binary64)
  | string (value : String)
  | symbol (name : String)
  | character (value : Char)
  | unset
  | maybe
  | true
  | false
  | self
  | clone
  | super
  | thisThread
  | globalReference (name : String)
  deriving DecidableEq, Repr

end Magik
