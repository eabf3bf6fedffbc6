/-
  Magik.Definitions.BuiltIn — what every image knows: the system package.
-/

import Magik.Definitions.Basic

namespace Magik.Definitions

def builtInExemplars : List String :=
  ["integer", "bignum", "float", "char16_vector", "symbol", "character", "unset", "false", "maybe", "simple_vector",
   "procedure", "global_variable", "condition", "light_thread", "heavy_thread"]

/-- Methods of a container with elements of some types. -/
def containerMethods (type : TypeName) (element : TypeSet) : List Method :=
  [⟨type, "size", [], .ofType .integer, .nothing⟩,
   ⟨type, "[]", ["index"], .single element, .nothing⟩,
   ⟨type, "fast_elements", [], .nothing, .single element⟩]

def builtInMethods : List Method :=
  (["is_kind_of?", "is_class_of?", "=", "~="].map fun name =>
    ⟨.object, name, ["object"], .ofType .boolean, .nothing⟩) ++
  [⟨.object, "copy", [], .ofType .receiver, .nothing⟩,
   ⟨.object, "class_name", [], .ofType .symbol, .nothing⟩] ++
  ([TypeName.integer, .float, .bignum].flatMap fun number =>
    ["negated", "unary_plus", "abs"].map fun name => ⟨number, name, [], .ofType .receiver, .nothing⟩) ++
  [⟨.integer, "upto", ["limit"], .nothing, .ofType .integer⟩] ++
  containerMethods .text16 (.single .character) ++
  containerMethods .vector .undefined ++
  [⟨.condition, "raise", ["name", "keys_and_elements"], .nothing, .nothing⟩]

def builtInConditions : List (String × Option String) :=
  [("error", none), ("warning", none), ("information", none)] ++
  (["does_not_understand", "unknown_value", "bad_argument", "not_implemented", "user_error"].map fun name =>
    (name, some errorCondition))

def builtInGlobals : List String := ["tab_char", "newline_char", "space_char"]

/-- Operators on a pair of number types. -/
def numberOperators (left right result : TypeName) : List (String × TypeName × TypeName × TypeSet) :=
  (["+", "-", "*", "**"].map fun o => (o, left, right, .single result)) ++
  [("/", left, right, .ofList [.integer, .float])] ++
  (["=", "~=", "<", "<=", ">", ">="].map fun o => (o, left, right, .single .boolean))

def builtInOperators : List (String × TypeName × TypeName × TypeSet) :=
  numberOperators .integer .integer .integer ++
  numberOperators .integer .float .float ++
  numberOperators .float .integer .float ++
  numberOperators .float .float .float ++
  (["_div", "_mod"].map fun o => (o, .integer, .integer, .single .integer)) ++
  [("+", .text16, .text16, .single .text16)]

def builtIn : Definitions :=
  let d := empty.addExemplar .object []
  let d := builtInExemplars.foldl (fun d name => d.addExemplar (.system name) [.object]) d
  let d := builtInMethods.foldl addMethod d
  let d := builtInConditions.foldl (fun d c => d.addCondition c.1 c.2) d
  let d := builtInGlobals.foldl (fun d name => d.addGlobal (.system name) (.single .character)) d
  builtInOperators.foldl (fun d o => d.addOperator o.1 o.2.1 o.2.2.1 o.2.2.2) d

end Magik.Definitions
