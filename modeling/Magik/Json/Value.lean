/-
  Magik.Json.Value — JSON documents, and values as messages name them.

  An object keeps its members in the order they stand in, repeated names included: which
  of them counts is for the reader of the document to say.
-/

import Magik.Number.Shortest
import Magik.Text.Kind

namespace Magik.Json

inductive Value where
  | null
  | bool (b : Bool)
  | integer (n : Int)
  | float (x : Binary64)
  | string (s : String)
  | array (items : List Value)
  | object (members : List (String × Value))
  deriving Repr, Inhabited

/-- Numbers from `0.00001` up to but excluding `1e16` positionally, exponents signed, and an
    exact tie goes to the even digit. -/
def numberLayout : NumberLayout := ⟨some (-5), some 15, .toEven, true⟩

def backquoted (s : String) : String := "`" ++ s ++ "`"

/-- What a value is, for a message about it. -/
def Value.describe : Value → String
  | .null => "null"
  | .bool b => "boolean " ++ backquoted (if b then "true" else "false")
  | .integer n => "integer " ++ backquoted (toString n)
  | .float x => "floating point " ++ backquoted (numberLayout.write x)
  | .string s => "string " ++ Text.quoted s
  | .array _ => "sequence"
  | .object _ => "map"

end Magik.Json
