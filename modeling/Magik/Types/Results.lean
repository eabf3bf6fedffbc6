/-
  Magik.Types.Results — the types of what an expression gives back.

  An expression gives back any number of values, one slot of types each. A slot past
  the last reads as unset. `unknown` stands for an expression that was never reasoned
  about; it absorbs whatever it is combined with.
-/

import Magik.Types.TypeSet

namespace Magik

inductive Results where
  | unknown
  | slots (types : List TypeSet)
  deriving DecidableEq, Repr, Inhabited

namespace Results

def nothing : Results := .slots []

def single (s : TypeSet) : Results := .slots [s]

def ofType (t : TypeName) : Results := single (.single t)

/-- Reads slots separated by commas. -/
def parse (text : String) (defaultPackage : Option String) : Results :=
  let cs := Text.trim text.toList
  if cs = [] then nothing
  else if cs = "_undefined...".toList then .unknown
  else .slots ((Text.pieces ',' cs).map (TypeSet.ofChars defaultPackage))

def isUnknown : Results → Bool
  | .unknown => true
  | .slots _ => false

def toList : Results → List TypeSet
  | .unknown => []
  | .slots types => types

/-- The slot at a position. -/
def get : Results → Nat → TypeSet
  | .unknown, _ => .undefined
  | .slots types, i => types[i]?.getD .unset

def first (r : Results) : TypeSet := r.get 0

/-- Slot by slot the union of both. -/
def combine : Results → Results → Results
  | .slots a, .slots b =>
    .slots ((List.range (max a.length b.length)).map fun i => (Results.slots a |>.get i).union (Results.slots b |>.get i))
  | _, _ => .unknown

def withReceiver : Results → TypeSet → Results
  | .unknown, _ => .unknown
  | .slots types, receiver => .slots (types.map (·.withReceiver receiver))

/-- Whether two results have the same slots, member order aside. -/
def same : Results → Results → Bool
  | .unknown, .unknown => true
  | .slots a, .slots b => a.length == b.length && (a.zip b).all fun p => p.1.same p.2
  | _, _ => false

def text : Results → String
  | .unknown => "_undefined..."
  | .slots types => ", ".intercalate (types.map TypeSet.text)

end Results

end Magik
