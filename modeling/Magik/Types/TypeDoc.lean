/-
  Magik.Types.TypeDoc — the types a method's doc lines declare.

  `@param` with types in braces and a name declares a parameter, the last line for a
  name winning; each `@return` and `@loop` line adds one slot. Other lines, and lines
  without braces, say nothing.
-/

import Magik.Table
import Magik.Types.Results

namespace Magik

structure TypeDoc where
  parameters : Table String TypeSet
  returns : List TypeSet
  loops : List TypeSet
  deriving Repr

namespace TypeDoc

def empty : TypeDoc := ⟨.empty, [], []⟩

/-- What stands between leading braces, and what follows them. -/
def braced (cs : List Char) : Option (List Char × List Char) :=
  match Text.trimStart cs with
  | '\x7b' :: rest => Text.splitFirst '\x7d' rest
  | _ => none

def addParameter (doc : TypeDoc) (package : String) (rest : List Char) : TypeDoc :=
  match braced rest with
  | some (types, after) =>
    match Text.firstWord after with
    | [] => doc
    | name =>
      { doc with parameters := doc.parameters.insert (String.ofList name) (TypeSet.ofChars (some package) types) }
  | none => doc

def addLine (package : String) (doc : TypeDoc) (line : String) : TypeDoc :=
  let cs := Text.trim line.toList
  match Text.stripStart "@param".toList cs with
  | some rest => doc.addParameter package rest
  | none =>
    match Text.stripStart "@return".toList cs with
    | some rest =>
      match braced rest with
      | some (types, _) => { doc with returns := doc.returns ++ [TypeSet.ofChars (some package) types] }
      | none => doc
    | none =>
      match Text.stripStart "@loop".toList cs with
      | some rest =>
        match braced rest with
        | some (types, _) => { doc with loops := doc.loops ++ [TypeSet.ofChars (some package) types] }
        | none => doc
      | none => doc

/-- Reads doc lines; types without a package are in the given one. -/
def ofLines (lines : List String) (package : String) : TypeDoc := lines.foldl (addLine package) empty

def parameter? (doc : TypeDoc) (name : String) : Option TypeSet := doc.parameters.find? name

def declaredResult? (doc : TypeDoc) : Option Results :=
  if doc.returns = [] then none else some (.slots doc.returns)

def declaredLoopResult? (doc : TypeDoc) : Option Results :=
  if doc.loops = [] then none else some (.slots doc.loops)

end TypeDoc

end Magik
