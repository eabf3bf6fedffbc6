/-
  Magik.Types.TypeName — the name of a type, or one of two stand-ins for one.

  `undefined` is a type that is not known; `receiver` is the type of whatever a method
  is called on, put in its place once that is known. Every other type is known by its
  name and the package it lives in.
-/

import Magik.Text.Basic

namespace Magik

/-- The package of the built-in types. -/
def systemPackage : String := "sw"

inductive TypeName where
  | undefined
  | receiver
  | named (package : Option String) (name : String)
  deriving DecidableEq, Repr, Inhabited

namespace TypeName

/-- A type of the system package. -/
def system (name : String) : TypeName := .named (some systemPackage) name

/-- Reads `package:name`, `name`, or the spelling of a stand-in. A name without a
    package gets the default one, if there is one. -/
def ofChars (defaultPackage : Option String) (cs : List Char) : TypeName :=
  let text := Text.trim cs
  if text = [] ∨ text = "_undefined".toList then .undefined
  else if text = "_self".toList ∨ text = "_clone".toList then .receiver
  else
    match Text.splitFirst ':' text with
    | some (p :: package, n :: name) => .named (some (String.ofList (p :: package))) (String.ofList (n :: name))
    | _ => .named defaultPackage (String.ofList text)

def parse (text : String) (defaultPackage : Option String) : TypeName := ofChars defaultPackage text.toList

def name : TypeName → String
  | .undefined => "_undefined"
  | .receiver => "_self"
  | .named _ name => name

def package : TypeName → Option String
  | .named package _ => package
  | _ => none

def text : TypeName → String
  | .named (some package) name => package ++ ":" ++ name
  | t => t.name

/-- Unknown types first, then the receiver, then by package (none first) and name. -/
def atOrBefore : TypeName → TypeName → Bool
  | .undefined, _ => true
  | _, .undefined => false
  | .receiver, _ => true
  | _, .receiver => false
  | .named none n, .named none m => n ≤ m
  | .named none _, .named (some _) _ => true
  | .named (some _) _, .named none _ => false
  | .named (some p) n, .named (some q) m => p < q || (p == q && n ≤ m)

/-! ## The built-in types -/

def object : TypeName := system "object"
def unset : TypeName := system "unset"
def maybe : TypeName := system "maybe"
/-- The type of both truth values. -/
def boolean : TypeName := system "false"
def integer : TypeName := system "integer"
def bignum : TypeName := system "bignum"
def float : TypeName := system "float"
def text16 : TypeName := system "char16_vector"
def symbol : TypeName := system "symbol"
def character : TypeName := system "character"
def vector : TypeName := system "simple_vector"
def procedure : TypeName := system "procedure"
def globalVariable : TypeName := system "global_variable"
def condition : TypeName := system "condition"
def lightThread : TypeName := system "light_thread"
def heavyThread : TypeName := system "heavy_thread"

/-- A type with exactly one instance: not being identical to it rules the type out. -/
def isIdentity (t : TypeName) : Bool := t = unset || t = maybe

end TypeName

end Magik
