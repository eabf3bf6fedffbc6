/-
  Magik.CommandLine.Path — paths as they are written, and as they are compared.

  A path is compared by its components: doubled and trailing slashes do not count, nor
  does a `.` except at the very start. Two spellings with the same components are one
  path, and the spelling met first is kept.
-/

import Magik.Text.Basic

namespace Magik.CommandLine

/-- A part of a path, in the order in which parts are sorted. -/
inductive Component where
  | root
  | current
  | parent
  | name (text : String)
  deriving DecidableEq, Repr

namespace Component

def rank : Component → Nat
  | .root => 0
  | .current => 1
  | .parent => 2
  | .name _ => 3

/-- The order of parts; names go by their characters. -/
def order : Component → Component → Ordering
  | .name a, .name b => compareOfLessAndEq a b
  | a, b => compare a.rank b.rank

/-- The order of paths: by the first part that differs, and a path before what is inside it. -/
def orderAll : List Component → List Component → Ordering
  | [], [] => .eq
  | [], _ :: _ => .lt
  | _ :: _, [] => .gt
  | a :: as, b :: bs => (order a b).then (orderAll as bs)

/-- A piece between slashes behind the first one; empty pieces and `.` are no parts. -/
def ofPiece? (piece : List Char) : Option Component :=
  if piece = [] || piece = ['.'] then none
  else if piece = ['.', '.'] then some .parent
  else some (.name (String.ofList piece))

end Component

namespace Path

def pieces (path : String) : List (List Char) := Text.pieces '/' path.toList

/-- The part a path starts with, if it is the root or a leading `.`. -/
def start (path : String) : List Component :=
  match pieces path with
  | [] :: _ :: _ => [.root]
  | ['.'] :: _ => [.current]
  | _ => []

def components (path : String) : List Component := start path ++ (pieces path).filterMap Component.ofPiece?

def order (a b : String) : Ordering := Component.orderAll (components a) (components b)

/-- The path of what has a name inside a directory. -/
def child (directory name : String) : String :=
  if directory.toList.getLast? = some '/' then directory ++ name else directory ++ "/" ++ name

/-- What follows the last point of a name, unless that point is its first character. -/
def extension? (name : String) : Option String :=
  match Text.splitFirst '.' name.toList.reverse with
  | some (after, _ :: _) => some (String.ofList after.reverse)
  | _ => none

/-- Adds a path to paths in order, unless it is there in some spelling. -/
def insert (path : String) : List String → List String
  | [] => [path]
  | p :: ps =>
    match order path p with
    | .lt => path :: p :: ps
    | .eq => p :: ps
    | .gt => p :: insert path ps

def sort (paths : List String) : List String := paths.mergeSort fun a b => order a b != .gt

end Path

end Magik.CommandLine
