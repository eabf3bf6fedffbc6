/-
  Magik.CommandLine.Files — what a command needs to know of files and directories.

  `Files m` is where they are looked up; `Disk` keeps them as a value.
-/

import Magik.CommandLine.Path
import Magik.Table

namespace Magik.CommandLine

inductive FileError where
  | missing
  | notDirectory
  | isDirectory
  | nameTooLong
  /-- A path with a character of code zero. -/
  | badName
  /-- Bytes that are no text. -/
  | notText
  | other (text : String)
  deriving DecidableEq, Repr

def FileError.message : FileError → String
  | .missing => "No such file or directory (os error 2)"
  | .notDirectory => "Not a directory (os error 20)"
  | .isDirectory => "Is a directory (os error 21)"
  | .nameTooLong => "File name too long (os error 36)"
  | .badName => "file name contained an unexpected NUL byte"
  | .notText => "stream did not contain valid UTF-8"
  | .other text => text

inductive FileKind where
  | file
  | directory
  /-- A device or the like. -/
  | special
  deriving DecidableEq, Repr

/-- A path has fewer bytes than this. -/
def pathLimit : Nat := 4096

/-- A name has at most so many bytes. -/
def nameLimit : Nat := 255

structure Files (m : Type → Type) where
  kind : String → m (Except FileError FileKind)
  /-- The names inside a directory, in any order. -/
  names : String → m (Except FileError (List String))
  read : String → m (Except FileError ByteArray)

/-! ## Files as a value -/

inductive Content where
  | file (bytes : ByteArray)
  | directory

def Content.kind : Content → FileKind
  | .file _ => .file
  | .directory => .directory

/-- Files and directories by the names that lead to them from the top, which is a
directory itself. -/
structure Disk where
  contents : Table (List String) Content

namespace Disk

def empty : Disk := ⟨.empty⟩

def at? (d : Disk) : List String → Option Content
  | [] => some .directory
  | names => d.contents.find? names

/-- Follows one piece of a path. The top is its own parent. -/
def step (d : Disk) (place : List String) (piece : List Char) : Except FileError (List String) :=
  if (d.at? place).map Content.kind ≠ some .directory then .error .notDirectory
  else if piece = [] || piece = ['.'] then .ok place
  else if piece = ['.', '.'] then .ok place.dropLast
  else
    let name := String.ofList piece
    if nameLimit < name.utf8ByteSize then .error .nameTooLong
    else if (d.at? (place ++ [name])).isSome then .ok (place ++ [name])
    else .error .missing

/-- The names that lead to what a path means. Only paths from the top are known. -/
def resolve (d : Disk) (path : String) : Except FileError (List String) :=
  if path.toList.contains '\x00' then .error .badName
  else if pathLimit ≤ path.utf8ByteSize then .error .nameTooLong
  else if path.toList.head?.all (· = '/') then .error .missing
  else (Path.pieces path).foldlM d.step []

def content (d : Disk) (path : String) : Except FileError Content := do
  let place ← d.resolve path
  match d.at? place with
  | some content => .ok content
  | none => .error .missing

/-- The names directly inside a place. -/
def namesIn (d : Disk) (place : List String) : List String :=
  d.contents.keys.filterMap fun names => if names.dropLast = place then names.getLast? else none

def read (d : Disk) (path : String) : Except FileError ByteArray := do
  match ← d.content path with
  | .file bytes => .ok bytes
  | .directory => .error .isDirectory

def files (d : Disk) : Files Id where
  kind path := (d.content path).map Content.kind
  names path := (d.resolve path).map d.namesIn
  read := d.read

/-! ## Filling a disk -/

/-- Where a path puts something, whatever is there. -/
def placeOf (path : String) : List String :=
  (Path.components path).foldl (fun place c =>
    match c with
    | .name text => place ++ [text]
    | .parent => place.dropLast
    | _ => place) []

/-- A place and the directories around it. -/
def addDirectory (d : Disk) (place : List String) : Disk :=
  ⟨(List.range place.length).foldl (fun t n => t.insert (place.take (n + 1)) .directory) d.contents⟩

def withDirectory (d : Disk) (path : String) : Disk := d.addDirectory (placeOf path)

def withFile (d : Disk) (path : String) (bytes : ByteArray) : Disk :=
  let place := placeOf path
  ⟨(d.addDirectory place.dropLast).contents.insert place (.file bytes)⟩

end Disk

end Magik.CommandLine
