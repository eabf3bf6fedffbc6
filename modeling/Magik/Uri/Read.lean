/-
  Magik.Uri.Read — reading locators.

  Reading is lenient: blanks around a locator and line ends inside it are dropped, what
  must not stand in a part is escaped, and the segments `.` and `..` are resolved. A
  locator has one written form afterwards, so two that read alike are the same.
-/

import Magik.Uri.Basic

namespace Magik.Uri

/-! ## Schemes -/

inductive SchemeKind where
  | file
  /-- Names a host, and has an endpoint unless another is given. -/
  | hosted (endpoint : Nat)
  | other
  deriving DecidableEq, Repr

def SchemeKind.ofScheme : String → SchemeKind
  | "file" => .file
  | "http" | "ws" => .hosted 80
  | "https" | "wss" => .hosted 443
  | "ftp" => .hosted 21
  | _ => .other

/-- Whether a backslash counts as a slash. -/
def SchemeKind.isSpecial : SchemeKind → Bool
  | .other => false
  | _ => true

def SchemeKind.isSlash (kind : SchemeKind) (c : Char) : Bool := c = '/' || (kind.isSpecial && c = '\\')

def isSchemeChar (c : Char) : Bool := c.isAlphanum || c = '+' || c = '-' || c = '.'

/-- The scheme and what follows its colon. -/
def scheme? (cs : List Char) : Option (String × List Char) :=
  match cs.head?, cs.dropWhile isSchemeChar with
  | some first, ':' :: rest =>
    if first.isAlpha then some (String.ofList ((cs.takeWhile isSchemeChar).map Char.toLower), rest) else none
  | _, _ => none

/-! ## Paths -/

/-- A letter and a colon or bar: the name of a drive. -/
def isDrive : List Char → Bool
  | [letter, mark] => letter.isAlpha && (mark = ':' || mark = '|')
  | _ => false

def isDot (segment : List Char) : Bool := [".", "%2e"].contains (String.ofList (segment.map Char.toLower))

def isDotDot (segment : List Char) : Bool :=
  ["..", ".%2e", "%2e.", "%2e%2e"].contains (String.ofList (segment.map Char.toLower))

/-- The segments without the last, unless that is a drive. -/
def parent (parts : List (List Char)) : List (List Char) :=
  if parts.getLast?.any isDrive then parts else parts.dropLast

/-- Adds a segment to those before it; `last` if no slash follows it. A drive at the start of
    the path of a file has a colon. -/
def addSegment (kind : SchemeKind) (parts : List (List Char)) (segment : List Char) (last : Bool) : List (List Char) :=
  if isDotDot segment then parent parts ++ (if last then [[]] else [])
  else if isDot segment then parts ++ (if last then [[]] else [])
  else if kind = .file ∧ parts = [] ∧ isDrive segment then [segment.take 1 ++ [':']]
  else parts ++ [segment]

/-- Segments cut at slashes, with dots resolved. -/
def resolve (kind : SchemeKind) : List (List Char) → List (List Char) → List (List Char)
  | parts, [] => parts
  | parts, [segment] => addSegment kind parts segment true
  | parts, segment :: more => resolve kind (addSegment kind parts segment false) more

/-- The segments of a text whose leading slash has been passed. -/
def segments (kind : SchemeKind) (cs : List Char) : List (List Char) :=
  let slashed := cs.map fun c => if kind.isSlash c then '/' else c
  resolve kind [] ((Text.pieces '/' slashed).map (escape inPathSet))

def Path.ofSegments (parts : List (List Char)) : Path := .segments (parts.map String.ofList)

/-! ## Query and fragment -/

/-- The text up to a query or fragment, and both of these. -/
structure Tail where
  path : List Char
  query : Option String
  fragment : Option String

def tailOf (kind : SchemeKind) (cs : List Char) : Tail :=
  let main := cs.takeWhile (· ≠ '#')
  let fragment := (cs.dropWhile (· ≠ '#')).tail?.map fun f => String.ofList (escape inFragmentSet f)
  let inSet := if kind.isSpecial then inHostedQuerySet else inQuerySet
  let query := (main.dropWhile (· ≠ '?')).tail?.map fun q => String.ofList (escape inSet q)
  ⟨main.takeWhile (· ≠ '?'), query, fragment⟩

/-! ## Authorities -/

/-- What stands before the last `@` of an authority, if one is there, and what follows it. -/
def splitUser (cs : List Char) : Option (List Char) × List Char :=
  let host := (cs.reverse.takeWhile (· ≠ '@')).reverse
  if host.length = cs.length then (none, cs) else (some (cs.take (cs.length - host.length - 1)), host)

/-- Name and password; a colon without a password is dropped. -/
def userText (cs : List Char) : String :=
  let name := escape inUserSet (cs.takeWhile (· ≠ ':'))
  let password := escape inUserSet (cs.dropWhile (· ≠ ':')).tail
  String.ofList (name ++ (if password = [] then [] else ':' :: password))

/-- A host up to a colon that is not in brackets, and the rest from that colon on. -/
def splitEndpoint (inBrackets : Bool) : List Char → List Char × List Char
  | [] => ([], [])
  | c :: rest =>
    if c = ':' ∧ !inBrackets then ([], c :: rest)
    else
      let (host, endpoint) := splitEndpoint (if c = '[' then true else if c = ']' then false else inBrackets) rest
      (c :: host, endpoint)

/-- An endpoint after its colon, and what follows it; none if it is empty or goes without saying. -/
def readEndpoint (kind : SchemeKind) (cs : List Char) : Except Fault (Option Nat × List Char) :=
  let digits := cs.takeWhile Text.isDigit
  let rest := cs.dropWhile Text.isDigit
  let endpoint := digits.foldl (fun n c => n * 10 + Text.digitValue c) 0
  if Nat.pow 2 16 ≤ endpoint ∨ (rest ≠ [] ∧ rest.head? ≠ some '\\') then .error .badEndpoint
  else .ok (if digits = [] ∨ kind = .hosted endpoint then none else some endpoint, rest)

/-- Whether a host must not be left out: it is named by the scheme, has a user or an
    endpoint, or an `@` alone stands before what follows. -/
def needsHost (kind : SchemeKind) (user : Option (List Char)) (hasEndpoint followed : Bool) : Bool :=
  kind ≠ .other || hasEndpoint || (user.any fun cs => userText cs ≠ "" || (cs = [] && followed))

/-- The authority that a text without slashes is, and what follows its endpoint; `followed` if
    the locator goes on after it. -/
def readAuthority (kind : SchemeKind) (followed : Bool) (cs : List Char) : Except Fault (Authority × List Char) := do
  let (user, rest) := splitUser cs
  let (name, rest) := splitEndpoint false rest
  if name = [] ∧ needsHost kind user (rest ≠ []) followed then .error .emptyHost
  else
    let host ← if kind = .other then Host.readEscaped name else Host.read name
    let (endpoint, rest) ← if rest = [] then .ok (none, []) else readEndpoint kind rest.tail
    return (⟨user.elim "" userText, host, endpoint⟩, rest)

/-! ## Locators -/

/-- A locator after the two slashes of its authority. -/
def readHosted (scheme : String) (kind : SchemeKind) (cs : List Char) : Except Fault Uri := do
  let tail := tailOf kind cs
  let name := tail.path.takeWhile fun c => !kind.isSlash c
  let (authority, rest) ← readAuthority kind (name.length < cs.length) name
  let path := rest ++ tail.path.dropWhile fun c => !kind.isSlash c
  let parts :=
    if path = [] ∧ kind = .other then []
    else segments kind (if path.head?.any kind.isSlash then path.tail else path)
  return ⟨scheme, some authority, .ofSegments parts, tail.query, tail.fragment⟩

/-- A locator of a scheme that is not known, without an authority. -/
def readPlain (scheme : String) (cs : List Char) : Uri :=
  let tail := tailOf .other cs
  let path := match tail.path with
    | '/' :: rest => Path.ofSegments (segments .other rest)
    | text => .plain (String.ofList (escape isControl text))
  ⟨scheme, none, path, tail.query, tail.fragment⟩

/-- The segments from the first that is not empty on. -/
def trimSlashes (parts : List (List Char)) : List (List Char) :=
  match parts.dropWhile (· = []) with
  | [] => [[]]
  | parts => parts

/-- A file at a host and a path after its slash. This computer needs no name, a path that
    starts with a drive has no host, and every path starts with one slash only. -/
def fileAt (host : Host) (path : List Char) (tail : Tail) : Uri :=
  let parts := segments .file path
  let host := if host = .name "localhost" ∨ parts.head?.any isDrive then .empty else host
  ⟨"file", some ⟨"", host, none⟩, .ofSegments (trimSlashes parts), tail.query, tail.fragment⟩

/-- A file. After two slashes stands a host, unless that would be a drive. -/
def readFile (cs : List Char) : Except Fault Uri := do
  let tail := tailOf .file cs
  match tail.path.map fun c => if SchemeKind.file.isSlash c then '/' else c with
  | '/' :: '/' :: rest =>
    let name := rest.takeWhile (· ≠ '/')
    if isDrive name then return fileAt .empty rest tail
    else
      let host ← if name = [] then .ok .empty else Host.read name
      return fileAt host (rest.dropWhile (· ≠ '/')).tail tail
  | '/' :: rest | rest => return fileAt .empty rest tail

def isOuterBlank (c : Char) : Bool := c.toNat ≤ 0x20

def isLineBlank (c : Char) : Bool := c = '\t' || c = '\n' || c = '\r'

/-- A text without blanks around it and without tabs and line ends. -/
def clean (cs : List Char) : List Char :=
  let inner := ((cs.dropWhile isOuterBlank).reverse.dropWhile isOuterBlank).reverse
  inner.filter fun c => !isLineBlank c

/-- The locator that a text is. -/
def read (text : String) : Except Fault Uri :=
  match scheme? (clean text.toList) with
  | none => .error .relative
  | some (scheme, rest) =>
    match SchemeKind.ofScheme scheme with
    | .file => readFile rest
    | .hosted endpoint => readHosted scheme (.hosted endpoint) (rest.dropWhile (SchemeKind.hosted endpoint).isSlash)
    | .other =>
      match rest with
      | '/' :: '/' :: rest => readHosted scheme .other rest
      | _ => .ok (readPlain scheme rest)

end Magik.Uri
