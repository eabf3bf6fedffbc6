/-
  Magik.Uri.Basic — locators and their text.
-/

import Magik.Uri.Host

namespace Magik

namespace Uri

structure Authority where
  /-- Name and password, escaped; empty if there is neither. -/
  user : String
  host : Host
  endpoint : Option Nat
  deriving DecidableEq, Repr

def Authority.text (a : Authority) : String :=
  (if a.user = "" then "" else a.user ++ "@") ++ a.host.text ++ (a.endpoint.elim "" fun n => ":" ++ toString n)

inductive Path where
  /-- A text without structure. -/
  | plain (text : String)
  | segments (parts : List String)
  deriving DecidableEq, Repr

def Path.text : Path → String
  | .plain text => text
  | .segments parts => String.join (parts.map ("/" ++ ·))

end Uri

structure Uri where
  scheme : String
  authority : Option Uri.Authority
  path : Uri.Path
  query : Option String
  fragment : Option String
  deriving DecidableEq, Repr

namespace Uri

/-- What keeps a path that starts with an empty segment from looking like an authority. -/
def guard (u : Uri) : String :=
  match u.authority, u.path with
  | none, .segments ("" :: _ :: _) => "/."
  | _, _ => ""

def text (u : Uri) : String :=
  u.scheme ++ ":" ++ (u.authority.elim "" fun a => "//" ++ a.text) ++ u.guard ++ u.path.text ++
    (u.query.elim "" fun q => "?" ++ q) ++ (u.fragment.elim "" fun f => "#" ++ f)

end Uri

end Magik
