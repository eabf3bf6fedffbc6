/-
  Magik.Uri.Host — who a locator asks.

  In schemes that name hosts a name is unescaped and written in ASCII, and one whose last
  part is a number is an address. In other schemes a name is only escaped.
-/

import Magik.Uri.Address
import Magik.Uri.Name

namespace Magik.Uri

/-- Why a text is no locator. -/
inductive Fault where
  | relative
  | emptyHost
  | badName
  | badEndpoint
  | badIpv4
  | badIpv6
  | badHostCharacter
  deriving DecidableEq, Repr

def Fault.message : Fault → String
  | .relative => "relative URL without a base"
  | .emptyHost => "empty host"
  | .badName => "invalid international domain name"
  | .badEndpoint => "invalid port number"
  | .badIpv4 => "invalid IPv4 address"
  | .badIpv6 => "invalid IPv6 address"
  | .badHostCharacter => "invalid domain character"

inductive Host where
  | name (text : String)
  | ipv4 (address : Nat)
  | ipv6 (words : List Nat)
  deriving DecidableEq, Repr

def Host.empty : Host := .name ""

def Host.text : Host → String
  | .name text => text
  | .ipv4 address => writeIpv4 address
  | .ipv6 words => "[" ++ writeIpv6 words ++ "]"

def bracketed (cs : List Char) : Except Fault Host :=
  match cs.getLast?, ipv6? cs.tail.dropLast with
  | some ']', some words => .ok (.ipv6 words)
  | _, _ => .error .badIpv6

/-- The host of a scheme that names hosts. -/
def Host.read (cs : List Char) : Except Fault Host :=
  if cs.head? = some '[' then bracketed cs
  else
    match name? cs with
    | none => .error .badName
    | some [] => .error .emptyHost
    | some ascii =>
      if endsInNumber ascii then
        match ipv4? ascii with
        | some address => .ok (.ipv4 address)
        | none => .error .badIpv4
      else .ok (.name (String.ofList ascii))

/-- The host of another scheme. -/
def Host.readEscaped (cs : List Char) : Except Fault Host :=
  if cs.head? = some '[' then bracketed cs
  else if cs.any isBarred then .error .badHostCharacter
  else .ok (.name (String.ofList (escape isControl cs)))

end Magik.Uri
