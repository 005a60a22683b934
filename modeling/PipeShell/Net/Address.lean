import PipeShell.Net.Ipv6
import PipeShell.Text.Blank

/-!
Addresses that a server listens on and a client connects to, and the short forms in which a user
may name them: a host and a port with either left out, an IPv6 host in brackets.
-/
namespace PipeShell

inductive IpAddress
  | v4 (address : Ipv4)
  | v6 (address : Ipv6)
deriving DecidableEq

namespace IpAddress

def read? (s : String) : Option IpAddress :=
  let parsed := match Ipv4.scan s.toList with
    | some (a, rest) => some (IpAddress.v4 a, rest)
    | none => (Ipv6.scan s.toList).map fun (a, rest) => (.v6 a, rest)
  match parsed with
  | some (a, []) => some a
  | _ => none

def text : IpAddress → String
  | .v4 a => a.text
  | .v6 a => a.text

def isV6 : IpAddress → Bool
  | .v4 _ => false
  | .v6 _ => true

end IpAddress

structure SocketAddress where
  ip : IpAddress
  port : UInt16
deriving DecidableEq

def SocketAddress.text (a : SocketAddress) : String :=
  let port := Text.numeralText 10 a.port.toNat
  match a.ip with
  | .v4 ip => ip.text ++ ":" ++ port
  | .v6 ip => "[" ++ ip.text ++ "]:" ++ port

/-- A text that names no address. -/
structure InvalidAddress where
  written : String
deriving DecidableEq, Repr

def InvalidAddress.message (e : InvalidAddress) : String :=
  "Invalid address '" ++ e.written ++ "': expected ADDR:PORT"

structure HostPort where
  host : String
  port : UInt16
deriving DecidableEq, Repr

namespace HostPort

def defaultPort : UInt16 := 1234

/-- A port in decimal, with a plus sign allowed in front. -/
def readPort? (cs : List Char) : Option UInt16 := do
  let digits := match cs with
    | '+' :: ds => ds
    | ds => ds
  let n ← Text.numeral? 10 digits
  if n < 65536 then some n.toUInt16 else none

/-- The host and the port as written. The colon after a bracket may be left out; without brackets
there is at most one colon. -/
def split? (spec : List Char) : Option (List Char × List Char) :=
  match spec with
  | '[' :: inner =>
    match inner.dropWhile (· != ']') with
    | [] => none
    | _ :: ':' :: port => some (inner.takeWhile (· != ']'), port)
    | _ :: port => some (inner.takeWhile (· != ']'), port)
  | spec =>
    if 1 < spec.count ':' then none
    else some (spec.takeWhile (· != ':'), (spec.dropWhile (· != ':')).drop 1)

def read (spec defaultHost : String) : Except InvalidAddress HostPort :=
  let parsed := do
    let (host, port) ← split? (Text.trimChars spec.toList)
    let host := if host == [] then defaultHost else String.ofList host
    let port ← if port == [] then some defaultPort else readPort? port
    let _ ← IpAddress.read? host
    return ⟨host, port⟩
  match parsed with
  | some a => .ok a
  | none => .error ⟨spec⟩

def socketAddress (a : HostPort) : Except InvalidAddress SocketAddress :=
  match IpAddress.read? a.host with
  | some ip => .ok ⟨ip, a.port⟩
  | none => .error ⟨a.host ++ ":" ++ Text.numeralText 10 a.port.toNat⟩

end HostPort
end PipeShell
