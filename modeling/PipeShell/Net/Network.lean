import PipeShell.Files.SystemError
import PipeShell.Net.Address

/-!
What the network of a host lets sockets do. A host knows no other hosts here: its loopback
interface is up, and then its own addresses can be called, or nothing can be called at all.
-/
namespace PipeShell

inductive Network
  | loopback
  | isolated
deriving DecidableEq, Repr

/-- Whose an address is, as a host with nothing but loopback addresses sees it. -/
inductive AddressOwner
  /-- Stands for every address of the host. -/
  | anybody
  | host
  | stranger
  /-- Means nothing without the interface that it belongs to. -/
  | link
deriving DecidableEq, Repr

def Ipv4.owner (a : Ipv4) : AddressOwner :=
  if a.isUnspecified then .anybody else if a.isLoopback then .host else .stranger

def Ipv6.owner (a : Ipv6) : AddressOwner :=
  if a.groups.toList == [0, 0, 0, 0, 0, 0, 0, 0] then .anybody
  else if a.groups.toList == [0, 0, 0, 0, 0, 0, 0, 1] then .host
  else if a.groups[0].toNat / 0x40 == 0x3FA then .link
  else .stranger

/-- The IPv4 address that an address is or is mapped from. -/
def IpAddress.toV4? : IpAddress → Option Ipv4
  | .v4 a => some a
  | .v6 a => a.toIpv4Mapped?

def IpAddress.owner : IpAddress → AddressOwner
  | .v4 a => a.owner
  | .v6 a => (a.toIpv4Mapped?.map (·.owner)).getD a.owner

namespace Network

/-- Takes an address to listen on. Without an interface no IPv4 address can be told to be foreign,
and no IPv6 address is there. -/
def bind (n : Network) (ip : IpAddress) : Except SystemError Unit :=
  match n, ip.owner with
  | _, .anybody => .ok ()
  | _, .link => .error .invalidArgument
  | .loopback, .host => .ok ()
  | .loopback, .stranger => .error .addressUnavailable
  | .isolated, _ => if ip.toV4?.isSome then .ok () else .error .addressUnavailable

/-- Calls an address, where somebody listens or not. -/
def connect (n : Network) (ip : IpAddress) (listened : Bool) : Except SystemError Unit :=
  match n, ip.owner with
  | _, .link => .error .invalidArgument
  | .loopback, .stranger => .error .networkUnreachable
  | .loopback, _ => if listened then .ok () else .error .connectionRefused
  | .isolated, _ =>
    if ip.toV4?.isSome then .error .networkUnreachable else .error .addressUnavailable

end Network

/-- Why a server or a client cannot do its work. -/
inductive ServiceError
  | invalidAddress (cause : InvalidAddress)
  | communication (cause : SystemError)
deriving DecidableEq, Repr

def ServiceError.message : ServiceError → String
  | .invalidAddress cause => cause.message
  | .communication cause => "communication error: " ++ cause.message

end PipeShell
