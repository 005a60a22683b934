import PipeShell.Text.Numeral

/-!
IPv4 addresses as four decimal octets without leading zeros.
-/
namespace PipeShell

structure Ipv4 where
  octets : Vector UInt8 4
deriving DecidableEq

namespace Ipv4

/-- One octet at the head of a text, and the text after its digits. -/
def scanOctet (cs : List Char) : Option (UInt8 × List Char) :=
  let digits := cs.takeWhile (Text.isDigit 10)
  let n := Text.value 10 digits
  if digits == [] || 3 < digits.length || (1 < digits.length && digits.head? == some '0') || 255 < n
  then none
  else some (n.toUInt8, cs.dropWhile (Text.isDigit 10))

def scanDot : List Char → Option (List Char)
  | '.' :: cs => some cs
  | _ => none

/-- An address at the head of a text. -/
def scan (cs : List Char) : Option (Ipv4 × List Char) := do
  let (a, cs) ← scanOctet cs
  let (b, cs) ← scanOctet (← scanDot cs)
  let (c, cs) ← scanOctet (← scanDot cs)
  let (d, cs) ← scanOctet (← scanDot cs)
  return (⟨#v[a, b, c, d]⟩, cs)

def text (a : Ipv4) : String :=
  String.intercalate "." (a.octets.toList.map fun o => Text.numeralText 10 o.toNat)

def isUnspecified (a : Ipv4) : Bool := a.octets.all (· == 0)

def isLoopback (a : Ipv4) : Bool := a.octets.toList.head? == some 127

end Ipv4
end PipeShell
