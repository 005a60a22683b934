import PipeShell.Net.Ipv4

/-!
IPv6 addresses as eight groups. A double colon stands for at least one group of zero when it is
read and for the first longest run of two or more when it is written; the last two groups may be
read as an IPv4 address, and are written so in addresses mapped from IPv4.
-/
namespace PipeShell

structure Ipv6 where
  groups : Vector UInt16 8
deriving DecidableEq

namespace Ipv6

def scanGroup (cs : List Char) : Option (UInt16 × List Char) :=
  let digits := cs.takeWhile (Text.isDigit 16)
  if digits == [] || 4 < digits.length then none
  else some ((Text.value 16 digits).toUInt16, cs.dropWhile (Text.isDigit 16))

def scanColon : List Char → Option (List Char)
  | ':' :: cs => some cs
  | _ => none

def groupsOfIpv4 (a : Ipv4) : List UInt16 :=
  [(a.octets[0].toNat * 256 + a.octets[1].toNat).toUInt16,
    (a.octets[2].toNat * 256 + a.octets[3].toNat).toUInt16]

/-- Groups read in a row, whether an IPv4 address ended them, and the text after them. -/
structure Run where
  groups : List UInt16
  endsInIpv4 : Bool
  rest : List Char

/-- At most `room` groups. Colons stand between groups, so the first one is read without, and an
IPv4 address needs room for two. -/
def scanRun (isFirst : Bool) : Nat → List Char → Run
  | 0, cs => ⟨[], false, cs⟩
  | room + 1, cs =>
    let start := if isFirst then some cs else scanColon cs
    match if room = 0 then none else start.bind Ipv4.scan with
    | some (a, rest) => ⟨groupsOfIpv4 a, true, rest⟩
    | none =>
      match start.bind scanGroup with
      | none => ⟨[], false, cs⟩
      | some (g, rest) =>
        let run := scanRun false room rest
        { run with groups := g :: run.groups }

def ofParts (head tail : List UInt16) : Ipv6 :=
  let groups := head ++ List.replicate (8 - head.length - tail.length) 0 ++ tail
  ⟨Vector.ofFn fun i => groups.getD i 0⟩

/-- An address at the head of a text. -/
def scan (cs : List Char) : Option (Ipv6 × List Char) :=
  let head := scanRun true 8 cs
  if head.groups.length = 8 then some (ofParts head.groups [], head.rest)
  else if head.endsInIpv4 then none
  else do
    let rest ← scanColon (← scanColon head.rest)
    let tail := scanRun true (7 - head.groups.length) rest
    return (ofParts head.groups tail.groups, tail.rest)

/-- Where the first longest run of zeros starts, and its length. -/
def longestZeros : Nat → List UInt16 → Nat × Nat
  | _, [] => (0, 0)
  | i, g :: gs =>
    let here := ((g :: gs).takeWhile (· == 0)).length
    let later := longestZeros (i + 1) gs
    if later.2 ≤ here then (i, here) else later

def groupsText (gs : List UInt16) : String :=
  String.intercalate ":" (gs.map fun g => Text.numeralText 16 g.toNat)

/-- The IPv4 address that an address is mapped from. -/
def toIpv4Mapped? (a : Ipv6) : Option Ipv4 :=
  if a.groups.toList.take 6 == [0, 0, 0, 0, 0, 0xFFFF] then
    let high := a.groups[6].toNat
    let low := a.groups[7].toNat
    some ⟨#v[(high / 256).toUInt8, (high % 256).toUInt8, (low / 256).toUInt8, (low % 256).toUInt8]⟩
  else none

def text (a : Ipv6) : String :=
  match a.toIpv4Mapped? with
  | some v4 => "::ffff:" ++ v4.text
  | none =>
    let gs := a.groups.toList
    let (start, length) := longestZeros 0 gs
    if 1 < length then groupsText (gs.take start) ++ "::" ++ groupsText (gs.drop (start + length))
    else groupsText gs

end Ipv6
end PipeShell
