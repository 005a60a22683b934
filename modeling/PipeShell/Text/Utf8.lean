/-!
UTF-8 text as bytes. `encode` writes characters, `decodeLossy` reads any bytes and puts one
replacement character for each maximal ill-formed piece, `decode?` reads well-formed bytes only.
-/
namespace PipeShell

abbrev Bytes := List UInt8

namespace Utf8

def encodeChar (c : Char) : Bytes :=
  let n := c.toNat
  if n < 0x80 then [n.toUInt8]
  else if n < 0x800 then [(0xC0 + n / 0x40).toUInt8, (0x80 + n % 0x40).toUInt8]
  else if n < 0x10000 then
    [(0xE0 + n / 0x1000).toUInt8, (0x80 + n / 0x40 % 0x40).toUInt8, (0x80 + n % 0x40).toUInt8]
  else
    [(0xF0 + n / 0x40000).toUInt8, (0x80 + n / 0x1000 % 0x40).toUInt8,
      (0x80 + n / 0x40 % 0x40).toUInt8, (0x80 + n % 0x40).toUInt8]

def encode (cs : List Char) : Bytes := cs.flatMap encodeChar

def ofString (s : String) : Bytes := encode s.toList

/-- The number of bytes that a text takes. -/
def size (s : String) : Nat := (ofString s).length

/-- A character begun: the bits read so far, the range of the next byte, and how many bytes
are still owed. -/
structure Pending where
  bits : Nat
  low : UInt8
  high : UInt8
  owed : Nat

/-- What a first byte above ASCII begins. Overlong forms, surrogates and values above the last
code point are shut out by the range of the second byte. -/
def Pending.ofLead (b : UInt8) : Option Pending :=
  let n := b.toNat
  if n < 0xC2 then none
  else if n < 0xE0 then some ⟨n % 0x20, 0x80, 0xBF, 1⟩
  else if n = 0xE0 then some ⟨n % 0x10, 0xA0, 0xBF, 2⟩
  else if n = 0xED then some ⟨n % 0x10, 0x80, 0x9F, 2⟩
  else if n < 0xF0 then some ⟨n % 0x10, 0x80, 0xBF, 2⟩
  else if n = 0xF0 then some ⟨n % 0x08, 0x90, 0xBF, 3⟩
  else if n < 0xF4 then some ⟨n % 0x08, 0x80, 0xBF, 3⟩
  else if n = 0xF4 then some ⟨n % 0x08, 0x80, 0x8F, 3⟩
  else none

/-- A piece of a byte string: a character, or a maximal ill-formed run (`none`). -/
abbrev Piece := Option Char

/-- A byte between characters. -/
def first (b : UInt8) : List Piece × Option Pending :=
  if b.toNat < 0x80 then ([some (Char.ofNat b.toNat)], none)
  else
    match Pending.ofLead b with
    | some p => ([], some p)
    | none => ([none], none)

/-- A byte that does not continue the character begun ends it as ill-formed and is read anew. -/
def step : Option Pending → UInt8 → List Piece × Option Pending
  | none, b => first b
  | some p, b =>
    if p.low ≤ b ∧ b ≤ p.high then
      let bits := p.bits * 0x40 + b.toNat % 0x40
      if p.owed ≤ 1 then ([some (Char.ofNat bits)], none)
      else ([], some ⟨bits, 0x80, 0xBF, p.owed - 1⟩)
    else (none :: (first b).1, (first b).2)

def pieces : Option Pending → Bytes → List Piece
  | none, [] => []
  | some _, [] => [none]
  | q, b :: bs => (step q b).1 ++ pieces (step q b).2 bs

def replacement : Char := '\uFFFD'

def decodeLossy (bs : Bytes) : List Char := (pieces none bs).map (·.getD replacement)

def decode? (bs : Bytes) : Option (List Char) := (pieces none bs).mapM id

def toStringLossy (bs : Bytes) : String := String.ofList (decodeLossy bs)

def toString? (bs : Bytes) : Option String := (decode? bs).map String.ofList

end Utf8
end PipeShell
