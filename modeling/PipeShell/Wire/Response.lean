import PipeShell.Wire.Reads

/-!
Answers on the wire: the bytes that a line wrote, and one end byte. What follows the last end byte
before the end of the stream is the closing answer.
-/
namespace PipeShell

structure Response where
  output : Bytes
  /-- The stream ended before an end byte came. -/
  closed : Bool
deriving DecidableEq, Repr

namespace Response

def responseEnd : UInt8 := 0x04

/-- The most bytes that one read takes. -/
def windowSize : Nat := 4096

/-- The answer at the head of the bytes, and the bytes after it. -/
def ready? (bs : Bytes) : Option (Response × Bytes) :=
  let output := bs.takeWhile (· != responseEnd)
  if output.length < bs.length then some (⟨output, false⟩, bs.drop (output.length + 1)) else none

end Response

/-- A stream of answers: the bytes read and not yet handed out, and the reads to come. -/
structure ResponseReader where
  pending : Bytes := []
  source : Reads

namespace ResponseReader

def next (r : ResponseReader) : Except ReadFailure Response × ResponseReader :=
  match Response.ready? r.pending with
  | some (response, rest) => (.ok response, { r with pending := rest })
  | none =>
    match _hs : r.source with
    | [] => (.ok ⟨r.pending, true⟩, { r with pending := [] })
    | event :: rs =>
      match _ht : Reads.take Response.windowSize (event :: rs) with
      | (.interrupted, later) => next { r with source := later }
      | (.wouldBlock, later) => (.error .wouldBlock, { r with source := later })
      | (.data [], later) => (.ok ⟨r.pending, true⟩, ⟨[], later⟩)
      | (.data (b :: bs), later) => next ⟨r.pending ++ b :: bs, later⟩
termination_by r.source.weight
decreasing_by
  all_goals
    have hw := Reads.weight_take_lt Response.windowSize (by decide) event rs
    simpa [_hs, _ht] using hw

end ResponseReader
end PipeShell
