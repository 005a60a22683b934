import PipeShell.Wire.Reads

/-!
Requests on the wire. A request is a line and one NUL byte, at most 4096 bytes together; a full
window without a NUL is dropped and reported, and what follows starts a new frame.
-/
namespace PipeShell

inductive Frame
  | command (line : String)
  | oversized
  | closed
deriving DecidableEq, Repr

namespace Frame

/-- The longest request, and the most bytes that one read takes. -/
def windowSize : Nat := 4096

def requestEnd : UInt8 := 0x00

/-- The frame at the head of the bytes, and the bytes after it. -/
def ready? (bs : Bytes) : Option (Frame × Bytes) :=
  let line := (bs.take windowSize).takeWhile (· != requestEnd)
  if line.length < min bs.length windowSize then
    some (.command (Utf8.toStringLossy line), bs.drop (line.length + 1))
  else if windowSize ≤ bs.length then some (.oversized, bs.drop windowSize)
  else none

theorem ready?_length {bs : Bytes} {f : Frame} {rest : Bytes} (h : ready? bs = some (f, rest)) :
    rest.length < bs.length := by
  simp only [ready?] at h
  split at h
  · obtain ⟨rfl, rfl⟩ := by simpa using h
    simp only [List.length_drop]
    omega
  · split at h
    · obtain ⟨rfl, rfl⟩ := by simpa using h
      simp only [List.length_drop, windowSize] at *
      omega
    · simp at h

end Frame

/-- A stream of requests: the bytes read and not yet used, and the reads to come. -/
structure FrameReader where
  buffer : Bytes := []
  source : Reads

namespace FrameReader

def weight (r : FrameReader) : Nat := r.buffer.length + r.source.weight

/-- The next frame. A read of no bytes gives `closed`, yet what is buffered stays, so that a frame
begun before may still be completed. -/
def next (r : FrameReader) : Except ReadFailure Frame × FrameReader :=
  match Frame.ready? r.buffer with
  | some (frame, rest) => (.ok frame, { r with buffer := rest })
  | none =>
    match _hs : r.source with
    | [] => (.ok .closed, r)
    | event :: rs =>
      match _ht : Reads.take Frame.windowSize (event :: rs) with
      | (.interrupted, later) => next { r with source := later }
      | (.wouldBlock, later) => (.error .wouldBlock, { r with source := later })
      | (.data [], later) => (.ok .closed, { r with source := later })
      | (.data (b :: bs), later) => next { buffer := r.buffer ++ b :: bs, source := later }
termination_by r.source.weight
decreasing_by
  all_goals
    have hw := Reads.weight_take_lt Frame.windowSize (by decide) event rs
    simpa [_hs, _ht] using hw

/-- A frame takes something off the stream. -/
theorem next_weight_lt (r : FrameReader) {frame : Frame} (h : r.next.1 = .ok frame)
    (hf : frame ≠ .closed) : r.next.2.weight < r.weight := by
  fun_induction next r with
  | case1 r _ rest hr =>
    have := Frame.ready?_length hr
    simp only [weight]
    omega
  | case2 => simp_all
  | case3 r _ event rs hs later ht ih =>
    have := Reads.weight_take_lt Frame.windowSize (by decide) event rs
    have := ih h
    simp only [weight, hs, ht] at *
    omega
  | case4 => simp at h
  | case5 => simp_all
  | case6 r _ event rs hs b bs later ht ih =>
    have := Reads.weight_take_data ht
    have := ih h
    simp only [weight, hs, List.length_append] at *
    omega

end FrameReader
end PipeShell
