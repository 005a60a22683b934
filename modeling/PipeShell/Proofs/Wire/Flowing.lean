import PipeShell.Proofs.Text.Lines
import PipeShell.Proofs.Text.Utf8
import PipeShell.Proofs.Wire.Unbroken
import PipeShell.Service.Client

/-! Both directions of a connection that brings its bytes in pieces. Each reader finds what stands
at the head of the bytes that it holds and will hold, wherever the pieces begin. -/
namespace PipeShell

namespace Reads

/-- Every read brings bytes or is made again. -/
def Flowing (rs : Reads) : Prop := ∀ r ∈ rs, r ≠ .wouldBlock ∧ r ≠ .data []

/-- Bytes that arrive together, after some reads that have to be made again. -/
def piece (retries : Nat) (bytes : Bytes) : Reads :=
  List.replicate retries .interrupted ++ [.data bytes]

theorem bytes_append (rs later : Reads) : bytes (rs ++ later) = rs.bytes ++ later.bytes :=
  List.flatMap_append

theorem bytes_piece (retries : Nat) (bs : Bytes) : (piece retries bs).bytes = bs := by
  induction retries with
  | zero => exact List.append_nil bs
  | succ retries ih => exact ih

variable {room : Nat} {r : Read} {rs later : Reads}

theorem Flowing.append (h : Flowing rs) (h' : Flowing later) : Flowing (rs ++ later) := by
  intro r hr
  rcases List.mem_append.1 hr with hr | hr
  · exact h r hr
  · exact h' r hr

theorem flowing_piece (retries : Nat) {bs : Bytes} (h : bs ≠ []) : Flowing (piece retries bs) := by
  intro r hr
  rcases List.mem_append.1 hr with hr | hr
  · obtain rfl := List.eq_of_mem_replicate hr
    exact ⟨by simp, by simp⟩
  · obtain rfl := List.mem_singleton.1 hr
    exact ⟨by simp, by simpa using h⟩

theorem Flowing.take (h : Flowing rs) (ht : Reads.take room rs = (r, later)) : Flowing later := by
  cases rs with
  | nil =>
    obtain ⟨-, rfl⟩ := by simpa [Reads.take] using ht
    exact h
  | cons event rs =>
    have hrest : Flowing rs := fun r hr => h r (List.mem_cons_of_mem _ hr)
    cases event with
    | interrupted =>
      obtain ⟨-, rfl⟩ := by simpa [Reads.take] using ht
      exact hrest
    | wouldBlock =>
      obtain ⟨-, rfl⟩ := by simpa [Reads.take] using ht
      exact hrest
    | data bs =>
      obtain ⟨-, rfl⟩ := by simpa [Reads.take] using ht
      split
      · case isTrue hroom =>
        intro r hr
        rcases List.mem_cons.1 hr with rfl | hr
        · refine ⟨by simp, ?_⟩
          intro hnil
          have := List.drop_eq_nil_iff.1 (Read.data.inj hnil)
          omega
        · exact hrest r hr
      · exact hrest

end Reads

namespace FrameReader

/-- The bytes that a reader holds and those on their way to it. -/
def held (r : FrameReader) : Bytes := r.buffer ++ r.source.bytes

/-- A reader finds the frame at the head of its bytes, or there is none and it keeps them all. -/
theorem next_of_flowing {r : FrameReader} (h : r.source.Flowing) :
    r.next.2.source.Flowing ∧
      ((∃ f, r.next.1 = .ok f ∧ f ≠ .closed ∧ Frame.ready? r.held = some (f, r.next.2.held)) ∨
        r.next.1 = .ok .closed ∧ Frame.ready? r.held = none) := by
  fun_induction next r with
  | case1 r f rest hr =>
    exact ⟨h, Or.inl ⟨f, rfl, Frame.ready?_ne_closed hr, Frame.ready?_append hr _⟩⟩
  | case2 r hr hs =>
    refine ⟨h, Or.inr ⟨rfl, ?_⟩⟩
    rwa [held, hs, Reads.bytes_nil, List.append_nil]
  | case3 r hr event rs hs later ht ih =>
    rw [hs] at h
    obtain ⟨rfl, rfl⟩ := Reads.take_interrupted ht
    have hheld : r.held = held { r with source := rs } := by
      simp only [held, hs, Reads.bytes_cons, Read.bytes, List.nil_append]
    rw [hheld]
    exact ih (h.take ht)
  | case4 r hr event rs hs later ht =>
    rw [hs] at h
    obtain ⟨rfl, rfl⟩ := Reads.take_wouldBlock ht
    exact absurd rfl (h _ List.mem_cons_self).1
  | case5 r hr event rs hs later ht =>
    rw [hs] at h
    obtain ⟨rfl, rfl⟩ := Reads.take_nothing (by decide) ht
    exact absurd rfl (h _ List.mem_cons_self).2
  | case6 r hr event rs hs b bs later ht ih =>
    rw [hs] at h
    have hheld : r.held = held { buffer := r.buffer ++ b :: bs, source := later } := by
      simp only [held, hs, Reads.bytes_take ht, Read.bytes, List.append_assoc]
    rw [hheld]
    exact ih (h.take ht)

end FrameReader

namespace Response

variable {bs body rest : Bytes} {r : Response}

theorem ready?_eq_none (h : responseEnd ∉ bs) : ready? bs = none := by
  simp [ready?, Text.takeWhile_of_not_mem h]

/-- A body without an end byte ends at the first end byte. -/
theorem ready?_body (h : responseEnd ∉ body) (rest : Bytes) :
    ready? (body ++ responseEnd :: rest) = some (⟨body, false⟩, rest) := by
  simp [ready?, Text.takeWhile_marked h]

/-- Bytes that come later change nothing in an answer that is ready. -/
theorem ready?_append (h : ready? bs = some (r, rest)) (more : Bytes) :
    ready? (bs ++ more) = some (r, rest ++ more) := by
  by_cases hmem : responseEnd ∈ bs
  · obtain ⟨body, later, rfl, hbody⟩ := List.eq_append_cons_of_mem hmem
    rw [ready?_body hbody] at h
    obtain ⟨rfl, rfl⟩ := Prod.mk.inj (Option.some.inj h)
    rw [List.append_assoc]
    exact ready?_body hbody (later ++ more)
  · rw [ready?_eq_none hmem] at h
    cases h

end Response

namespace ResponseReader

/-- The bytes that a reader holds and those on their way to it. -/
def held (r : ResponseReader) : Bytes := r.pending ++ r.source.bytes

/-- A reader finds the answer at the head of its bytes, or the end of the stream behind them. -/
theorem next_of_flowing {r : ResponseReader} (h : r.source.Flowing) :
    r.next.2.source.Flowing ∧
      ((∃ response, r.next.1 = .ok response ∧
          Response.ready? r.held = some (response, r.next.2.held)) ∨
        r.next.1 = .ok ⟨r.held, true⟩ ∧ Response.ready? r.held = none) := by
  fun_induction next r with
  | case1 r response rest hr => exact ⟨h, Or.inl ⟨response, rfl, Response.ready?_append hr _⟩⟩
  | case2 r hr hs =>
    have hheld : r.held = r.pending := by rw [held, hs, Reads.bytes_nil, List.append_nil]
    rw [hheld]
    exact ⟨h, Or.inr ⟨rfl, hr⟩⟩
  | case3 r hr event rs hs later ht ih =>
    rw [hs] at h
    obtain ⟨rfl, rfl⟩ := Reads.take_interrupted ht
    have hheld : r.held = held { r with source := rs } := by
      simp only [held, hs, Reads.bytes_cons, Read.bytes, List.nil_append]
    rw [hheld]
    exact ih (h.take ht)
  | case4 r hr event rs hs later ht =>
    rw [hs] at h
    obtain ⟨rfl, rfl⟩ := Reads.take_wouldBlock ht
    exact absurd rfl (h _ List.mem_cons_self).1
  | case5 r hr event rs hs later ht =>
    rw [hs] at h
    obtain ⟨rfl, rfl⟩ := Reads.take_nothing (by decide) ht
    exact absurd rfl (h _ List.mem_cons_self).2
  | case6 r hr event rs hs b bs later ht ih =>
    rw [hs] at h
    have hheld : r.held = held ⟨r.pending ++ b :: bs, later⟩ := by
      simp only [held, hs, Reads.bytes_take ht, Read.bytes, List.append_assoc]
    rw [hheld]
    exact ih (h.take ht)

end ResponseReader

namespace Client

/-- A line that can be sent as one request: it has no NUL, and leaves room for one in a window. -/
structure Fits (line : String) : Prop where
  noNul : '\x00' ∉ line.toList
  size : Utf8.size line ≤ 4095

instance (line : String) : Decidable (Fits line) :=
  decidable_of_iff ('\x00' ∉ line.toList ∧ Utf8.size line ≤ 4095)
    ⟨fun h => ⟨h.1, h.2⟩, fun h => ⟨h.noNul, h.size⟩⟩

variable {line : String}

theorem zero_not_mem_of_noNul (h : '\x00' ∉ line.toList) : 0 ∉ Utf8.ofString line := by
  intro hmem
  exact h ((Utf8.ascii_mem_ofString (d := '\x00') (by decide)).1 hmem)

theorem zero_not_mem (h : Fits line) : 0 ∉ Utf8.ofString line := zero_not_mem_of_noNul h.noNul

/-- A request is one frame, whatever comes behind it. -/
theorem ready?_request (h : Fits line) (more : Bytes) :
    Frame.ready? (request line ++ more) = some (.command line, more) := by
  have hsize : (Utf8.ofString line).length < 4096 := Nat.lt_succ_of_le h.size
  have hbytes : request line ++ more = Utf8.ofString line ++ 0 :: more :=
    List.append_assoc (Utf8.ofString line) [0] more
  rw [hbytes, Frame.ready?_line (zero_not_mem h), if_pos hsize, Utf8.ofString,
    Utf8.toStringLossy_encode, String.ofList_toList]

/-- Requests one behind the other are the frames of their lines. -/
theorem split_requests {lines : List String} (h : ∀ line ∈ lines, Fits line) :
    Frame.split (lines.flatMap request) = (lines.map .command, []) := by
  induction lines with
  | nil => exact Frame.split_of_not_ready rfl
  | cons line lines ih =>
    have hline := h line List.mem_cons_self
    have hlines := ih fun l hl => h l (List.mem_cons_of_mem _ hl)
    rw [List.flatMap_cons, Frame.split_of_ready (ready?_request hline _), hlines]
    rfl

end Client
end PipeShell
