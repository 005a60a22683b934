import PipeShell.Proofs.Wire.Unbroken

/-! What one call for a frame may cost. A call reads only while its buffer holds less than a window,
so the buffer and the reads of a call are bounded, and a call returns on every reader that is not
interrupted forever, whether or not its bytes ever come to an end. -/
namespace PipeShell

/-- A read that brings a byte. -/
def Read.delivers : Read → Bool
  | .data bs => !bs.isEmpty
  | _ => false

/-- What so many reads give one after the other, and the reads left. -/
def Reads.made : Nat → Reads → Reads × Reads
  | 0, rs => ([], rs)
  | n + 1, rs =>
    let (r, later) := take Frame.windowSize rs
    (r :: (made n later).1, (made n later).2)

theorem Reads.made_succ {rs later : Reads} {r : Read}
    (h : take Frame.windowSize rs = (r, later)) (n : Nat) :
    made (n + 1) rs = (r :: (made n later).1, (made n later).2) := by
  rw [made, h]

theorem Reads.length_made (n : Nat) (rs : Reads) : (made n rs).1.length = n := by
  induction n generalizing rs with
  | zero => rfl
  | succ n ih => rw [made, List.length_cons, ih]

theorem Reads.length_take_le {room : Nat} {rs later : Reads} {r : Read}
    (h : take room rs = (r, later)) : r.bytes.length ≤ room := by
  cases rs with
  | nil =>
    obtain ⟨rfl, -⟩ := by simpa [take] using h
    exact Nat.zero_le room
  | cons event rs =>
    cases event with
    | data bs =>
      obtain ⟨rfl, -⟩ := by simpa [take] using h
      exact List.length_take_le room bs
    | interrupted =>
      obtain ⟨rfl, -⟩ := by simpa [take] using h
      exact Nat.zero_le room
    | wouldBlock =>
      obtain ⟨rfl, -⟩ := by simpa [take] using h
      exact Nat.zero_le room

namespace Frame

variable {bs rest : Bytes} {line : String}

/-- Without a frame the buffer has room for more and holds no end of a request. -/
theorem bounds_of_not_ready (h : ready? bs = none) : bs.length < 4096 ∧ 0 ∉ bs := by
  rcases ready?_cases bs with ⟨-, hr⟩ | ⟨-, -, hr⟩ | ⟨hmem, hlen, -⟩
  · rw [hr] at h
    cases h
  · rw [hr] at h
    cases h
  · have hwhole : bs.take windowSize = bs := List.take_of_length_le (Nat.le_of_lt hlen)
    rw [hwhole] at hmem
    exact ⟨hlen, hmem⟩

/-- The bytes of a command stand before the first end of a request, within the window. -/
theorem raw_of_ready (h : ready? bs = some (.command line, rest)) :
    ∃ raw, bs = raw ++ 0 :: rest ∧ line = Utf8.toStringLossy raw ∧ raw.length ≤ 4095 ∧
      0 ∉ raw := by
  rcases ready?_cases bs with ⟨hmem, hr⟩ | ⟨-, -, hr⟩ | ⟨-, -, hr⟩
  · obtain ⟨rfl, rfl⟩ := by simpa using hr.symm.trans h
    obtain ⟨raw, later, rfl, hraw⟩ := List.eq_append_cons_of_mem (List.mem_of_mem_take hmem)
    have hidx : (raw ++ 0 :: later).idxOf 0 = raw.length := by
      rw [List.idxOf_append_of_notMem hraw, List.idxOf_cons_self, Nat.add_zero]
    have hlt := (idxOf_window hmem).2
    have hwindow : windowSize = 4096 := rfl
    rw [hidx] at hlt ⊢
    refine ⟨raw, ?_, ?_, by omega, hraw⟩
    · simp
    · rw [List.take_left]
  · rw [hr] at h
    cases h
  · rw [hr] at h
    cases h

end Frame

namespace FrameReader

variable {buffer left bs : Bytes} {reads rs : Reads} {a : Answer}

section Turns

variable (h : Frame.ready? buffer = none)

include h

/-- A call without a frame at hand reads once, and goes on if the read says nothing final. -/
theorem next_reading (event : Read) (rs : Reads) :
    next { buffer, source := event :: rs } =
      match Reads.take Frame.windowSize (event :: rs) with
      | (.interrupted, later) => next { buffer, source := later }
      | (.wouldBlock, later) => (.error .wouldBlock, { buffer, source := later })
      | (.data [], later) => (.ok .closed, { buffer, source := later })
      | (.data (b :: bs), later) => next { buffer := buffer ++ b :: bs, source := later } := by
  rw [next]
  simp only [h]
  split <;> simp only [*]

theorem next_data (hne : bs ≠ []) (hsize : bs.length ≤ Frame.windowSize) :
    next { buffer, source := .data bs :: rs } = next { buffer := buffer ++ bs, source := rs } := by
  obtain ⟨b, bs, rfl⟩ := List.exists_cons_of_ne_nil hne
  have htake : Reads.take Frame.windowSize (.data (b :: bs) :: rs) = (.data (b :: bs), rs) := by
    simp only [Reads.take]
    rw [List.take_of_length_le hsize, if_neg (Nat.not_lt.2 hsize)]
  rw [next_reading h, htake]

end Turns

/-- One call from a buffer: the reads that it makes one after the other, its answer and the buffer
that it leaves. Of the reader only what these reads give is seen. -/
inductive Course : Bytes → Reads → Answer → Bytes → Prop
  | ready {buffer rest : Bytes} {f : Frame} (h : Frame.ready? buffer = some (f, rest)) :
      Course buffer [] (.ok f) rest
  | closed {buffer : Bytes} (h : Frame.ready? buffer = none) :
      Course buffer [.data []] (.ok .closed) buffer
  | failed {buffer : Bytes} (h : Frame.ready? buffer = none) :
      Course buffer [.wouldBlock] (.error .wouldBlock) buffer
  | interrupted {buffer left : Bytes} {reads : Reads} {a : Answer}
      (h : Frame.ready? buffer = none) (hrest : Course buffer reads a left) :
      Course buffer (.interrupted :: reads) a left
  | filled {buffer bs left : Bytes} {reads : Reads} {a : Answer}
      (h : Frame.ready? buffer = none) (hne : bs ≠ []) (hsize : bs.length ≤ Frame.windowSize)
      (hrest : Course (buffer ++ bs) reads a left) :
      Course buffer (.data bs :: reads) a left

/-- Every call runs its course. -/
theorem next_course (r : FrameReader) :
    ∃ n, Course r.buffer (Reads.made n r.source).1 r.next.1 r.next.2.buffer ∧
      (Reads.made n r.source).2 = r.next.2.source := by
  fun_induction next r with
  | case1 r f rest hr => exact ⟨0, .ready hr, rfl⟩
  | case2 r hr hs =>
    refine ⟨1, ?_⟩
    rw [hs]
    exact ⟨.closed hr, rfl⟩
  | case3 r hr event rs hs later ht ih =>
    obtain ⟨n, hcourse, hleft⟩ := ih
    refine ⟨n + 1, ?_⟩
    rw [hs, Reads.made_succ ht]
    exact ⟨.interrupted hr hcourse, hleft⟩
  | case4 r hr event rs hs later ht =>
    refine ⟨1, ?_⟩
    rw [hs, Reads.made_succ ht]
    exact ⟨.failed hr, rfl⟩
  | case5 r hr event rs hs later ht =>
    refine ⟨1, ?_⟩
    rw [hs, Reads.made_succ ht]
    exact ⟨.closed hr, rfl⟩
  | case6 r hr event rs hs b bs later ht ih =>
    obtain ⟨n, hcourse, hleft⟩ := ih
    refine ⟨n + 1, ?_⟩
    rw [hs, Reads.made_succ ht]
    exact ⟨.filled hr (List.cons_ne_nil b bs) (Reads.length_take_le ht) hcourse, hleft⟩

namespace Course

/-- A course is what a call does when these reads come first, whatever would come later. -/
theorem next_eq (h : Course buffer reads a left) (later : Reads) :
    next { buffer, source := reads ++ later } = (a, { buffer := left, source := later }) := by
  induction h with
  | ready h => exact next_of_buffered h
  | closed h => exact next_reading h (.data []) later
  | failed h => exact next_reading h .wouldBlock later
  | interrupted h hrest ih => exact (next_reading h .interrupted _).trans ih
  | filled h hne hsize hrest ih => exact (next_data h hne hsize).trans ih

/-- Every read that brings a byte takes from the room that the buffer has left in the window. -/
theorem delivered_le (h : Course buffer reads a left) :
    reads.countP Read.delivers ≤ 4096 - buffer.length := by
  induction h with
  | ready h => exact Nat.zero_le _
  | closed h => exact Nat.zero_le _
  | failed h => exact Nat.zero_le _
  | interrupted h hrest ih => simpa [Read.delivers] using ih
  | @filled buffer bs left reads a h hne hsize hrest ih =>
    have hroom := (Frame.bounds_of_not_ready h).1
    have hpos := List.length_pos_of_ne_nil hne
    have hdelivers : Read.delivers (.data bs) = true := by simpa [Read.delivers] using hne
    rw [List.countP_cons_of_pos hdelivers]
    rw [List.length_append] at ih
    omega

/-- A read is made only below the window and brings at most a window. -/
theorem buffered_le (h : Course buffer reads a left) (hle : buffer.length ≤ 8191) (n : Nat) :
    (buffer ++ Reads.bytes (List.take n reads)).length ≤ 8191 := by
  induction h generalizing n with
  | ready h => simpa [Reads.bytes] using hle
  | closed h => cases n <;> simpa [Reads.bytes] using hle
  | failed h => cases n <;> simpa [Reads.bytes] using hle
  | interrupted h hrest ih =>
    cases n with
    | zero => simpa [Reads.bytes] using hle
    | succ n => exact ih hle n
  | @filled buffer bs left reads a h hne hsize hrest ih =>
    cases n with
    | zero => simpa [Reads.bytes] using hle
    | succ n =>
      have hroom := (Frame.bounds_of_not_ready h).1
      have hwindow : Frame.windowSize = 4096 := rfl
      have hfilled : (buffer ++ bs).length ≤ 8191 := by
        rw [List.length_append]
        omega
      rw [List.take_succ_cons, Reads.bytes_cons, Read.bytes, ← List.append_assoc]
      exact ih hfilled n

/-- A course uses up its reads: either they complete the frame that it answers, or all their bytes
stay in the buffer. -/
theorem outcome (h : Course buffer reads a left) :
    (∃ f, a = .ok f ∧ f ≠ .closed ∧ Frame.ready? (buffer ++ reads.bytes) = some (f, left)) ∨
      (frames [a] = [] ∧ left = buffer ++ reads.bytes ∧ Frame.ready? left = none) := by
  obtain ⟨seen, hseen, hcases⟩ := next_cases { buffer, source := reads ++ [] }
  rw [h.next_eq []] at hseen hcases
  have hall : reads.bytes = seen := by simpa [Reads.bytes_nil] using hseen
  rwa [hall]

theorem left_le (h : Course buffer reads a left) (hle : buffer.length ≤ 8191) :
    left.length ≤ 8191 := by
  have hall := h.buffered_le hle reads.length
  rw [List.take_length] at hall
  rcases h.outcome with ⟨f, -, -, hr⟩ | ⟨-, rfl, -⟩
  · exact Nat.le_trans (Nat.le_of_lt (Frame.ready?_length hr)) hall
  · exact hall

end Course

theorem calls_buffer_le (n : Nat) (script : Reads) :
    (calls n { source := script }).2.buffer.length ≤ 8191 := by
  induction n with
  | zero => exact Nat.zero_le _
  | succ n ih =>
    obtain ⟨m, hcourse, -⟩ := next_course (calls n { source := script }).2
    rw [calls_succ]
    exact hcourse.left_le ih

/-- Reads without end. None brings more bytes than it is asked for, and they are not interrupted
forever. -/
structure Endless where
  read : Nat → Read
  size : ∀ i, (read i).bytes.length ≤ Frame.windowSize
  live : ∀ i, ∃ j, i ≤ j ∧ read j ≠ .interrupted

namespace Endless

/-- So many reads from a place on. -/
def stretch (s : Endless) (start : Nat) : Nat → Reads
  | 0 => []
  | n + 1 => s.read start :: stretch s (start + 1) n

variable {s : Endless}

theorem stretch_add (start m n : Nat) :
    s.stretch start (m + n) = s.stretch start m ++ s.stretch (start + m) n := by
  induction m generalizing start with
  | zero => simp [stretch]
  | succ m ih =>
    have hnext := ih (start + 1)
    rw [Nat.add_right_comm m 1 n, stretch, hnext, stretch, List.cons_append,
      Nat.add_right_comm start 1 m, Nat.add_assoc start m 1]

/-- A read that is not interrupted ends the call, or leaves less room for those after it. -/
theorem exists_course_read {start : Nat} (hr : Frame.ready? buffer = none)
    (hread : s.read start ≠ .interrupted)
    (hmore : ∀ bs, s.read start = .data bs → bs ≠ [] →
      ∃ n a left, Course (buffer ++ bs) (s.stretch (start + 1) n) a left) :
    ∃ n a left, Course buffer (s.stretch start n) a left := by
  cases he : s.read start with
  | interrupted => exact absurd he hread
  | wouldBlock =>
    refine ⟨1, .error .wouldBlock, buffer, ?_⟩
    rw [stretch, he]
    exact .failed hr
  | data bs =>
    by_cases hbs : bs = []
    · refine ⟨1, .ok .closed, buffer, ?_⟩
      rw [stretch, he, hbs]
      exact .closed hr
    · obtain ⟨n, a, left, hcourse⟩ := hmore bs he hbs
      have hsize := s.size start
      rw [he] at hsize
      refine ⟨n + 1, a, left, ?_⟩
      rw [stretch, he]
      exact .filled hr hbs hsize hcourse

/-- Every call on such a reader returns. -/
theorem exists_course (s : Endless) (start : Nat) (buffer : Bytes) :
    ∃ n a left, Course buffer (s.stretch start n) a left := by
  induction hroom : Frame.windowSize - buffer.length using Nat.strongRecOn
    generalizing buffer start with
  | ind room ih =>
    cases hr : Frame.ready? buffer with
    | some p => exact ⟨0, .ok p.1, p.2, .ready hr⟩
    | none =>
      have hbound := (Frame.bounds_of_not_ready hr).1
      have hwindow : Frame.windowSize = 4096 := rfl
      have hmore : ∀ start bs, bs ≠ [] →
          ∃ n a left, Course (buffer ++ bs) (s.stretch start n) a left := by
        intro start bs hbs
        have hpos := List.length_pos_of_ne_nil hbs
        apply ih (Frame.windowSize - (buffer ++ bs).length) ?_ start (buffer ++ bs) rfl
        rw [List.length_append]
        omega
      obtain ⟨j, hj, hread⟩ := s.live start
      obtain ⟨k, rfl⟩ := Nat.exists_eq_add_of_le hj
      -- the interrupted reads before the first one that is not
      induction k generalizing start with
      | zero => exact exists_course_read hr hread fun bs _ => hmore (start + 1) bs
      | succ k ihk =>
        by_cases hi : s.read start = .interrupted
        · rw [← Nat.add_assoc, Nat.add_right_comm] at hread
          obtain ⟨n, a, left, hcourse⟩ := ihk (start + 1) (Nat.le_add_right _ k) hread
          refine ⟨n + 1, a, left, ?_⟩
          rw [stretch, hi]
          exact .interrupted hr hcourse
        · exact exists_course_read hr hi fun bs _ => hmore (start + 1) bs

/-- So does every number of calls, after some of the reads. -/
theorem exists_calls (s : Endless) (n start : Nat) (buffer : Bytes) :
    ∃ m answers left, ∀ later, calls n { buffer, source := s.stretch start m ++ later } =
      (answers, { buffer := left, source := later }) := by
  induction n generalizing start buffer with
  | zero => exact ⟨0, [], buffer, fun later => rfl⟩
  | succ n ih =>
    obtain ⟨m, a, between, hcourse⟩ := s.exists_course start buffer
    obtain ⟨more, answers, left, hrest⟩ := ih (start + m) between
    refine ⟨m + more, a :: answers, left, ?_⟩
    intro later
    rw [calls, stretch_add, List.append_assoc, hcourse.next_eq, hrest]

end Endless

/-- What the next call of a reader keeps within bounds. The reads are those that it makes. -/
structure Bounded (r : FrameReader) (reads : Reads) : Prop where
  made : Reads.made reads.length r.source = (reads, r.next.2.source)
  /-- The call makes all of these reads, and sees nothing of the later ones. -/
  decided : ∀ later, next { buffer := r.buffer, source := reads ++ later } =
    (r.next.1, { buffer := r.next.2.buffer, source := later })
  delivered : reads.countP Read.delivers ≤ 4096
  buffered : ∀ n, (r.buffer ++ Reads.bytes (List.take n reads)).length ≤ 8191
  left : r.next.2.buffer.length ≤ 8191
  idle : r.next.1 = .ok .closed ∨ (∃ e, r.next.1 = .error e) →
    r.next.2.buffer.length < 4096 ∧ 0 ∉ r.next.2.buffer
  command : ∀ line, r.next.1 = .ok (.command line) →
    ∃ raw, r.buffer ++ reads.bytes = raw ++ 0 :: r.next.2.buffer ∧
      line = Utf8.toStringLossy raw ∧ raw.length ≤ 4095 ∧ 0 ∉ raw

theorem exists_bounded {r : FrameReader} (h : r.buffer.length ≤ 8191) :
    ∃ reads, Bounded r reads := by
  obtain ⟨n, hcourse, hsource⟩ := next_course r
  have hdelivered : (Reads.made n r.source).1.countP Read.delivers ≤ 4096 :=
    Nat.le_trans hcourse.delivered_le (Nat.sub_le _ _)
  refine ⟨(Reads.made n r.source).1, ?_, hcourse.next_eq, hdelivered, hcourse.buffered_le h,
    hcourse.left_le h, ?_, ?_⟩
  · rw [Reads.length_made, ← hsource]
  · intro hanswer
    rcases hcourse.outcome with ⟨f, hf, hne, -⟩ | ⟨-, -, hr⟩
    · rcases hanswer with hc | ⟨e, he⟩
      · rw [hf] at hc
        exact absurd (Except.ok.inj hc) hne
      · rw [hf] at he
        cases he
    · exact Frame.bounds_of_not_ready hr
  · intro line hline
    rcases hcourse.outcome with ⟨f, hf, -, hr⟩ | ⟨hnone, -, -⟩
    · obtain rfl := Except.ok.inj (hf.symm.trans hline)
      exact Frame.raw_of_ready hr
    · rw [hline] at hnone
      cases hnone

/-- In every state that calls on a script can reach the next call stays within bounds, and on a
reader without end every number of calls returns after some of its reads. -/
theorem calls_bounded :
    (∀ (script : Reads) (n : Nat), ∃ reads, Bounded (calls n { source := script }).2 reads) ∧
      ∀ (s : Endless) (n : Nat), ∃ m answers buffer, ∀ later,
        calls n { source := s.stretch 0 m ++ later } = (answers, { buffer, source := later }) := by
  refine ⟨?_, ?_⟩
  · intro script n
    exact exists_bounded (calls_buffer_le n script)
  · intro s n
    exact s.exists_calls n 0 []

end FrameReader
end PipeShell
