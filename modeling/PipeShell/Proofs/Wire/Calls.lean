import PipeShell.Proofs.Wire.Framing

/-! Calling for frames again and again. A reader stands between the frames that its reads have
completed and the reads to come; every call gives the next answer of the two and loses no byte. -/
namespace PipeShell

def Read.bytes : Read → Bytes
  | .data bs => bs
  | .interrupted => []
  | .wouldBlock => []

theorem Reads.bytes_nil : Reads.bytes [] = [] := rfl

theorem Reads.bytes_cons (r : Read) (rs : Reads) : Reads.bytes (r :: rs) = r.bytes ++ rs.bytes := by
  cases r <;> rfl

section Take

variable {room : Nat} {event r : Read} {rs later : Reads}

/-- A read brings the bytes that come first. -/
theorem Reads.bytes_take (h : Reads.take room rs = (r, later)) :
    rs.bytes = r.bytes ++ later.bytes := by
  cases rs with
  | nil =>
    obtain ⟨rfl, rfl⟩ := by simpa [Reads.take] using h
    rfl
  | cons event rs =>
    cases event with
    | interrupted =>
      obtain ⟨rfl, rfl⟩ := by simpa [Reads.take] using h
      exact Reads.bytes_cons _ _
    | wouldBlock =>
      obtain ⟨rfl, rfl⟩ := by simpa [Reads.take] using h
      exact Reads.bytes_cons _ _
    | data bs =>
      obtain ⟨rfl, rfl⟩ := by simpa [Reads.take] using h
      split
      · rw [Reads.bytes_cons, Reads.bytes_cons, ← List.append_assoc]
        exact congrArg (· ++ Reads.bytes rs) (List.take_append_drop room bs).symm
      · rw [Reads.bytes_cons]
        simp only [Read.bytes]
        rw [List.take_of_length_le (by omega)]

theorem Reads.take_interrupted (h : Reads.take room (event :: rs) = (.interrupted, later)) :
    event = .interrupted ∧ rs = later := by
  cases event <;> simp_all [Reads.take]

theorem Reads.take_wouldBlock (h : Reads.take room (event :: rs) = (.wouldBlock, later)) :
    event = .wouldBlock ∧ rs = later := by
  cases event <;> simp_all [Reads.take]

theorem Reads.take_nothing (hroom : 0 < room)
    (h : Reads.take room (event :: rs) = (.data [], later)) : event = .data [] ∧ rs = later := by
  cases event with
  | interrupted => simp [Reads.take] at h
  | wouldBlock => simp [Reads.take] at h
  | data bs =>
    obtain ⟨hbs, rfl⟩ := by simpa [Reads.take] using h
    obtain rfl : bs = [] := hbs.resolve_left (by omega)
    simp

end Take

namespace FrameReader

abbrev Answer := Except ReadFailure Frame

/-- The answers of so many calls, and the reader after them. -/
def calls : Nat → FrameReader → List Answer × FrameReader
  | 0, r => ([], r)
  | n + 1, r => (r.next.1 :: (calls n r.next.2).1, (calls n r.next.2).2)

/-- What one read brings about, when the frame begun before it is `pending`. -/
def answered (pending : Bytes) : Read → List Answer
  | .data [] => [.ok .closed]
  | .data bs => (Frame.split (pending ++ bs)).1.map .ok
  | .interrupted => []
  | .wouldBlock => [.error .wouldBlock]

/-- What the reads of a script bring about, one after the other. -/
def timeline (pending : Bytes) : Reads → List Answer
  | [] => []
  | r :: rs => answered pending r ++ timeline (Frame.split (pending ++ r.bytes)).2 rs

/-- The requests among the answers. -/
def frames (answers : List Answer) : List Frame :=
  answers.filterMap fun
    | .ok .closed => none
    | .ok f => some f
    | .error _ => none

/-- The answers to come, before those of the end of the stream. -/
def upcoming (r : FrameReader) : List Answer :=
  (Frame.split r.buffer).1.map .ok ++ timeline (Frame.split r.buffer).2 r.source

theorem upcoming_of_ready {r : FrameReader} {f : Frame} {rest : Bytes}
    (h : Frame.ready? r.buffer = some (f, rest)) :
    r.upcoming = .ok f :: upcoming { r with buffer := rest } := by
  rw [upcoming, Frame.split_of_ready h]
  rfl

theorem upcoming_of_not_ready {r : FrameReader} (h : Frame.ready? r.buffer = none) :
    r.upcoming = timeline r.buffer r.source := by
  rw [upcoming, Frame.split_of_not_ready h]
  rfl

theorem timeline_data (pending : Bytes) {bs : Bytes} (hbs : bs ≠ []) (rs : Reads) :
    timeline pending (.data bs :: rs) = upcoming { buffer := pending ++ bs, source := rs } := by
  obtain ⟨b, bs, rfl⟩ := List.exists_cons_of_ne_nil hbs
  rfl

/-- A long read is the same as two. -/
theorem timeline_take (pending : Bytes) {event : Read} {rs later : Reads} {bs : Bytes}
    (hbs : bs ≠ []) (h : Reads.take Frame.windowSize (event :: rs) = (.data bs, later)) :
    timeline pending (event :: rs) = upcoming { buffer := pending ++ bs, source := later } := by
  cases event with
  | interrupted => simp [Reads.take] at h
  | wouldBlock => simp [Reads.take] at h
  | data cs =>
    obtain ⟨rfl, rfl⟩ := by simpa [Reads.take] using h
    have hcs : cs ≠ [] := by
      rintro rfl
      simp at hbs
    rw [timeline_data pending hcs]
    split
    · case isTrue hlen =>
      have hdrop : cs.drop Frame.windowSize ≠ [] := by
        intro hnil
        rw [List.drop_eq_nil_iff] at hnil
        omega
      have hsplit := Frame.split_append (pending ++ cs.take Frame.windowSize)
        (cs.drop Frame.windowSize)
      rw [List.append_assoc, List.take_append_drop] at hsplit
      simp only [upcoming, timeline_data _ hdrop, hsplit, List.map_append, List.append_assoc]
    · case isFalse hlen => rw [List.take_of_length_le (by omega)]

/-- A read that brings no byte leaves the frame begun as it is. -/
theorem upcoming_of_empty_read {r : FrameReader} {event : Read} {rs : Reads}
    (hr : Frame.ready? r.buffer = none) (hs : r.source = event :: rs) (hb : event.bytes = []) :
    r.upcoming = answered r.buffer event ++ upcoming { r with source := rs } := by
  have hlater : upcoming { r with source := rs } = timeline r.buffer rs := upcoming_of_not_ready hr
  rw [upcoming_of_not_ready hr, hlater, hs, timeline, hb, List.append_nil,
    Frame.split_of_not_ready hr]

/-- One call takes the first of the answers to come, or finds the end of the stream. -/
theorem next_upcoming (r : FrameReader) :
    r.upcoming = r.next.1 :: r.next.2.upcoming ∨
      r.upcoming = [] ∧ r.next.1 = .ok .closed ∧ r.next.2.upcoming = [] := by
  fun_induction next r with
  | case1 r f rest hr => exact Or.inl (upcoming_of_ready hr)
  | case2 r hr hs =>
    have hnil : r.upcoming = [] := by rw [upcoming_of_not_ready hr, hs, timeline]
    exact Or.inr ⟨hnil, rfl, hnil⟩
  | case3 r hr event rs hs later ht ih =>
    obtain ⟨rfl, rfl⟩ := Reads.take_interrupted ht
    rw [upcoming_of_empty_read hr hs rfl]
    exact ih
  | case4 r hr event rs hs later ht =>
    obtain ⟨rfl, rfl⟩ := Reads.take_wouldBlock ht
    exact Or.inl (upcoming_of_empty_read hr hs rfl)
  | case5 r hr event rs hs later ht =>
    obtain ⟨rfl, rfl⟩ := Reads.take_nothing (by decide) ht
    exact Or.inl (upcoming_of_empty_read hr hs rfl)
  | case6 r hr event rs hs b bs later ht ih =>
    rw [upcoming_of_not_ready hr, hs, timeline_take r.buffer (by simp) ht]
    exact ih

/-- The end of a stream answers every call in the same way. -/
def ends (n : Nat) : List Answer := List.replicate n (.ok .closed)

theorem calls_upcoming (n : Nat) (r : FrameReader) :
    (calls n r).1 = (r.upcoming ++ ends n).take n := by
  induction n generalizing r with
  | zero => rfl
  | succ n ih =>
    have hends : ends (n + 1) = ends n ++ ends 1 := List.replicate_add ..
    rw [calls, ih]
    rcases next_upcoming r with h | ⟨h, hc, hn⟩
    · have hle : n ≤ (r.next.2.upcoming ++ ends n).length := by simp [ends]
      rw [h, List.cons_append, List.take_succ_cons, hends, ← List.append_assoc,
        List.take_append_of_le_length hle]
    · rw [h, hn, hc]
      rfl

theorem frames_append (as bs : List Answer) : frames (as ++ bs) = frames as ++ frames bs :=
  List.filterMap_append

theorem closed_not_mem_split (bs : Bytes) : Frame.closed ∉ (Frame.split bs).1 := by
  induction h : bs.length using Nat.strongRecOn generalizing bs with
  | ind n ih =>
    cases hr : Frame.ready? bs with
    | none => simp [Frame.split_of_not_ready hr]
    | some p =>
      obtain ⟨f, rest⟩ := p
      have hlen := Frame.ready?_length hr
      have hf := Frame.ready?_ne_closed hr
      rw [Frame.split_of_ready hr, List.mem_cons, not_or]
      exact ⟨Ne.symm hf, ih rest.length (by omega) rest rfl⟩

theorem frames_ok {f : Frame} (h : f ≠ .closed) : frames [.ok f] = [f] := by
  cases f with
  | closed => exact absurd rfl h
  | command line => rfl
  | oversized => rfl

theorem frames_map_ok {fs : List Frame} (h : .closed ∉ fs) : frames (fs.map .ok) = fs := by
  induction fs with
  | nil => rfl
  | cons f fs ih =>
    obtain ⟨hf, hfs⟩ : ¬ .closed = f ∧ .closed ∉ fs := by simpa using h
    have hcons := frames_append [.ok f] (fs.map .ok)
    rw [frames_ok (Ne.symm hf), ih hfs] at hcons
    exact hcons

theorem frames_answered {pending : Bytes} (h : Frame.ready? pending = none) (r : Read) :
    frames (answered pending r) = (Frame.split (pending ++ r.bytes)).1 := by
  have hnone : (Frame.split (pending ++ [])).1 = [] := by
    rw [List.append_nil, Frame.split_of_not_ready h]
  cases r with
  | interrupted => exact hnone.symm
  | wouldBlock => exact hnone.symm
  | data bs =>
    cases bs with
    | nil => exact hnone.symm
    | cons b bs => exact frames_map_ok (closed_not_mem_split _)

/-- The requests of a script are the frames of its bytes. -/
theorem frames_timeline {pending : Bytes} (h : Frame.ready? pending = none) (script : Reads) :
    frames (timeline pending script) = (Frame.split (pending ++ script.bytes)).1 := by
  induction script generalizing pending with
  | nil =>
    rw [Reads.bytes_nil, List.append_nil, Frame.split_of_not_ready h]
    rfl
  | cons r rs ih =>
    rw [timeline, frames_append, frames_answered h, ih (Frame.ready?_split _), Reads.bytes_cons,
      ← List.append_assoc, Frame.split_append (pending ++ r.bytes)]

/-- A script goes on from the frame that its first reads have left. -/
theorem timeline_append {pending : Bytes} (h : Frame.ready? pending = none) (rs later : Reads) :
    timeline pending (rs ++ later) =
      timeline pending rs ++ timeline (Frame.split (pending ++ rs.bytes)).2 later := by
  induction rs generalizing pending with
  | nil =>
    rw [Reads.bytes_nil, List.append_nil, Frame.split_of_not_ready h]
    rfl
  | cons r rs ih =>
    rw [List.cons_append, timeline, timeline, ih (Frame.ready?_split _), Reads.bytes_cons,
      ← List.append_assoc pending, Frame.split_append (pending ++ r.bytes), List.append_assoc]

/-- One call takes some bytes off the source, and with them either completes the frame that it
answers or leaves a frame begun. -/
theorem next_cases (r : FrameReader) : ∃ seen, r.source.bytes = seen ++ r.next.2.source.bytes ∧
    ((∃ f, r.next.1 = .ok f ∧ f ≠ .closed ∧
        Frame.ready? (r.buffer ++ seen) = some (f, r.next.2.buffer)) ∨
      (frames [r.next.1] = [] ∧ r.next.2.buffer = r.buffer ++ seen ∧
        Frame.ready? r.next.2.buffer = none)) := by
  fun_induction next r with
  | case1 r f rest hr =>
    refine ⟨[], rfl, Or.inl ⟨f, rfl, Frame.ready?_ne_closed hr, ?_⟩⟩
    rwa [List.append_nil]
  | case2 r hr hs => exact ⟨[], rfl, Or.inr ⟨rfl, (List.append_nil _).symm, hr⟩⟩
  | case3 r hr event rs hs later ht ih =>
    obtain ⟨rfl, rfl⟩ := Reads.take_interrupted ht
    obtain ⟨seen, hsrc, hcases⟩ := ih
    exact ⟨seen, by rw [hs, Reads.bytes_cons]; exact hsrc, hcases⟩
  | case4 r hr event rs hs later ht =>
    obtain ⟨rfl, rfl⟩ := Reads.take_wouldBlock ht
    refine ⟨[], ?_, Or.inr ⟨rfl, (List.append_nil _).symm, hr⟩⟩
    rw [hs, Reads.bytes_cons]
    rfl
  | case5 r hr event rs hs later ht =>
    obtain ⟨rfl, rfl⟩ := Reads.take_nothing (by decide) ht
    refine ⟨[], ?_, Or.inr ⟨rfl, (List.append_nil _).symm, hr⟩⟩
    rw [hs, Reads.bytes_cons]
    rfl
  | case6 r hr event rs hs b bs later ht ih =>
    obtain ⟨seen, hsrc, hcases⟩ := ih
    refine ⟨b :: bs ++ seen, ?_, ?_⟩
    · rw [hs, Reads.bytes_take ht, hsrc, List.append_assoc]
      rfl
    · simpa only [List.append_assoc] using hcases

theorem calls_succ (n : Nat) (r : FrameReader) : calls (n + 1) r =
    ((calls n r).1 ++ [(calls n r).2.next.1], (calls n r).2.next.2) := by
  induction n generalizing r with
  | zero => rfl
  | succ n ih =>
    rw [calls, ih]
    rfl

/-- After any number of calls the requests answered and those still in the buffer are the frames
of the bytes taken off the source. -/
theorem calls_seen (n : Nat) (r : FrameReader) :
    ∃ seen, r.source.bytes = seen ++ (calls n r).2.source.bytes ∧
      Frame.split (r.buffer ++ seen) =
        (frames (calls n r).1 ++ (Frame.split (calls n r).2.buffer).1,
          (Frame.split (calls n r).2.buffer).2) := by
  induction n generalizing r with
  | zero => exact ⟨[], rfl, by rw [List.append_nil]; rfl⟩
  | succ n ih =>
    obtain ⟨first, hfirst, hcases⟩ := next_cases r
    obtain ⟨later, hlater, hsplit⟩ := ih r.next.2
    refine ⟨first ++ later, ?_, ?_⟩
    · rw [hfirst, hlater, calls, List.append_assoc]
    · have hcons : frames (calls (n + 1) r).1 = frames [r.next.1] ++ frames (calls n r.next.2).1 :=
        frames_append [r.next.1] _
      rw [hcons, calls, ← List.append_assoc]
      rcases hcases with ⟨f, hf, hne, hr⟩ | ⟨hnone, hbuf, _⟩
      · have hone : frames [r.next.1] = [f] := by rw [hf, frames_ok hne]
        rw [Frame.split_of_ready (Frame.ready?_append hr later), hsplit, hone]
        rfl
      · rw [hnone, ← hbuf, hsplit]
        rfl

/-- An answer that is no request is given only when no frame is ready. -/
theorem ready?_of_no_frame {n : Nat} {r : FrameReader} {a : Answer}
    (ha : a ∈ (calls n r).1.getLast?) (hno : frames [a] = []) :
    Frame.ready? (calls n r).2.buffer = none := by
  cases n with
  | zero => simp [calls] at ha
  | succ n =>
    rw [calls_succ, List.getLast?_append, Option.mem_def] at ha
    obtain rfl : (calls n r).2.next.1 = a := by simpa using ha
    rw [calls_succ]
    obtain ⟨_, _, ⟨f, hf, hne, _⟩ | ⟨_, _, hr⟩⟩ := next_cases (calls n r).2
    · rw [hf, frames_ok hne] at hno
      cases hno
    · exact hr

/-- Calls on a script of reads: what they answer and in which order, which requests these are, what
each read brings about, and which bytes are in the buffer at any time. -/
theorem calls_of_script (script : Reads) (n : Nat) :
    (calls n { source := script }).1 = (timeline [] script ++ ends n).take n ∧
      frames (timeline [] script) = (Frame.split script.bytes).1 ∧
      (∀ before r after, script = before ++ r :: after →
        timeline [] script = timeline [] before ++
          (answered (Frame.split (Reads.bytes before)).2 r ++
            timeline (Frame.split (Reads.bytes before ++ r.bytes)).2 after)) ∧
      ∃ seen, script.bytes = seen ++ (calls n { source := script }).2.source.bytes ∧
        Frame.split seen =
          (frames (calls n { source := script }).1 ++
              (Frame.split (calls n { source := script }).2.buffer).1,
            (Frame.split (calls n { source := script }).2.buffer).2) ∧
        ∀ a ∈ (calls n { source := script }).1.getLast?, frames [a] = [] →
          (calls n { source := script }).2.buffer = (Frame.split seen).2 := by
  have hnil : Frame.ready? [] = none := rfl
  refine ⟨?_, frames_timeline hnil script, ?_, ?_⟩
  · rw [calls_upcoming]
    exact congrArg (fun answers => (answers ++ ends n).take n) (upcoming_of_not_ready hnil)
  · rintro before r after rfl
    rw [timeline_append hnil, timeline, List.nil_append, Frame.split_append (Reads.bytes before)]
  · obtain ⟨seen, hseen, hsplit⟩ := calls_seen n { source := script }
    refine ⟨seen, hseen, hsplit, ?_⟩
    intro a ha hno
    have hr := ready?_of_no_frame ha hno
    rw [show Frame.split seen = _ from hsplit, Frame.split_of_not_ready hr]

end FrameReader
end PipeShell
