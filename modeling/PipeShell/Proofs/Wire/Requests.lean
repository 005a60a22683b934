import Mathlib.Data.List.DropRight
import PipeShell.Proofs.Wire.Flowing

/-! Requests of any length. Every full window of a long line is reported, the rest of the line is a
command, and the request ends at the border of a frame. -/
namespace PipeShell

namespace Frame

/-- The frames of the bytes of a line. -/
def ofLine (bs : Bytes) : List Frame :=
  List.replicate (bs.length / 4096) .oversized ++
    [.command (Utf8.toStringLossy (bs.rtake (bs.length % 4096)))]

variable {bs : Bytes}

theorem ofLine_short (h : bs.length < 4096) : ofLine bs = [.command (Utf8.toStringLossy bs)] := by
  rw [ofLine, Nat.div_eq_of_lt h, Nat.mod_eq_of_lt h]
  simp [List.rtake]

theorem ofLine_long (h : 4096 ≤ bs.length) : ofLine bs = .oversized :: ofLine (bs.drop 4096) := by
  obtain ⟨n, hn⟩ := Nat.exists_eq_add_of_le' h
  have hdrop : (bs.drop 4096).length = n := by
    rw [List.length_drop, hn, Nat.add_sub_cancel]
  have hrest : bs.rtake (n % 4096) = (bs.drop 4096).rtake (n % 4096) := by
    have hle := Nat.mod_le n 4096
    simp only [List.rtake, List.drop_drop, hdrop, hn]
    congr 1
    omega
  rw [ofLine, ofLine, hdrop, hn, Nat.add_mod_right, Nat.add_div_right n (by decide), hrest]
  rfl

end Frame

namespace FrameReader

variable {r : FrameReader} {f : Frame} {bs more rest : Bytes}

/-- A call takes the frame that it answers off the bytes held, or leaves these as they are. -/
theorem held_next (r : FrameReader) :
    (∃ f, r.next.1 = .ok f ∧ f ≠ .closed ∧ Frame.ready? r.held = some (f, r.next.2.held)) ∨
      frames [r.next.1] = [] ∧ r.next.2.held = r.held := by
  obtain ⟨seen, hsource, ⟨f, hf, hne, hr⟩ | ⟨hno, hbuffer, _⟩⟩ := next_cases r
  · refine Or.inl ⟨f, hf, hne, ?_⟩
    rw [held, hsource, ← List.append_assoc]
    exact Frame.ready?_append hr _
  · refine Or.inr ⟨hno, ?_⟩
    rw [held, held, hbuffer, hsource, List.append_assoc]

theorem unbroken_next (h : r.source.Unbroken) : r.next.2.source.Unbroken := by
  fun_induction next r with
  | case1 r f rest hr => exact h
  | case2 r hr hs => exact h
  | case3 r hr event rs hs later ht ih =>
    obtain ⟨rfl, rfl⟩ := Reads.take_interrupted ht
    rw [hs] at h
    exact ih h
  | case4 r hr event rs hs later ht =>
    obtain ⟨rfl, rfl⟩ := Reads.take_wouldBlock ht
    rw [hs] at h
    exact h.elim
  | case5 r hr event rs hs later ht =>
    obtain ⟨rfl, rfl⟩ := Reads.take_nothing (by decide) ht
    rw [hs] at h
    exact h.2
  | case6 r hr event rs hs b bs later ht ih =>
    rw [hs] at h
    exact ih (Reads.unbroken_take h ht)

/-- A frame at the head of the bytes of an unbroken stream is the next answer. -/
theorem next_of_ready (h : r.source.Unbroken) (hr : Frame.ready? r.held = some (f, rest)) :
    r.next.1 = .ok f ∧ r.next.2.held = rest := by
  rcases held_next r with ⟨g, hg, -, hheld⟩ | ⟨hno, -⟩
  · obtain ⟨rfl, rfl⟩ := by simpa using hheld.symm.trans hr
    exact ⟨hg, rfl⟩
  · rcases next_unbroken h with ⟨g, hg, hne, -⟩ | ⟨-, hsplit⟩
    · rw [hg, frames_ok hne] at hno
      cases hno
    · rw [show r.buffer ++ r.source.bytes = r.held from rfl, Frame.split_of_ready hr] at hsplit
      cases hsplit

theorem next_of_drained (h : r.source.Unbroken) (hr : r.held = []) :
    r.next.1 = .ok .closed ∧ r.next.2.held = [] := by
  have hready : Frame.ready? r.held = none := by rw [hr]; rfl
  constructor
  · rcases next_unbroken h with ⟨g, -, -, -, hsplit⟩ | ⟨hclosed, -⟩
    · rw [show r.buffer ++ r.source.bytes = r.held from rfl,
        Frame.split_of_not_ready hready] at hsplit
      cases hsplit
    · exact hclosed
  · rcases held_next r with ⟨g, -, -, hheld⟩ | ⟨-, hheld⟩
    · rw [hready] at hheld
      cases hheld
    · rw [hheld, hr]

theorem calls_add (m n : Nat) (r : FrameReader) :
    calls (m + n) r = ((calls m r).1 ++ (calls n (calls m r).2).1, (calls n (calls m r).2).2) := by
  induction m generalizing r with
  | zero => rw [Nat.zero_add]; rfl
  | succ m ih =>
    rw [Nat.succ_add, calls, calls, ih]
    rfl

theorem length_calls (n : Nat) (r : FrameReader) : (calls n r).1.length = n := by
  induction n generalizing r with
  | zero => rfl
  | succ n ih => rw [calls, List.length_cons, ih]

/-- Fewer calls answer the same as the first of more. -/
theorem calls_take (n more : Nat) (r : FrameReader) :
    (calls n r).1 = (calls (n + more) r).1.take n := by
  rw [calls_add, List.take_left' (length_calls n r)]

/-- A reader of an unbroken stream, at the border of a frame, with these bytes to come. -/
structure AtBorder (r : FrameReader) (bs : Bytes) : Prop where
  unbroken : r.source.Unbroken
  held : r.held = bs

/-- The calls that a line takes lead from its border to the next. -/
theorem calls_line (hbs : 0 ∉ bs) (h : r.AtBorder (bs ++ 0 :: more)) :
    (calls (Frame.ofLine bs).length r).1 = (Frame.ofLine bs).map .ok ∧
      (calls (Frame.ofLine bs).length r).2.AtBorder more := by
  induction hn : bs.length using Nat.strongRecOn generalizing bs r with
  | ind n ih =>
    have hready := Frame.ready?_line hbs more
    rw [← h.held] at hready
    by_cases hlen : bs.length < 4096
    · rw [if_pos hlen] at hready
      obtain ⟨hanswer, hheld⟩ := next_of_ready h.unbroken hready
      rw [Frame.ofLine_short hlen]
      exact ⟨by rw [List.map_singleton, ← hanswer]; rfl, unbroken_next h.unbroken, hheld⟩
    · rw [if_neg hlen] at hready
      obtain ⟨hanswer, hheld⟩ := next_of_ready h.unbroken hready
      have hdrop : 0 ∉ bs.drop 4096 := fun hzero => hbs (List.mem_of_mem_drop hzero)
      obtain ⟨hanswers, hborder⟩ := ih (bs.drop 4096).length (by rw [List.length_drop]; omega)
        hdrop ⟨unbroken_next h.unbroken, hheld⟩ rfl
      rw [Frame.ofLine_long (Nat.not_lt.1 hlen), List.length_cons, List.map_cons, calls, hanswer,
        hanswers]
      exact ⟨rfl, hborder⟩

theorem calls_drained (h : r.AtBorder []) (n : Nat) : (calls n r).1 = ends n := by
  induction n generalizing r with
  | zero => rfl
  | succ n ih =>
    obtain ⟨hclosed, hheld⟩ := next_of_drained h.unbroken h.held
    rw [calls, hclosed, ih ⟨unbroken_next h.unbroken, hheld⟩]
    rfl

end FrameReader

namespace Client

/-- Sends lines without waiting for answers. -/
def sendAll (lines : List String) (c : Client) : Client :=
  lines.foldl (fun c line => c.send (request line)) c

theorem sent_sendAll (lines : List String) (c : Client) :
    (c.sendAll lines).sent = c.sent ++ lines.flatMap request := by
  induction lines generalizing c with
  | nil => exact (List.append_nil c.sent).symm
  | cons line lines ih =>
    rw [sendAll, List.foldl_cons, ← sendAll, ih, send, List.flatMap_cons, List.append_assoc]

/-- The frames that lines are read as. -/
def framesOf (lines : List String) : List Frame :=
  lines.flatMap fun line => Frame.ofLine (Utf8.ofString line)

theorem ofLine_of_fits {line : String} (h : Utf8.size line ≤ 4095) :
    Frame.ofLine (Utf8.ofString line) = [.command line] := by
  rw [Frame.ofLine_short (Nat.lt_succ_of_le h), Utf8.ofString, Utf8.toStringLossy_encode,
    String.ofList_toList]

end Client

namespace FrameReader

variable {r : FrameReader} {lines : List String} {more : Bytes}

/-- Calls for the frames of some lines lead over all of their requests. -/
theorem calls_requests (hlines : ∀ line ∈ lines, '\x00' ∉ line.toList)
    (h : r.AtBorder (lines.flatMap Client.request ++ more)) :
    (calls (Client.framesOf lines).length r).1 = (Client.framesOf lines).map .ok ∧
      (calls (Client.framesOf lines).length r).2.AtBorder more := by
  induction lines generalizing r with
  | nil => exact ⟨rfl, h⟩
  | cons line lines ih =>
    have hline := hlines line List.mem_cons_self
    have hborder : r.AtBorder
        (Utf8.ofString line ++ 0 :: (lines.flatMap Client.request ++ more)) := by
      simpa [Client.request, Frame.requestEnd] using h
    obtain ⟨hfirst, hnext⟩ := calls_line (Client.zero_not_mem_of_noNul hline) hborder
    obtain ⟨hrest, hlast⟩ := ih (fun l hl => hlines l (List.mem_cons_of_mem line hl)) hnext
    rw [Client.framesOf, List.flatMap_cons, ← Client.framesOf, List.length_append, calls_add,
      hfirst, hrest, List.map_append]
    exact ⟨rfl, hlast⟩

/-- A reader of what a client has sent, in whatever pieces it comes: each line gives the frames of
its bytes, a line that fits one command with its own text, and the next line begins a frame. -/
theorem calls_of_sent {lines : List String} (hlines : ∀ line ∈ lines, '\x00' ∉ line.toList)
    (reader : ResponseReader) {source : Reads} (hsource : source.Unbroken)
    (hbytes : source.bytes = (Client.sendAll lines { reader }).sent) :
    (∀ n, (calls n { source }).1 = ((Client.framesOf lines).map Except.ok ++ ends n).take n) ∧
      (∀ line ∈ lines, Utf8.size line ≤ 4095 → Client.framesOf [line] = [.command line]) ∧
      ∀ before after, lines = before ++ after →
        (calls (Client.framesOf before).length { source }).2.AtBorder
          (after.flatMap Client.request) := by
  have hheld : source.bytes = lines.flatMap Client.request := by
    rw [hbytes, Client.sent_sendAll]
    rfl
  have hstart : AtBorder { source } (lines.flatMap Client.request ++ []) :=
    ⟨hsource, by rw [held, hheld, List.append_nil]; rfl⟩
  refine ⟨?_, ?_, ?_⟩
  · intro n
    obtain ⟨hframes, hend⟩ := calls_requests hlines hstart
    rw [calls_take n (Client.framesOf lines).length, Nat.add_comm, calls_add, hframes,
      calls_drained hend]
  · intro line _ hline
    rw [Client.framesOf, List.flatMap_singleton, Client.ofLine_of_fits hline]
  · rintro before after rfl
    rw [List.append_nil, List.flatMap_append] at hstart
    exact (calls_requests (fun l hl => hlines l (List.mem_append_left after hl)) hstart).2

def longLine (n : Nat) : String := String.ofList (List.replicate n 'x')

theorem ofString_longLine (n : Nat) : Utf8.ofString (longLine n) = List.replicate n 0x78 := by
  have hx : Utf8.encodeChar 'x' = [0x78] := rfl
  rw [Utf8.ofString, longLine, String.toList_ofList, Utf8.encode]
  induction n with
  | zero => rfl
  | succ n ih => rw [List.replicate_succ, List.flatMap_cons, ih, hx, List.replicate_succ]; rfl

theorem noNul_longLine (n : Nat) : '\x00' ∉ (longLine n).toList := by
  rw [longLine, String.toList_ofList, List.mem_replicate]
  exact fun h => absurd h.2 (by decide)

/-- A line with a character of two bytes, one that is longer than a window, and an empty one. -/
def unevenLines : List String := ["é", longLine 4097, ""]

/-- The character of two bytes is cut by a read. -/
def unevenReads : Reads :=
  [.data [0xC3], .interrupted, .data ((unevenLines.flatMap Client.request).drop 1), .data []]

theorem framesOf_unevenLines : Client.framesOf unevenLines =
    [.command "é", .oversized, .command "x", .command ""] := by
  have hfirst : Frame.ofLine (Utf8.ofString "é") = [.command "é"] := rfl
  have hlong : Frame.ofLine (List.replicate 4097 0x78) = [.oversized, .command "x"] := by
    rw [Frame.ofLine_long (by rw [List.length_replicate]; decide), List.drop_replicate]
    rfl
  rw [Client.framesOf, unevenLines, List.flatMap_cons, List.flatMap_cons, ofString_longLine,
    hfirst, hlong]
  rfl

theorem calls_of_sent_uneven :
    (∀ line ∈ unevenLines, '\x00' ∉ line.toList) ∧ unevenReads.Unbroken ∧
      unevenReads.bytes = (Client.sendAll unevenLines { reader := { source := [] } }).sent ∧
      (calls 5 { source := unevenReads }).1 =
        [.ok (.command "é"), .ok .oversized, .ok (.command "x"), .ok (.command ""),
          .ok .closed] := by
  have hlines : ∀ line ∈ unevenLines, '\x00' ∉ line.toList := by
    simp [unevenLines, noNul_longLine]
  have hreads : unevenReads.Unbroken := by simp [unevenReads, Reads.Unbroken, Reads.bytes]
  have hbytes : unevenReads.bytes =
      (Client.sendAll unevenLines { reader := { source := [] } }).sent := by
    have htake : (unevenLines.flatMap Client.request).take 1 = [0xC3] := rfl
    have hsplit := List.take_append_drop 1 (unevenLines.flatMap Client.request)
    have hpieces : ∀ bs, Reads.bytes [.data [0xC3], .interrupted, .data bs, .data []] =
        [0xC3] ++ bs := by simp [Reads.bytes]
    rw [htake] at hsplit
    rw [Client.sent_sendAll, unevenReads, hpieces, hsplit, List.nil_append]
  refine ⟨hlines, hreads, hbytes, ?_⟩
  rw [(calls_of_sent hlines { source := [] } hreads hbytes).1 5, framesOf_unevenLines]
  rfl

end FrameReader
end PipeShell
