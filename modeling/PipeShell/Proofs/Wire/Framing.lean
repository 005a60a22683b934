import PipeShell.Proofs.Text.Lines
import PipeShell.Wire.Frame

/-! Frames come from the bytes of a stream alone, however the stream is cut into reads. A frame
that is ready stays ready when more bytes arrive, so a byte string may be split piece by piece. -/
namespace PipeShell

namespace Frame

/-- A frame as it stands on the wire: the bytes of a request, or a window that is dropped. -/
inductive Raw
  | request (line : Bytes)
  | dropped
deriving DecidableEq, Repr

/-- The frames of a byte string as they stand on the wire, and what is begun at its end. -/
def cut (bs : Bytes) : List Raw × Bytes :=
  if 0 ∈ bs.take 4096 then
    let later := cut (bs.drop (bs.idxOf 0 + 1))
    (.request (bs.take (bs.idxOf 0)) :: later.1, later.2)
  else if 4096 ≤ bs.length then
    let later := cut (bs.drop 4096)
    (.dropped :: later.1, later.2)
  else ([], bs)
termination_by bs.length
decreasing_by
  · have hpos := List.length_pos_of_mem (List.mem_of_mem_take ‹0 ∈ bs.take 4096›)
    rw [List.length_drop]
    omega
  · rw [List.length_drop]
    omega

/-- What a reader makes of the bytes of a frame. -/
def Raw.frame : Raw → Frame
  | .request line => .command (Utf8.toStringLossy line)
  | .dropped => .oversized

/-- The frames of a byte string, and the frame that is begun at its end. -/
def split (bs : Bytes) : List Frame × Bytes := ((cut bs).1.map Raw.frame, (cut bs).2)

variable {bs more rest : Bytes} {f : Frame}

theorem idxOf_window (h : 0 ∈ bs.take windowSize) :
    (bs.take windowSize).idxOf 0 = bs.idxOf 0 ∧ bs.idxOf 0 < min bs.length windowSize := by
  have hidx : (bs.take windowSize).idxOf 0 = bs.idxOf 0 := by
    conv_rhs => rw [← List.take_append_drop windowSize bs, List.idxOf_append_of_mem h]
  have hlt := List.idxOf_lt_length_iff.2 h
  rw [hidx, List.length_take, Nat.min_comm] at hlt
  exact ⟨hidx, hlt⟩

theorem takeWhile_window_of_mem (h : 0 ∈ bs.take windowSize) :
    (bs.take windowSize).takeWhile (· != requestEnd) = bs.take (bs.idxOf 0) := by
  obtain ⟨hidx, hlt⟩ := idxOf_window h
  have hnot : (fun b : UInt8 => !(b != requestEnd)) = (· == 0) := by
    funext b
    simp [requestEnd, bne]
  rw [List.takeWhile_eq_take_findIdx_not, hnot, ← List.idxOf, hidx, List.take_take,
    Nat.min_eq_left (by omega)]

theorem takeWhile_window_of_not_mem (h : 0 ∉ bs.take windowSize) :
    (bs.take windowSize).takeWhile (· != requestEnd) = bs.take windowSize :=
  Text.takeWhile_of_not_mem h

theorem ready?_eq_command (h : 0 ∈ bs.take windowSize) : ready? bs =
    some (.command (Utf8.toStringLossy (bs.take (bs.idxOf 0))), bs.drop (bs.idxOf 0 + 1)) := by
  have hlt := (idxOf_window h).2
  have hlen : (bs.take (bs.idxOf 0)).length = bs.idxOf 0 := by
    rw [List.length_take]
    omega
  simp only [ready?, takeWhile_window_of_mem h, hlen, hlt, if_true]

theorem ready?_eq_oversized (h : 0 ∉ bs.take windowSize) (hlen : windowSize ≤ bs.length) :
    ready? bs = some (.oversized, bs.drop windowSize) := by
  simp [ready?, takeWhile_window_of_not_mem h, hlen]

theorem ready?_eq_none (h : 0 ∉ bs.take windowSize) (hlen : bs.length < windowSize) :
    ready? bs = none := by
  simp [ready?, takeWhile_window_of_not_mem h, Nat.not_le.2 hlen, Nat.min_comm]

/-- What is at the head of the bytes, by the three cases of the split. -/
theorem ready?_cases (bs : Bytes) :
    (0 ∈ bs.take windowSize ∧ ready? bs = some
      (.command (Utf8.toStringLossy (bs.take (bs.idxOf 0))), bs.drop (bs.idxOf 0 + 1))) ∨
    (0 ∉ bs.take windowSize ∧ windowSize ≤ bs.length ∧
      ready? bs = some (.oversized, bs.drop windowSize)) ∨
    (0 ∉ bs.take windowSize ∧ bs.length < windowSize ∧ ready? bs = none) := by
  by_cases h : 0 ∈ bs.take windowSize
  · exact Or.inl ⟨h, ready?_eq_command h⟩
  · rcases Nat.lt_or_ge bs.length windowSize with hlen | hlen
    · exact Or.inr (Or.inr ⟨h, hlen, ready?_eq_none h hlen⟩)
    · exact Or.inr (Or.inl ⟨h, hlen, ready?_eq_oversized h hlen⟩)

/-- The first frame of a line without NUL and of what stands behind it. -/
theorem ready?_line (h : 0 ∉ bs) (more : Bytes) :
    ready? (bs ++ 0 :: more) =
      if bs.length < 4096 then some (.command (Utf8.toStringLossy bs), more)
      else some (.oversized, bs.drop 4096 ++ 0 :: more) := by
  split
  · case isTrue hlen =>
    have hidx : (bs ++ 0 :: more).idxOf 0 = bs.length := by
      rw [List.idxOf_append_of_notMem h, List.idxOf_cons_self, Nat.add_zero]
    have hmem : 0 ∈ (bs ++ 0 :: more).take windowSize := by
      obtain ⟨room, hroom⟩ := Nat.exists_eq_add_of_lt hlen
      have hwindow : windowSize = bs.length + (room + 1) := hroom
      rw [hwindow, List.take_length_add_append, List.take_succ_cons]
      exact List.mem_append_right _ List.mem_cons_self
    rw [ready?_eq_command hmem, hidx, List.take_left, List.drop_append]
    simp
  · case isFalse hlen =>
    have hwindow : windowSize ≤ bs.length := Nat.not_lt.1 hlen
    have hmem : 0 ∉ (bs ++ 0 :: more).take windowSize := by
      rw [List.take_append_of_le_length hwindow]
      exact fun hzero => h (List.mem_of_mem_take hzero)
    rw [ready?_eq_oversized hmem (by rw [List.length_append]; omega),
      List.drop_append_of_le_length hwindow]
    rfl

theorem split_of_ready (h : ready? bs = some (f, rest)) :
    split bs = (f :: (split rest).1, (split rest).2) := by
  rcases ready?_cases bs with ⟨hmem, hr⟩ | ⟨hmem, hlen, hr⟩ | ⟨_, _, hr⟩
  · obtain ⟨rfl, rfl⟩ := by simpa using hr.symm.trans h
    have hcut : cut bs = (.request (bs.take (bs.idxOf 0)) :: (cut (bs.drop (bs.idxOf 0 + 1))).1,
        (cut (bs.drop (bs.idxOf 0 + 1))).2) := by
      rw [cut]
      exact if_pos hmem
    rw [split, hcut]
    rfl
  · obtain ⟨rfl, rfl⟩ := by simpa using hr.symm.trans h
    have hcut : cut bs =
        (.dropped :: (cut (bs.drop windowSize)).1, (cut (bs.drop windowSize)).2) := by
      rw [cut]
      exact (if_neg hmem).trans (if_pos hlen)
    rw [split, hcut]
    rfl
  · rw [hr] at h
    cases h

theorem split_of_not_ready (h : ready? bs = none) : split bs = ([], bs) := by
  rcases ready?_cases bs with ⟨_, hr⟩ | ⟨_, _, hr⟩ | ⟨hmem, hlen, _⟩
  · rw [hr] at h
    cases h
  · rw [hr] at h
    cases h
  · have hcut : cut bs = ([], bs) := by
      rw [cut]
      exact (if_neg hmem).trans (if_neg (Nat.not_le.2 hlen))
    rw [split, hcut]
    rfl

theorem ready?_ne_closed (h : ready? bs = some (f, rest)) : f ≠ .closed := by
  rintro rfl
  rcases ready?_cases bs with ⟨_, hr⟩ | ⟨_, _, hr⟩ | ⟨_, _, hr⟩ <;> simp [hr] at h

/-- Bytes that come later change nothing in a frame that is ready. -/
theorem ready?_append (h : ready? bs = some (f, rest)) (more : Bytes) :
    ready? (bs ++ more) = some (f, rest ++ more) := by
  rcases ready?_cases bs with ⟨hmem, hr⟩ | ⟨hmem, hlen, hr⟩ | ⟨_, _, hr⟩
  · obtain ⟨rfl, rfl⟩ := by simpa using hr.symm.trans h
    have hlt := (idxOf_window hmem).2
    have hidx : (bs ++ more).idxOf 0 = bs.idxOf 0 :=
      List.idxOf_append_of_mem (List.mem_of_mem_take hmem)
    have hmem' : 0 ∈ (bs ++ more).take windowSize := by
      rw [List.take_append]
      exact List.mem_append_left _ hmem
    rw [ready?_eq_command hmem', hidx, List.take_append_of_le_length (by omega),
      List.drop_append_of_le_length (by omega)]
  · obtain ⟨rfl, rfl⟩ := by simpa using hr.symm.trans h
    have hmem' : 0 ∉ (bs ++ more).take windowSize := by
      rwa [List.take_append_of_le_length hlen]
    rw [ready?_eq_oversized hmem' (by rw [List.length_append]; omega),
      List.drop_append_of_le_length hlen]
  · rw [hr] at h
    cases h

/-- Splitting what came first, and then its rest with what came later, is splitting all of it. -/
theorem split_append (bs more : Bytes) : split (bs ++ more) =
    ((split bs).1 ++ (split ((split bs).2 ++ more)).1, (split ((split bs).2 ++ more)).2) := by
  induction h : bs.length using Nat.strongRecOn generalizing bs with
  | ind n ih =>
    cases hr : ready? bs with
    | none =>
      rw [split_of_not_ready hr]
      rfl
    | some p =>
      obtain ⟨f, rest⟩ := p
      have hlen := ready?_length hr
      rw [split_of_ready (ready?_append hr more), split_of_ready hr,
        ih rest.length (by omega) rest rfl]
      rfl

/-- Nothing more is ready in what a split leaves. -/
theorem ready?_split (bs : Bytes) : ready? (split bs).2 = none := by
  induction h : bs.length using Nat.strongRecOn generalizing bs with
  | ind n ih =>
    cases hr : ready? bs with
    | none => rwa [split_of_not_ready hr]
    | some p =>
      obtain ⟨f, rest⟩ := p
      have hlen := ready?_length hr
      rw [split_of_ready hr]
      exact ih rest.length (by omega) rest rfl

end Frame
end PipeShell
