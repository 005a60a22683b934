import PipeShell.Proofs.Wire.Calls

/-! Streams that do not fail and that end only when all their bytes have been read. A reader of
such a stream finds one frame after the other, and then the end. -/
namespace PipeShell

/-- No read fails, and a read brings no bytes only when none are left. -/
def Reads.Unbroken : Reads → Prop
  | [] => True
  | .data bs :: rs => (bs = [] → Reads.bytes rs = []) ∧ Unbroken rs
  | .interrupted :: rs => Unbroken rs
  | .wouldBlock :: _ => False

namespace Reads

variable {room : Nat} {rs later : Reads} {bs : Bytes}

theorem unbroken_take (h : Unbroken rs) (ht : take room rs = (.data bs, later)) :
    Unbroken later := by
  cases rs with
  | nil =>
    obtain ⟨-, rfl⟩ := by simpa [take] using ht
    exact h
  | cons r rs =>
    cases r with
    | interrupted => simp [take] at ht
    | wouldBlock => exact h.elim
    | data cs =>
      obtain ⟨-, rfl⟩ := by simpa [take] using ht
      obtain ⟨-, hrest⟩ := h
      by_cases hroom : room < cs.length
      · rw [if_pos hroom]
        refine ⟨?_, hrest⟩
        intro hnil
        have := List.drop_eq_nil_iff.1 hnil
        omega
      · rwa [if_neg hroom]

theorem bytes_skip (n : Nat) (rs : Reads) : (skip n rs).bytes = rs.bytes.drop n := by
  induction rs generalizing n with
  | nil => cases n <;> simp [skip, bytes]
  | cons r rs ih =>
    cases n with
    | zero => rfl
    | succ n =>
      cases r with
      | interrupted => exact ih (n + 1)
      | wouldBlock => exact ih (n + 1)
      | data bs =>
        rw [skip, bytes_cons, Read.bytes]
        · by_cases hlt : n + 1 < bs.length
          · rw [if_pos hlt, bytes_cons, List.drop_append_of_le_length (by omega)]
            rfl
          · have hnil : bs.drop (n + 1) = [] := List.drop_of_length_le (by omega)
            rw [if_neg hlt, ih, List.drop_append, hnil]
            rfl
        · simp

end Reads

namespace FrameReader

/-- A reader of an unbroken stream finds the first frame of all bytes to come, or there is none. -/
theorem next_unbroken {r : FrameReader} (h : r.source.Unbroken) :
    (∃ f, r.next.1 = .ok f ∧ f ≠ .closed ∧ r.next.2.source.Unbroken ∧
      (Frame.split (r.buffer ++ r.source.bytes)).1 =
        f :: (Frame.split (r.next.2.buffer ++ r.next.2.source.bytes)).1) ∨
    r.next.1 = .ok .closed ∧ (Frame.split (r.buffer ++ r.source.bytes)).1 = [] := by
  fun_induction next r with
  | case1 r f rest hr =>
    refine Or.inl ⟨f, rfl, Frame.ready?_ne_closed hr, h, ?_⟩
    rw [Frame.split_of_ready (Frame.ready?_append hr r.source.bytes)]
  | case2 r hr hs =>
    refine Or.inr ⟨rfl, ?_⟩
    simp [hs, Reads.bytes, Frame.split_of_not_ready hr]
  | case3 r hr event rs hs later ht ih =>
    obtain ⟨rfl, rfl⟩ := Reads.take_interrupted ht
    rw [hs] at h ⊢
    exact ih h
  | case4 r hr event rs hs later ht =>
    obtain ⟨rfl, rfl⟩ := Reads.take_wouldBlock ht
    rw [hs] at h
    exact h.elim
  | case5 r hr event rs hs later ht =>
    obtain ⟨rfl, rfl⟩ := Reads.take_nothing (by decide) ht
    rw [hs] at h ⊢
    have hnil : Reads.bytes (.data [] :: rs) = [] := h.1 rfl
    refine Or.inr ⟨rfl, ?_⟩
    rw [hnil, List.append_nil, Frame.split_of_not_ready hr]
  | case6 r hr event rs hs b bs later ht ih =>
    rw [hs] at h ⊢
    rw [Reads.bytes_take ht, Read.bytes, ← List.append_assoc]
    exact ih (Reads.unbroken_take h ht)

theorem next_of_buffered {r : FrameReader} {f : Frame} {rest : Bytes}
    (h : Frame.ready? r.buffer = some (f, rest)) : r.next = (.ok f, { r with buffer := rest }) := by
  rw [next]
  simp only [h]

/-- A request that fits is read as a whole by the first read. -/
theorem next_of_one_read {request : Bytes} (hne : request ≠ [])
    (hlen : request.length ≤ Frame.windowSize) :
    next { source := [.data request] } = next { buffer := request, source := [] } := by
  obtain ⟨b, bs, rfl⟩ := List.exists_cons_of_ne_nil hne
  have hready : Frame.ready? [] = none := rfl
  have htake : Reads.take Frame.windowSize [.data (b :: bs)] = (.data (b :: bs), []) := by
    simp only [Reads.take]
    rw [List.take_of_length_le hlen, if_neg (Nat.not_lt.2 hlen)]
  rw [next]
  simp only [hready]
  split
  · case h_1 later ht => simp [htake] at ht
  · case h_2 later ht => simp [htake] at ht
  · case h_3 later ht => simp [htake] at ht
  · case h_4 c cs later ht =>
    obtain ⟨⟨rfl, rfl⟩, rfl⟩ := by simpa [htake] using ht
    rfl

end FrameReader
end PipeShell
