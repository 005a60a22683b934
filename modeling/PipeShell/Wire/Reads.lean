import PipeShell.Text.Utf8

/-!
What the reads of a stream give, written down before they are made. When the list is used up,
every further read gives no bytes, which is how a stream tells its end.
-/
namespace PipeShell

inductive Read
  | data (bytes : Bytes)
  | interrupted
  | wouldBlock
deriving DecidableEq, Repr

abbrev Reads := List Read

/-- A failed read that is handed to the caller. Interrupted reads are made again instead. -/
inductive ReadFailure
  | wouldBlock
deriving DecidableEq, Repr

namespace Reads

/-- One read of at most `room` bytes. More bytes than that are left for the next read. -/
def take (room : Nat) : Reads → Read × Reads
  | [] => (.data [], [])
  | .data bs :: rs =>
    (.data (bs.take room), if room < bs.length then .data (bs.drop room) :: rs else rs)
  | r :: rs => (r, rs)

/-- Every byte that is still to come. -/
def bytes (rs : Reads) : Bytes :=
  rs.flatMap fun
    | .data bs => bs
    | _ => []

/-- The reads left when `n` bytes have been taken by somebody else. -/
def skip : Nat → Reads → Reads
  | 0, rs => rs
  | _, [] => []
  | n, .data bs :: rs => if n < bs.length then .data (bs.drop n) :: rs else skip (n - bs.length) rs
  | n, r :: rs => r :: skip n rs

/-- Bounds the reads that can still be made. -/
def weight : Reads → Nat
  | [] => 0
  | .data bs :: rs => bs.length + 1 + weight rs
  | _ :: rs => 1 + weight rs

theorem weight_take_lt (room : Nat) (hr : 0 < room) (r : Read) (rs : Reads) :
    weight (take room (r :: rs)).2 < weight (r :: rs) := by
  cases r with
  | data bs =>
    simp only [take]
    split <;> simp only [weight, List.length_drop] <;> omega
  | interrupted => simp [take, weight]
  | wouldBlock => simp [take, weight]

theorem weight_take_data {room : Nat} {rs later : Reads} {bs : Bytes}
    (h : take room rs = (.data bs, later)) : bs.length + weight later ≤ weight rs := by
  cases rs with
  | nil =>
    obtain ⟨rfl, rfl⟩ := by simpa [take] using h
    simp [weight]
  | cons r rs =>
    cases r with
    | data cs =>
      obtain ⟨rfl, rfl⟩ := by simpa [take] using h
      split
      · simp only [weight, List.length_take, List.length_drop]
        omega
      · simp only [weight, List.length_take]
        omega
    | interrupted => simp [take] at h
    | wouldBlock => simp [take] at h

theorem weight_skip_le (n : Nat) (rs : Reads) : weight (skip n rs) ≤ weight rs := by
  induction rs generalizing n with
  | nil => cases n <;> simp [skip]
  | cons r rs ih =>
    cases n with
    | zero => simp [skip]
    | succ n =>
      cases r with
      | data bs =>
        simp only [skip]
        split
        · simp [weight]
        · have := ih (n + 1 - bs.length)
          simp only [weight]
          omega
      | interrupted =>
        have := ih (n + 1)
        simp only [skip, weight]
        omega
      | wouldBlock =>
        have := ih (n + 1)
        simp only [skip, weight]
        omega

end Reads
end PipeShell
