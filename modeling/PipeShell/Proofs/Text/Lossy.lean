import Mathlib.Algebra.Group.Nat.Defs
import PipeShell.Proofs.Text.Utf8

/-! Reading any bytes. A character begun by a byte above ASCII becomes one above ASCII or is
replaced by one, so an ASCII character comes from its own byte alone. -/
namespace PipeShell.Utf8

namespace Pending

/-- The least character that a character begun may become, with zeros for the bytes owed. -/
def least (p : Pending) : Nat := (p.bits * 0x40 + p.low.toNat % 0x40) * 0x40 ^ (p.owed - 1)

/-- One more than the greatest. -/
def limit (p : Pending) : Nat := (p.bits * 0x40 + p.high.toNat % 0x40 + 1) * 0x40 ^ (p.owed - 1)

/-- Whatever the bytes owed are, they make a character above ASCII. -/
structure Sound (p : Pending) : Prop where
  owed : p.owed = 1 ∨ p.owed = 2 ∨ p.owed = 3
  low : 0x80 ≤ p.low.toNat
  high : p.high.toNat ≤ 0xBF
  least : 0x80 ≤ p.least
  limit : p.limit ≤ 0xD800 ∨ 0xE000 ≤ p.least ∧ p.limit ≤ 0x110000

variable {b : UInt8} {p : Pending}

theorem sound_ofLead (h : ofLead b = some p) : p.Sound := by
  have hb := b.toNat_lt
  simp only [ofLead] at h
  repeat' split at h
  all_goals cases h
  all_goals constructor <;> simp [Pending.least, Pending.limit] <;> omega

theorem Sound.between (h : p.Sound) (hl : p.low ≤ b) (hh : b ≤ p.high) :
    p.low.toNat % 0x40 ≤ b.toNat % 0x40 ∧ b.toNat % 0x40 ≤ p.high.toNat % 0x40 := by
  have hlow := h.low
  have hhigh := h.high
  rw [UInt8.le_iff_toNat_le] at hl hh
  omega

theorem toNat_ofNat {n : Nat} (h : n < 0xD800 ∨ 0xDFFF < n ∧ n < 0x110000) :
    (Char.ofNat n).toNat = n := by
  have hvalid : n.isValidChar := h
  rw [Char.ofNat, dif_pos hvalid]
  rfl

/-- The last byte completes a character above ASCII. -/
theorem Sound.completed (h : p.Sound) (hl : p.low ≤ b) (hh : b ≤ p.high) (hn : p.owed = 1) :
    0x80 ≤ (Char.ofNat (p.bits * 0x40 + b.toNat % 0x40)).toNat := by
  obtain ⟨hlow, hhigh⟩ := h.between hl hh
  have hleast := h.least
  have hlimit := h.limit
  simp only [Pending.least, Pending.limit, hn] at hleast hlimit
  rw [toNat_ofNat (by omega)]
  omega

/-- Any other byte narrows down what the character begun may become. -/
theorem Sound.continued (h : p.Sound) (hl : p.low ≤ b) (hh : b ≤ p.high) (hn : ¬ p.owed ≤ 1) :
    Sound ⟨p.bits * 0x40 + b.toNat % 0x40, 0x80, 0xBF, p.owed - 1⟩ := by
  obtain ⟨hlow, hhigh⟩ := h.between hl hh
  have howed : p.owed = 2 ∨ p.owed = 3 := h.owed.resolve_left (by omega)
  let later : Pending := ⟨p.bits * 0x40 + b.toNat % 0x40, 0x80, 0xBF, p.owed - 1⟩
  have hleast : p.least ≤ later.least := by
    rcases howed with hn | hn <;> simp [Pending.least, later, hn] <;> omega
  have hlimit : later.limit ≤ p.limit := by
    rcases howed with hn | hn <;> simp [Pending.limit, later, hn] <;> omega
  refine ⟨?_, Nat.le_refl _, Nat.le_refl _, Nat.le_trans h.least hleast, ?_⟩
  · change p.owed - 1 = 1 ∨ p.owed - 1 = 2 ∨ p.owed - 1 = 3
    omega
  · rcases h.limit with hbelow | ⟨habove, hend⟩
    · exact Or.inl (Nat.le_trans hlimit hbelow)
    · exact Or.inr ⟨Nat.le_trans habove hleast, Nat.le_trans hlimit hend⟩

end Pending

variable {b : UInt8} {c : Char} {q : Option Pending}

theorem ascii_mem_first (hc : c.toNat < 0x80) (h : some c ∈ (first b).1) :
    c.toNat.toUInt8 = b := by
  simp only [first] at h
  split at h
  · case isTrue hb =>
    obtain rfl : c = Char.ofNat b.toNat := by simpa using h
    rw [Pending.toNat_ofNat (by omega)]
    simp
  · split at h
    · simp at h
    · simp at h

theorem sound_first (h : (first b).2 = some p) : p.Sound := by
  simp only [first] at h
  split at h
  · cases h
  · split at h
    · case h_1 lead hlead =>
      obtain rfl := Option.some.inj h
      exact Pending.sound_ofLead hlead
    · cases h

theorem ascii_mem_step (hq : ∀ p ∈ q, p.Sound) (hc : c.toNat < 0x80)
    (h : some c ∈ (step q b).1) : c.toNat.toUInt8 = b := by
  cases q with
  | none => exact ascii_mem_first hc h
  | some p =>
    have hp := hq p rfl
    simp only [step] at h
    split at h
    · case isTrue hin =>
      split at h
      · case isTrue hn =>
        obtain rfl : c = Char.ofNat (p.bits * 0x40 + b.toNat % 0x40) := by simpa using h
        have hone : p.owed = 1 := by
          rcases hp.owed with howed | howed | howed <;> omega
        have hhigh := hp.completed hin.1 hin.2 hone
        omega
      · simp at h
    · exact ascii_mem_first hc (by simpa using h)

theorem sound_step (hq : ∀ p ∈ q, p.Sound) : ∀ p ∈ (step q b).2, p.Sound := by
  intro p hp
  cases q with
  | none => exact sound_first hp
  | some begun =>
    have hbegun := hq begun rfl
    simp only [step] at hp
    split at hp
    · case isTrue hin =>
      split at hp
      · cases hp
      · case isFalse hn =>
        obtain rfl := Option.some.inj hp
        exact hbegun.continued hin.1 hin.2 hn
    · exact sound_first hp

theorem ascii_mem_pieces (hq : ∀ p ∈ q, p.Sound) (hc : c.toNat < 0x80) {bs : Bytes}
    (h : some c ∈ pieces q bs) : c.toNat.toUInt8 ∈ bs := by
  induction bs generalizing q with
  | nil => cases q <;> simp [pieces] at h
  | cons b bs ih =>
    rw [pieces] at h
    rcases List.mem_append.1 h with h | h
    · rw [ascii_mem_step hq hc h]
      exact List.mem_cons_self
    · exact List.mem_cons_of_mem _ (ih (sound_step hq) h)

/-- An ASCII character that is read is a byte of what was read. -/
theorem ascii_mem_decodeLossy (hc : c.toNat < 0x80) {bs : Bytes} (h : c ∈ decodeLossy bs) :
    c.toNat.toUInt8 ∈ bs := by
  obtain ⟨piece, hpiece, hread⟩ := List.mem_map.1 h
  cases piece with
  | none =>
    obtain rfl : replacement = c := hread
    exact absurd hc (by decide)
  | some d =>
    obtain rfl : d = c := hread
    exact ascii_mem_pieces (by simp) hc hpiece

end PipeShell.Utf8
