import Mathlib.Algebra.GroupWithZero.Nat
import PipeShell.Text.Utf8

/-! Reading what was written. Every character comes back, and only ASCII characters have ASCII
bytes. -/
namespace PipeShell.Utf8

theorem toNat_toUInt8 {n : Nat} (h : n < 0x100) : n.toUInt8.toNat = n := by
  simp [Nat.toUInt8, Nat.mod_eq_of_lt h]

section Bytes

variable {a b : UInt8} {p : Pending} {bits k n : Nat} {low high : UInt8} (bs : Bytes)

theorem pieces_lead (hb : 0x80 ≤ b.toNat) (hp : Pending.ofLead b = some p) :
    pieces none (b :: bs) = pieces (some p) bs := by
  have hn : ¬ b.toNat < 0x80 := by omega
  simp [pieces, step, first, hn, hp]

/-- A byte in the range that is asked for gives its six low bits to the character begun. -/
theorem pieces_continuation {owed : Nat} (hb : b.toNat = 0x80 + k) (hk : k < 0x40)
    (hl : low.toNat ≤ 0x80 + k) (hh : 0x80 + k ≤ high.toNat) :
    pieces (some ⟨bits, low, high, owed + 2⟩) (b :: bs) =
      pieces (some ⟨bits * 0x40 + k, 0x80, 0xBF, owed + 1⟩) bs := by
  have hm : (0x80 + k) % 0x40 = k := by omega
  simp [pieces, step, UInt8.le_iff_toNat_le, hb, hl, hh, hm]

theorem pieces_last (hb : b.toNat = 0x80 + k) (hk : k < 0x40)
    (hl : low.toNat ≤ 0x80 + k) (hh : 0x80 + k ≤ high.toNat) :
    pieces (some ⟨bits, low, high, 1⟩) (b :: bs) =
      some (Char.ofNat (bits * 0x40 + k)) :: pieces none bs := by
  have hm : (0x80 + k) % 0x40 = k := by omega
  simp [pieces, step, UInt8.le_iff_toNat_le, hb, hl, hh, hm]

theorem ofLead_two (ha : a.toNat = 0xC0 + n / 0x40) (hl : 0x80 ≤ n) (hh : n < 0x800) :
    Pending.ofLead a = some ⟨n / 0x40, 0x80, 0xBF, 1⟩ := by
  have hm : (0xC0 + n / 0x40) % 0x20 = n / 0x40 := by omega
  simp only [Pending.ofLead, ha, hm]
  rw [if_neg (by omega), if_pos (by omega)]

/-- The second byte of three is in the range that its first byte asks for: no character has
fewer bytes, and none is a surrogate. -/
theorem ofLead_three (ha : a.toNat = 0xE0 + n / 0x1000) (hl : 0x800 ≤ n) (hh : n < 0x10000)
    (hs : n < 0xD800 ∨ 0xDFFF < n) :
    ∃ low high : UInt8, Pending.ofLead a = some ⟨n / 0x1000, low, high, 2⟩ ∧
      low.toNat ≤ 0x80 + n / 0x40 % 0x40 ∧ 0x80 + n / 0x40 % 0x40 ≤ high.toNat := by
  have hm : (0xE0 + n / 0x1000) % 0x10 = n / 0x1000 := by omega
  simp only [Pending.ofLead, ha, hm]
  rw [if_neg (by omega), if_neg (by omega)]
  by_cases h0 : n / 0x1000 = 0
  · refine ⟨0xA0, 0xBF, by rw [if_pos (by omega)], ?_⟩
    simp only [UInt8.reduceToNat]
    omega
  by_cases hd : n / 0x1000 = 0xD
  · refine ⟨0x80, 0x9F, by rw [if_neg (by omega), if_pos (by omega)], ?_⟩
    simp only [UInt8.reduceToNat]
    omega
  · refine ⟨0x80, 0xBF, by rw [if_neg (by omega), if_neg (by omega), if_pos (by omega)], ?_⟩
    simp only [UInt8.reduceToNat]
    omega

theorem ofLead_four (ha : a.toNat = 0xF0 + n / 0x40000) (hl : 0x10000 ≤ n) (hh : n < 0x110000) :
    ∃ low high : UInt8, Pending.ofLead a = some ⟨n / 0x40000, low, high, 3⟩ ∧
      low.toNat ≤ 0x80 + n / 0x1000 % 0x40 ∧ 0x80 + n / 0x1000 % 0x40 ≤ high.toNat := by
  have hm : (0xF0 + n / 0x40000) % 0x08 = n / 0x40000 := by omega
  simp only [Pending.ofLead, ha, hm]
  rw [if_neg (by omega), if_neg (by omega), if_neg (by omega), if_neg (by omega),
    if_neg (by omega)]
  by_cases h0 : n / 0x40000 = 0
  · refine ⟨0x90, 0xBF, by rw [if_pos (by omega)], ?_⟩
    simp only [UInt8.reduceToNat]
    omega
  by_cases h4 : n / 0x40000 = 4
  · refine ⟨0x80, 0x8F, by rw [if_neg (by omega), if_neg (by omega), if_pos (by omega)], ?_⟩
    simp only [UInt8.reduceToNat]
    omega
  · refine ⟨0x80, 0xBF, by rw [if_neg (by omega), if_pos (by omega)], ?_⟩
    simp only [UInt8.reduceToNat]
    omega

end Bytes

theorem pieces_encodeChar (c : Char) (bs : Bytes) :
    pieces none (encodeChar c ++ bs) = some c :: pieces none bs := by
  have hv : c.toNat < 0xD800 ∨ 0xDFFF < c.toNat ∧ c.toNat < 0x110000 := c.valid
  have hc : Char.ofNat c.toNat = c := Char.ofNat_toNat c
  simp only [encodeChar]
  generalize c.toNat = n at hv hc
  have low : ∀ m, (0x80 + m % 0x40).toUInt8.toNat = 0x80 + m % 0x40 := by
    intro m
    exact toNat_toUInt8 (by omega)
  have high : ∀ m, 0x80 + m % 0x40 ≤ (0xBF : UInt8).toNat := by
    intro m
    have hb : (0xBF : UInt8).toNat = 0xBF := rfl
    omega
  by_cases h1 : n < 0x80
  · have hb := toNat_toUInt8 (n := n) (by omega)
    simp [pieces, step, first, h1, hb, hc]
  by_cases h2 : n < 0x800
  · have ha := toNat_toUInt8 (n := 0xC0 + n / 0x40) (by omega)
    have he : n / 0x40 * 0x40 + n % 0x40 = n := by omega
    simp only [h1, h2, if_true, if_false, List.cons_append, List.nil_append]
    rw [pieces_lead _ (by omega) (ofLead_two ha (by omega) h2),
      pieces_last _ (low _) (by omega) (Nat.le_add_right _ _) (high _),
      he, hc]
  by_cases h3 : n < 0x10000
  · have ha := toNat_toUInt8 (n := 0xE0 + n / 0x1000) (by omega)
    obtain ⟨l, h, hp, hl, hh⟩ := ofLead_three ha (by omega) h3 (by omega)
    have he : (n / 0x1000 * 0x40 + n / 0x40 % 0x40) * 0x40 + n % 0x40 = n := by omega
    simp only [h1, h2, h3, if_true, if_false, List.cons_append, List.nil_append]
    rw [pieces_lead _ (by omega) hp, pieces_continuation _ (low _) (by omega) hl hh,
      pieces_last _ (low _) (by omega) (Nat.le_add_right _ _) (high _),
      he, hc]
  · have ha := toNat_toUInt8 (n := 0xF0 + n / 0x40000) (by omega)
    obtain ⟨l, h, hp, hl, hh⟩ := ofLead_four ha (by omega) (by omega)
    have he : ((n / 0x40000 * 0x40 + n / 0x1000 % 0x40) * 0x40 + n / 0x40 % 0x40) * 0x40
      + n % 0x40 = n := by omega
    simp only [h1, h2, h3, if_false, List.cons_append, List.nil_append]
    rw [pieces_lead _ (by omega) hp, pieces_continuation _ (low _) (by omega) hl hh,
      pieces_continuation _ (low _) (by omega) (Nat.le_add_right _ _) (high _),
      pieces_last _ (low _) (by omega) (Nat.le_add_right _ _) (high _),
      he, hc]

theorem encode_cons (c : Char) (cs : List Char) : encode (c :: cs) = encodeChar c ++ encode cs :=
  List.flatMap_cons

theorem encode_append (cs ds : List Char) : encode (cs ++ ds) = encode cs ++ encode ds :=
  List.flatMap_append

theorem size_append (s t : String) : size (s ++ t) = size s + size t := by
  rw [size, ofString, String.toList_append, encode_append, List.length_append]
  rfl

/-- Every part but the first comes with a separator. -/
theorem size_intercalate (sep t : String) (ts : List String) :
    size (String.intercalate sep (t :: ts)) =
      size t + (ts.map fun u => size sep + size u).sum := by
  induction ts generalizing t with
  | nil => rfl
  | cons u ts ih =>
    rw [String.intercalate_cons_cons, size_append, size_append, ih, List.map_cons, List.sum_cons]
    omega

theorem pieces_encode (cs : List Char) : pieces none (encode cs) = cs.map some := by
  induction cs with
  | nil => rfl
  | cons c cs ih => rw [encode_cons, pieces_encodeChar, ih, List.map_cons]

theorem decodeLossy_encode (cs : List Char) : decodeLossy (encode cs) = cs := by
  simp [decodeLossy, pieces_encode, Function.comp_def]

theorem toStringLossy_encode (cs : List Char) : toStringLossy (encode cs) = String.ofList cs := by
  rw [toStringLossy, decodeLossy_encode]

theorem decode?_encode (cs : List Char) : decode? (encode cs) = some cs := by
  rw [decode?, pieces_encode]
  induction cs with
  | nil => rfl
  | cons c cs ih => simp [ih]

theorem toString?_ofString (s : String) : toString? (ofString s) = some s := by
  rw [toString?, ofString, decode?_encode, Option.map_some, String.ofList_toList]

theorem encodeChar_ascii {c : Char} (h : c.toNat < 0x80) : encodeChar c = [c.toNat.toUInt8] := by
  simp [encodeChar, h]

/-- No byte of a character above ASCII is an ASCII byte. -/
theorem high_of_mem_encodeChar {c : Char} (h : 0x80 ≤ c.toNat) {b : UInt8}
    (hb : b ∈ encodeChar c) : 0x80 ≤ b.toNat := by
  have hv : c.toNat < 0xD800 ∨ 0xDFFF < c.toNat ∧ c.toNat < 0x110000 := c.valid
  simp only [encodeChar] at hb
  generalize c.toNat = n at h hv hb
  have high : ∀ m, 0x80 ≤ m → m < 0x100 → 0x80 ≤ m.toUInt8.toNat := by
    intro m hl hh
    rw [toNat_toUInt8 hh]
    exact hl
  split at hb
  · omega
  split at hb
  · simp only [List.mem_cons, List.not_mem_nil, or_false] at hb
    rcases hb with rfl | rfl <;> exact high _ (by omega) (by omega)
  split at hb
  · simp only [List.mem_cons, List.not_mem_nil, or_false] at hb
    rcases hb with rfl | rfl | rfl <;> exact high _ (by omega) (by omega)
  · simp only [List.mem_cons, List.not_mem_nil, or_false] at hb
    rcases hb with rfl | rfl | rfl | rfl <;> exact high _ (by omega) (by omega)

theorem encodeChar_ne_nil (c : Char) : encodeChar c ≠ [] := by
  simp only [encodeChar]
  split
  · simp
  split
  · simp
  split <;> simp

/-- Among the ASCII characters the byte tells the character. -/
theorem toUInt8_inj {c d : Char} (hc : c.toNat < 0x80) (hd : d.toNat < 0x80) :
    c.toNat.toUInt8 = d.toNat.toUInt8 ↔ c = d := by
  constructor
  · intro h
    have hn := congrArg UInt8.toNat h
    rw [toNat_toUInt8 (by omega), toNat_toUInt8 (by omega)] at hn
    exact Char.toNat_inj.1 hn
  · rintro rfl
    rfl

/-- A byte of a character is an ASCII byte only if the character is that ASCII character. -/
theorem eq_ascii_iff {c d : Char} {b : UInt8} (hb : b ∈ encodeChar c) (hd : d.toNat < 0x80) :
    b = d.toNat.toUInt8 ↔ c = d := by
  by_cases hc : c.toNat < 0x80
  · obtain rfl : b = c.toNat.toUInt8 := by simpa [encodeChar_ascii hc] using hb
    exact toUInt8_inj hc hd
  · have hn := high_of_mem_encodeChar (by omega) hb
    constructor
    · rintro rfl
      rw [toNat_toUInt8 (by omega)] at hn
      omega
    · rintro rfl
      exact (hc hd).elim

/-- The ASCII bytes of a text are its ASCII characters. -/
theorem ascii_mem_ofString {d : Char} {s : String} (hd : d.toNat < 0x80) :
    d.toNat.toUInt8 ∈ ofString s ↔ d ∈ s.toList := by
  simp only [ofString, encode, List.mem_flatMap]
  constructor
  · rintro ⟨c, hc, hb⟩
    obtain rfl : c = d := (eq_ascii_iff hb hd).1 rfl
    exact hc
  · intro hc
    refine ⟨d, hc, ?_⟩
    rw [encodeChar_ascii hd]
    exact List.mem_singleton_self _

end PipeShell.Utf8
