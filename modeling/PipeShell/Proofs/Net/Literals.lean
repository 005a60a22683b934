import PipeShell.Net.Address
import PipeShell.Proofs.Net.Groups

/-! Texts that are read as an IP address: the text of every address is one of them, they are made of
few characters, and one without colons is the text of an IPv4 address. -/
namespace PipeShell

/-- What the text of an IP address is made of. -/
def IpAddress.isLetter (c : Char) : Bool := Text.isDigit 16 c || c == ':' || c == '.'

open IpAddress (isLetter)

namespace Text

variable {c : Char}

theorem isDigit_mono {b b' : Nat} (hb : b ≤ b') (h : isDigit b c = true) : isDigit b' c = true := by
  simp only [isDigit] at h ⊢
  split at h
  · case h_1 d _ =>
    have hd : d < b := by simpa using h
    simpa using Nat.lt_of_lt_of_le hd hb
  · cases h

theorem isBlank_of_isDigit (h : isDigit 16 c = true) : isBlank c = false := by
  simp only [isDigit, digitValue?] at h
  simp only [isBlank, Bool.or_eq_false_iff, Bool.and_eq_false_iff, decide_eq_false_iff_not,
    beq_eq_false_iff_ne]
  split at h
  · case h_1 d hd =>
    split at hd
    · omega
    split at hd
    · omega
    split at hd
    · omega
    · cases hd
  · cases h

theorem trimChars_of_not_blank {cs : List Char} (h : ∀ c ∈ cs, isBlank c = false) :
    trimChars cs = cs := by
  have hkeep : ∀ ds : List Char, (∀ c ∈ ds, isBlank c = false) → ds.dropWhile isBlank = ds := by
    rintro (_ | ⟨d, ds⟩) hds
    · rfl
    · rw [List.dropWhile_cons, hds d List.mem_cons_self]
      rfl
  rw [trimChars, trimEndChars, hkeep cs h, hkeep cs.reverse (by simpa using h),
    List.reverse_reverse]

end Text

namespace IpAddress

variable {c : Char}

theorem isLetter_of_isDigit (h : Text.isDigit 16 c = true) : isLetter c = true := by
  simp [isLetter, h]

theorem isBlank_of_isLetter (h : isLetter c = true) : Text.isBlank c = false := by
  simp only [isLetter, Bool.or_eq_true, beq_iff_eq] at h
  rcases h with (h | rfl) | rfl
  · exact Text.isBlank_of_isDigit h
  · decide
  · decide

end IpAddress

theorem Ipv4.letters (a : Ipv4) : ∀ c ∈ a.text.toList, isLetter c = true := by
  intro c hc
  rcases Ipv4.digit_or_dot_of_mem hc with h | rfl
  · exact IpAddress.isLetter_of_isDigit (Text.isDigit_mono (by decide) h)
  · decide

namespace Ipv6

variable {a : Ipv6} {cs rest : List Char}

/-- Something at the head of a text, made of the characters of addresses. -/
def Takes (cs rest : List Char) : Prop :=
  ∃ taken, cs = taken ++ rest ∧ ∀ c ∈ taken, isLetter c = true

theorem Takes.refl (cs : List Char) : Takes cs cs := ⟨[], rfl, by simp⟩

theorem Takes.trans {mid : List Char} (h : Takes cs mid) (h' : Takes mid rest) : Takes cs rest := by
  obtain ⟨first, rfl, hfirst⟩ := h
  obtain ⟨second, rfl, hsecond⟩ := h'
  refine ⟨first ++ second, (List.append_assoc _ _ _).symm, ?_⟩
  intro c hc
  rcases List.mem_append.1 hc with hc | hc
  · exact hfirst c hc
  · exact hsecond c hc

theorem takes_of_scanColon (h : scanColon cs = some rest) : Takes cs rest := by
  simp only [scanColon] at h
  split at h
  · obtain rfl := Option.some.inj h
    exact ⟨[':'], rfl, List.forall_mem_singleton.2 (by decide)⟩
  · cases h

theorem takes_of_scanGroup {g : UInt16} (h : scanGroup cs = some (g, rest)) : Takes cs rest := by
  simp only [scanGroup] at h
  split at h
  · cases h
  · obtain ⟨-, rfl⟩ := Prod.mk.inj (Option.some.inj h)
    exact ⟨_, List.takeWhile_append_dropWhile.symm,
      fun c hc => IpAddress.isLetter_of_isDigit (List.mem_takeWhile_imp hc)⟩

theorem takes_of_scan_ipv4 {v4 : Ipv4} (h : Ipv4.scan cs = some (v4, rest)) : Takes cs rest :=
  ⟨_, (Ipv4.scan_eq_some.1 h).1, v4.letters⟩

theorem takes_scanRun (isFirst : Bool) (room : Nat) (cs : List Char) :
    Takes cs (scanRun isFirst room cs).rest := by
  induction room generalizing isFirst cs with
  | zero => exact .refl cs
  | succ room ih =>
    have hstart : ∀ later, (if isFirst then some cs else scanColon cs) = some later →
        Takes cs later := by
      intro later h
      split at h
      · obtain rfl := Option.some.inj h
        exact .refl cs
      · exact takes_of_scanColon h
    simp only [scanRun]
    split
    · case h_1 v4 rest hv4 =>
      split at hv4
      · cases hv4
      · obtain ⟨later, hlater, hscan⟩ := Option.bind_eq_some_iff.1 hv4
        exact (hstart later hlater).trans (takes_of_scan_ipv4 hscan)
    · split
      · exact .refl cs
      · case h_2 g rest hgroup =>
        obtain ⟨later, hlater, hscan⟩ := Option.bind_eq_some_iff.1 hgroup
        exact ((hstart later hlater).trans (takes_of_scanGroup hscan)).trans (ih false rest)

theorem takes_of_scan (h : scan cs = some (a, rest)) : Takes cs rest := by
  simp only [scan] at h
  split at h
  · obtain ⟨-, rfl⟩ := Prod.mk.inj (Option.some.inj h)
    exact takes_scanRun true 8 cs
  split at h
  · cases h
  · simp only [Option.bind_eq_bind, Option.bind_eq_some_iff, Option.pure_def, Option.some.injEq,
      Prod.mk.injEq] at h
    obtain ⟨mid, hmid, later, hlater, -, rfl⟩ := h
    exact (((takes_scanRun true 8 cs).trans (takes_of_scanColon hmid)).trans
      (takes_of_scanColon hlater)).trans (takes_scanRun true _ later)

theorem scanColon_eq_none (h : ':' ∉ cs) : scanColon cs = none := by
  cases cs with
  | nil => rfl
  | cons c cs =>
    obtain ⟨hc, -⟩ : ¬ ':' = c ∧ ':' ∉ cs := by simpa using h
    simp only [scanColon]
    split
    · case h_1 heq => exact absurd (List.cons.inj heq).1.symm hc
    · rfl

/-- There is no address without colons. -/
theorem scan_eq_none (h : ':' ∉ cs) : scan cs = none := by
  have hlater : ∀ room rest, ':' ∉ rest → scanRun false room rest = ⟨[], false, rest⟩ := by
    intro room rest hrest
    cases room with
    | zero => rfl
    | succ room => simp [scanRun, scanColon_eq_none hrest]
  simp only [scan]
  cases hv4 : Ipv4.scan cs with
  | some found =>
    have hrun : scanRun true 8 cs = ⟨groupsOfIpv4 found.1, true, found.2⟩ := by
      simp [scanRun, hv4]
    rw [hrun]
    rfl
  | none =>
    cases hgroup : scanGroup cs with
    | none =>
      have hrun : scanRun true 8 cs = ⟨[], false, cs⟩ := by simp [scanRun, hv4, hgroup]
      rw [hrun]
      simp [scanColon_eq_none h]
    | some found =>
      obtain ⟨taken, htaken, -⟩ := takes_of_scanGroup hgroup
      have hrest : ':' ∉ found.2 := fun hmem => h (htaken ▸ List.mem_append_right taken hmem)
      have hrun : scanRun true 8 cs = ⟨[found.1], false, found.2⟩ := by
        rw [scanRun_group true cs rfl hv4 hgroup, hlater 7 found.2 hrest]
      rw [hrun]
      simp [scanColon_eq_none hrest]

theorem dot_not_mem_text (h : a.toIpv4Mapped? = none) : '.' ∉ a.text.toList := by
  have hrun : ∀ gs, '.' ∉ (groupsText gs).toList := by
    rintro (_ | ⟨g, gs⟩)
    · exact List.not_mem_nil
    · rw [toList_groupsText_cons, List.mem_append, not_or]
      exact ⟨not_mem_toDigits (by decide) _, dot_not_mem_laterChars gs⟩
  simp only [text, h]
  split
  · simp only [String.toList_append, List.mem_append, not_or]
    exact ⟨⟨hrun _, by decide⟩, hrun _⟩
  · exact hrun _

/-- No text of an address can be taken for the beginning of an IPv4 address. -/
theorem scan_ipv4_text (a : Ipv6) : Ipv4.scan a.text.toList = none := by
  cases hmapped : a.toIpv4Mapped? with
  | none => exact Ipv4.scan_eq_none (dot_not_mem_text hmapped)
  | some v4 =>
    have htext : a.text.toList = ':' :: (":ffff:" ++ v4.text).toList := by
      simp [text, hmapped]
    rw [htext]
    rfl

end Ipv6

namespace IpAddress

variable {a : IpAddress} {s : String}

theorem read?_eq_some : read? s = some a ↔
    (∃ v4, a = .v4 v4 ∧ s = v4.text) ∨
      ∃ v6, a = .v6 v6 ∧ Ipv4.scan s.toList = none ∧ Ipv6.scan s.toList = some (v6, []) := by
  simp only [read?]
  cases hv4 : Ipv4.scan s.toList with
  | some found =>
    obtain ⟨v4, rest⟩ := found
    obtain ⟨htext, -⟩ := Ipv4.scan_eq_some.1 hv4
    constructor
    · intro h
      cases rest with
      | cons c rest => cases h
      | nil =>
        rw [List.append_nil] at htext
        exact Or.inl ⟨v4, (Option.some.inj h).symm, String.toList_inj.1 htext⟩
    · rintro (⟨v4', rfl, rfl⟩ | ⟨v6, -, hnone, -⟩)
      · have hwhole := Ipv4.scan_eq_some.2
          ⟨(List.append_nil v4'.text.toList).symm, Text.endsNumeral_nil⟩
        obtain ⟨rfl, rfl⟩ := Prod.mk.inj (Option.some.inj (hv4.symm.trans hwhole))
        rfl
      · cases hnone
  | none =>
    constructor
    · intro h
      cases hv6 : Ipv6.scan s.toList with
      | none => simp [hv6] at h
      | some found =>
        obtain ⟨v6, rest⟩ := found
        cases rest with
        | cons c rest => simp [hv6] at h
        | nil =>
          rw [hv6] at h
          exact Or.inr ⟨v6, (Option.some.inj h).symm, rfl, rfl⟩
    · rintro (⟨v4, rfl, rfl⟩ | ⟨v6, rfl, -, hv6⟩)
      · have hwhole := Ipv4.scan_eq_some.2
          ⟨(List.append_nil v4.text.toList).symm, Text.endsNumeral_nil⟩
        cases hv4.symm.trans hwhole
      · rw [hv6]
        rfl

/-- Every address is read from its text. -/
theorem read?_text (a : IpAddress) : read? a.text = some a := by
  cases a with
  | v4 a => exact read?_eq_some.2 (Or.inl ⟨a, rfl, rfl⟩)
  | v6 a => exact read?_eq_some.2 (Or.inr ⟨a, rfl, a.scan_ipv4_text, a.scan_text⟩)

theorem letters_of_read? (h : read? s = some a) : ∀ c ∈ s.toList, isLetter c = true := by
  rcases read?_eq_some.1 h with ⟨v4, -, rfl⟩ | ⟨v6, -, -, hv6⟩
  · exact v4.letters
  · obtain ⟨taken, htaken, hletters⟩ := Ipv6.takes_of_scan hv6
    rw [htaken, List.append_nil]
    exact hletters

/-- A text without colons is no address but that of which it is the text. -/
theorem v4_of_read? (h : read? s = some a) (hcolon : ':' ∉ s.toList) :
    ∃ v4 : Ipv4, s = v4.text := by
  rcases read?_eq_some.1 h with ⟨v4, -, hs⟩ | ⟨v6, -, -, hv6⟩
  · exact ⟨v4, hs⟩
  · rw [Ipv6.scan_eq_none hcolon] at hv6
    cases hv6

end IpAddress
end PipeShell
