import PipeShell.Net.Ipv4
import PipeShell.Proofs.Text.Numerals

/-! IPv4 addresses and their texts. Each has one text, and nothing else is read as it. -/
namespace PipeShell.Ipv4

open Text (EndsNumeral)

variable {a : Ipv4} {o : UInt8} {cs rest : List Char}

/-- An octet is read from its numeral, which ends where the digits end. -/
theorem scanOctet_eq_some : scanOctet cs = some (o, rest) ↔
    cs = Nat.toDigits 10 o.toNat ++ rest ∧ EndsNumeral 10 rest := by
  constructor
  · intro h
    simp only [scanOctet] at h
    split at h
    · cases h
    · case isFalse hgood =>
      obtain ⟨rfl, rfl⟩ := Prod.mk.inj (Option.some.inj h)
      simp only [Bool.or_eq_true, Bool.and_eq_true, decide_eq_true_eq, beq_iff_eq, not_or,
        not_and] at hgood
      obtain ⟨⟨⟨hne, -⟩, hlead⟩, hsmall⟩ := hgood
      have hvalue : (Text.value 10 (cs.takeWhile (Text.isDigit 10))).toUInt8.toNat =
          Text.value 10 (cs.takeWhile (Text.isDigit 10)) :=
        UInt8.toNat_ofNat_of_lt' (Nat.lt_succ_of_le (Nat.not_lt.1 hsmall))
      have hone : (cs.takeWhile (Text.isDigit 10)).length = 1 ∨
          (cs.takeWhile (Text.isDigit 10)).head? ≠ some '0' := by
        have hpos := List.length_pos_iff.2 hne
        by_cases hlen : 1 < (cs.takeWhile (Text.isDigit 10)).length
        · exact Or.inr (hlead hlen)
        · exact Or.inl (by omega)
      rw [hvalue, Text.toDigits_value hne (fun _ => List.mem_takeWhile_imp) hone,
        List.takeWhile_append_dropWhile]
      exact ⟨rfl, Text.endsNumeral_dropWhile cs⟩
  · rintro ⟨rfl, hrest⟩
    obtain ⟨htake, hdrop⟩ := Text.takeWhile_numeral (by decide) (by decide) o.toNat hrest
    have hsmall : o.toNat < 256 := o.toNat_lt
    have hlength : (Nat.toDigits 10 o.toNat).length ≤ 3 :=
      (Nat.length_toDigits_le_iff (by decide) (by decide)).2 (by omega)
    have hlead : 1 < (Nat.toDigits 10 o.toNat).length →
        (Nat.toDigits 10 o.toNat).head? ≠ some '0' := by
      intro hlong
      have hten : ¬ o.toNat < 10 := by
        intro h
        rw [Nat.toDigits_of_lt_base h] at hlong
        exact absurd hlong (Nat.lt_irrefl 1)
      exact Text.head?_toDigits (by decide) (by decide) (by omega)
    simp only [scanOctet, htake, hdrop, Text.value_toDigits (b := 10) (by decide) (by decide)]
    rw [if_neg, Nat.toUInt8, UInt8.ofNat_toNat]
    simp only [Bool.or_eq_true, Bool.and_eq_true, decide_eq_true_eq, beq_iff_eq, not_or, not_and]
    exact ⟨⟨⟨Nat.toDigits_ne_nil, by omega⟩, hlead⟩, by omega⟩

theorem scanDot_eq_some : scanDot cs = some rest ↔ cs = '.' :: rest := by
  constructor
  · intro h
    simp only [scanDot] at h
    split at h
    · obtain rfl := Option.some.inj h
      rfl
    · cases h
  · rintro rfl
    rfl

theorem exists_octets (a : Ipv4) : ∃ o₁ o₂ o₃ o₄, a = ⟨#v[o₁, o₂, o₃, o₄]⟩ := by
  rcases a with ⟨⟨⟨octets⟩, h⟩⟩
  match octets, h with
  | [o₁, o₂, o₃, o₄], _ => exact ⟨o₁, o₂, o₃, o₄, rfl⟩

theorem toList_text (a b c d : UInt8) : (Ipv4.mk #v[a, b, c, d]).text.toList =
    Nat.toDigits 10 a.toNat ++ '.' :: (Nat.toDigits 10 b.toNat ++ '.' ::
      (Nat.toDigits 10 c.toNat ++ '.' :: Nat.toDigits 10 d.toNat)) := by
  simp [text, Text.numeralText, String.intercalate_cons_cons]

theorem endsNumeral_dot (cs : List Char) : EndsNumeral 10 ('.' :: cs) :=
  Text.endsNumeral_cons (by decide)

/-- An address is read from its text and from no other. -/
theorem scan_eq_some : scan cs = some (a, rest) ↔
    cs = a.text.toList ++ rest ∧ EndsNumeral 10 rest := by
  constructor
  · intro h
    simp only [scan, Option.bind_eq_bind, Option.bind_eq_some_iff, Prod.exists, Option.pure_def,
      Option.some.injEq, Prod.mk.injEq] at h
    obtain ⟨o₁, _, h₁, _, hd₁, o₂, _, h₂, _, hd₂, o₃, _, h₃, _, hd₃, o₄, _, h₄, rfl, rfl⟩ := h
    obtain ⟨rfl, -⟩ := scanOctet_eq_some.1 h₁
    obtain rfl := scanDot_eq_some.1 hd₁
    obtain ⟨rfl, -⟩ := scanOctet_eq_some.1 h₂
    obtain rfl := scanDot_eq_some.1 hd₂
    obtain ⟨rfl, -⟩ := scanOctet_eq_some.1 h₃
    obtain rfl := scanDot_eq_some.1 hd₃
    obtain ⟨rfl, hends⟩ := scanOctet_eq_some.1 h₄
    exact ⟨by simp [toList_text], hends⟩
  · rintro ⟨rfl, hends⟩
    obtain ⟨o₁, o₂, o₃, o₄, rfl⟩ := exists_octets a
    rw [toList_text]
    simp only [List.append_assoc, List.cons_append, scan,
      scanOctet_eq_some.2 ⟨rfl, endsNumeral_dot _⟩, scanOctet_eq_some.2 ⟨rfl, hends⟩, scanDot,
      Option.bind_eq_bind, Option.bind_some, Option.pure_def]

/-- The characters of an address. -/
theorem digit_or_dot_of_mem {c : Char} (h : c ∈ a.text.toList) :
    Text.isDigit 10 c = true ∨ c = '.' := by
  have hdigit : ∀ n : Nat, c ∈ Nat.toDigits 10 n → Text.isDigit 10 c = true ∨ c = '.' :=
    fun _ h => Or.inl (Text.isDigit_of_mem_toDigits (by decide) (by decide) h)
  obtain ⟨o₁, o₂, o₃, o₄, rfl⟩ := exists_octets a
  rw [toList_text] at h
  simp only [List.mem_append, List.mem_cons] at h
  rcases h with h | h | h | h | h | h | h
  · exact hdigit _ h
  · exact Or.inr h
  · exact hdigit _ h
  · exact Or.inr h
  · exact hdigit _ h
  · exact Or.inr h
  · exact hdigit _ h

/-- A text without dots begins with no address. -/
theorem scan_eq_none (h : '.' ∉ cs) : scan cs = none := by
  rw [Option.eq_none_iff_forall_ne_some]
  rintro ⟨a, rest⟩ hscan
  obtain ⟨rfl, -⟩ := scan_eq_some.1 hscan
  obtain ⟨o₁, o₂, o₃, o₄, rfl⟩ := exists_octets a
  rw [toList_text] at h
  simp at h

end PipeShell.Ipv4
