import Mathlib.Data.List.Basic
import Mathlib.Data.List.Induction
import Mathlib.Data.List.TakeWhile
import PipeShell.Text.Numeral

/-! Numbers written as numerals. A numeral is read up to the first character that is no digit, and
digits without a leading zero are the numeral of their value. -/
namespace PipeShell.Text

variable {b d n : Nat} {c : Char} {ds rest : List Char}

theorem digitValue?_digitChar (h : d < 16) : digitValue? (Nat.digitChar d) = some d := by
  have hall : ∀ d < 16, digitValue? (Nat.digitChar d) = some d := by decide
  exact hall d h

theorem isDigit_digitChar (hb : b ≤ 16) (h : d < b) : isDigit b (Nat.digitChar d) = true := by
  simp only [isDigit, digitValue?_digitChar (Nat.lt_of_lt_of_le h hb), decide_eq_true h]

/-- In base ten a digit is told by its value. -/
theorem digitChar_of_isDigit (h : isDigit 10 c = true) :
    ∃ d, d < 10 ∧ digitValue? c = some d ∧ c = Nat.digitChar d := by
  cases hd : digitValue? c with
  | none => simp [isDigit, hd] at h
  | some d =>
    have hlt : d < 10 := by simpa [isDigit, hd] using h
    refine ⟨d, hlt, rfl, Char.toNat_inj.1 ?_⟩
    rw [Nat.toNat_digitChar_of_lt_ten hlt]
    simp only [digitValue?] at hd
    split at hd
    · have := Option.some.inj hd
      omega
    split at hd
    · have := Option.some.inj hd
      omega
    split at hd
    · have := Option.some.inj hd
      omega
    · cases hd

theorem value_append (ds : List Char) (c : Char) :
    value b (ds ++ [c]) = value b ds * b + (digitValue? c).getD 0 := by
  simp [value]

theorem value_toDigits (hb : 1 < b) (hb' : b ≤ 16) (n : Nat) : value b (Nat.toDigits b n) = n := by
  induction n using Nat.strongRecOn with
  | ind n ih =>
    rw [Nat.toDigits_eq_if hb]
    split
    · case isTrue h =>
      simp [value, digitValue?_digitChar (Nat.lt_of_lt_of_le h hb')]
    · case isFalse h =>
      have hlt : n % b < b := Nat.mod_lt n (by omega)
      have hdiv : n / b < n := Nat.div_lt_self (by omega) hb
      rw [value_append, ih _ hdiv, digitValue?_digitChar (Nat.lt_of_lt_of_le hlt hb'),
        Option.getD_some, Nat.mul_comm, Nat.div_add_mod]

theorem isDigit_of_mem_toDigits (hb : 1 < b) (hb' : b ≤ 16) (h : c ∈ Nat.toDigits b n) :
    isDigit b c = true := by
  induction n using Nat.strongRecOn with
  | ind n ih =>
    rw [Nat.toDigits_eq_if hb] at h
    split at h
    · case isTrue hn =>
      obtain rfl := List.mem_singleton.1 h
      exact isDigit_digitChar hb' hn
    · case isFalse hn =>
      rcases List.mem_append.1 h with h | h
      · exact ih _ (Nat.div_lt_self (by omega) hb) h
      · obtain rfl := List.mem_singleton.1 h
        exact isDigit_digitChar hb' (Nat.mod_lt n (by omega))

/-- A text that does not go on with a digit. -/
def EndsNumeral (b : Nat) (rest : List Char) : Prop := ∀ c ∈ rest.head?, isDigit b c = false

theorem endsNumeral_nil : EndsNumeral b [] := by simp [EndsNumeral]

theorem endsNumeral_cons (h : isDigit b c = false) : EndsNumeral b (c :: rest) := by
  simpa [EndsNumeral] using h

theorem endsNumeral_dropWhile (cs : List Char) : EndsNumeral b (cs.dropWhile (isDigit b)) := by
  intro c hc
  have hne : cs.dropWhile (isDigit b) ≠ [] := by
    intro hnil
    rw [hnil] at hc
    cases hc
  obtain rfl : (cs.dropWhile (isDigit b)).head hne = c := by
    simpa [List.head?_eq_some_head hne] using hc
  simpa using List.head_dropWhile_not (isDigit b) hne

theorem takeWhile_digits (hds : ∀ c ∈ ds, isDigit b c = true) (h : EndsNumeral b rest) :
    (ds ++ rest).takeWhile (isDigit b) = ds ∧ (ds ++ rest).dropWhile (isDigit b) = rest := by
  rw [List.takeWhile_append_of_pos hds, List.dropWhile_append_of_pos hds]
  cases rest with
  | nil => simp
  | cons c rest =>
    have hc : isDigit b c = false := h c rfl
    simp [hc]

/-- The digits at the head of a text are those of the numeral that it begins with. -/
theorem takeWhile_numeral (hb : 1 < b) (hb' : b ≤ 16) (n : Nat) (h : EndsNumeral b rest) :
    (Nat.toDigits b n ++ rest).takeWhile (isDigit b) = Nat.toDigits b n ∧
      (Nat.toDigits b n ++ rest).dropWhile (isDigit b) = rest :=
  takeWhile_digits (fun _ => isDigit_of_mem_toDigits hb hb') h

/-- Only the numeral of zero begins with a zero. -/
theorem head?_toDigits (hb : 1 < b) (hb' : b ≤ 16) (hn : 0 < n) :
    (Nat.toDigits b n).head? ≠ some '0' := by
  induction n using Nat.strongRecOn with
  | ind n ih =>
    rw [Nat.toDigits_eq_if hb]
    split
    · case isTrue h =>
      intro hzero
      have hd := digitValue?_digitChar (Nat.lt_of_lt_of_le h hb')
      have hvalue : digitValue? '0' = some 0 := rfl
      rw [Option.some.inj hzero, hvalue] at hd
      exact absurd (Option.some.inj hd) (Nat.ne_of_lt hn)
    · case isFalse h =>
      have hpos : 0 < n / b := Nat.div_pos (Nat.not_lt.1 h) (by omega)
      rw [List.head?_append_of_ne_nil _ Nat.toDigits_ne_nil]
      exact ih _ (Nat.div_lt_self hn hb) hpos

/-- Digits without a leading zero are the numeral of their value. -/
theorem toDigits_value (hne : ds ≠ []) (hds : ∀ c ∈ ds, isDigit 10 c = true)
    (hlead : ds.length = 1 ∨ ds.head? ≠ some '0') : Nat.toDigits 10 (value 10 ds) = ds := by
  induction ds using List.reverseRecOn with
  | nil => exact absurd rfl hne
  | append_singleton ds c ih =>
    obtain ⟨d, hd, hvalue, rfl⟩ :=
      digitChar_of_isDigit (hds c (List.mem_append_right ds (List.mem_singleton_self c)))
    rw [value_append, hvalue, Option.getD_some]
    by_cases hnil : ds = []
    · subst hnil
      have hzero : value 10 [] = 0 := rfl
      rw [hzero, Nat.zero_mul, Nat.zero_add, Nat.toDigits_of_lt_base hd, List.nil_append]
    · have hhead : ds.head? ≠ some '0' := by
        rcases hlead with hone | hhead
        · have := List.length_pos_iff.2 hnil
          rw [List.length_append, List.length_singleton] at hone
          omega
        · rwa [List.head?_append_of_ne_nil _ hnil] at hhead
      have hrest := ih hnil (fun c hc => hds c (List.mem_append_left _ hc)) (Or.inr hhead)
      have hpos : 0 < value 10 ds := by
        rw [Nat.pos_iff_ne_zero]
        intro hzero
        rw [hzero, Nat.toDigits_zero] at hrest
        rw [← hrest] at hhead
        exact hhead rfl
      rw [Nat.mul_comm, ← Nat.toDigits_append_toDigits (by decide) hpos hd, hrest,
        Nat.toDigits_of_lt_base hd]

end PipeShell.Text
