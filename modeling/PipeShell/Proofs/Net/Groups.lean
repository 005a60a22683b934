import PipeShell.Net.Ipv6
import PipeShell.Proofs.Net.Octets

/-! IPv6 addresses and their texts. A text is read back whether zeros have been left out of it or an
IPv4 address stands at its end. -/
namespace PipeShell.Ipv6

open Text (EndsNumeral)

variable {a : Ipv6} {g : UInt16} {gs head tail : List UInt16} {rest : List Char} {room : Nat}

/-- The groups behind the first one of a run, each with its colon. -/
def laterChars (gs : List UInt16) : List Char :=
  gs.flatMap fun g => ':' :: Nat.toDigits 16 g.toNat

theorem toList_groupsText_cons (g : UInt16) (gs : List UInt16) :
    (groupsText (g :: gs)).toList = Nat.toDigits 16 g.toNat ++ laterChars gs := by
  induction gs generalizing g with
  | nil => simp [groupsText, laterChars, Text.numeralText]
  | cons g' gs ih =>
    have hcons : groupsText (g :: g' :: gs) =
        Text.numeralText 16 g.toNat ++ ":" ++ groupsText (g' :: gs) := by
      simp [groupsText, String.intercalate_cons_cons]
    rw [hcons, String.toList_append, String.toList_append, ih]
    simp [laterChars, Text.numeralText]

/-- What a run of groups ends before: the end of the text, or a double colon. -/
def EndsRun (rest : List Char) : Prop := rest = [] ∨ ∃ more, rest = ':' :: ':' :: more

theorem endsNumeral_colon (cs : List Char) : EndsNumeral 16 (':' :: cs) :=
  Text.endsNumeral_cons (by decide)

theorem EndsRun.endsNumeral (h : EndsRun rest) : EndsNumeral 16 rest := by
  rcases h with rfl | ⟨more, rfl⟩
  · exact Text.endsNumeral_nil
  · exact endsNumeral_colon _

theorem endsNumeral_laterChars (gs : List UInt16) (h : EndsRun rest) :
    EndsNumeral 16 (laterChars gs ++ rest) := by
  cases gs with
  | nil => exact h.endsNumeral
  | cons g gs => exact endsNumeral_colon _

theorem not_mem_toDigits {c : Char} (hc : Text.isDigit 16 c = false) (n : Nat) :
    c ∉ Nat.toDigits 16 n := by
  intro h
  have hdigit := Text.isDigit_of_mem_toDigits (by decide) (by decide) h
  rw [hc] at hdigit
  cases hdigit

theorem dot_not_mem_laterChars (gs : List UInt16) : '.' ∉ laterChars gs := by
  simp only [laterChars, List.mem_flatMap, List.mem_cons, not_exists, not_and, not_or]
  exact fun g _ => ⟨by decide, not_mem_toDigits (by decide) _⟩

theorem scan_ipv4_numeral (g : UInt16) (gs : List UInt16) (hdot : '.' ∉ rest) :
    Ipv4.scan (Nat.toDigits 16 g.toNat ++ (laterChars gs ++ rest)) = none := by
  apply Ipv4.scan_eq_none
  simp only [List.mem_append, not_or]
  exact ⟨not_mem_toDigits (by decide) _, dot_not_mem_laterChars gs, hdot⟩

theorem scanGroup_numeral (g : UInt16) (h : EndsNumeral 16 rest) :
    scanGroup (Nat.toDigits 16 g.toNat ++ rest) = some (g, rest) := by
  obtain ⟨htake, hdrop⟩ := Text.takeWhile_numeral (by decide) (by decide) g.toNat h
  have hsmall : g.toNat < 16 ^ 4 := g.toNat_lt
  have hlength : (Nat.toDigits 16 g.toNat).length ≤ 4 :=
    (Nat.length_toDigits_le_iff (by decide) (by decide)).2 hsmall
  simp only [scanGroup, htake, hdrop, Text.value_toDigits (b := 16) (by decide) (by decide)]
  rw [if_neg, Nat.toUInt16, UInt16.ofNat_toNat]
  simp only [Bool.or_eq_true, beq_iff_eq, decide_eq_true_eq, not_or]
  exact ⟨Nat.toDigits_ne_nil, by omega⟩

/-- There is no group to be read at the end of a run. -/
theorem scanRun_ended (isFirst : Bool) (room : Nat) (h : EndsRun rest) :
    scanRun isFirst room rest = ⟨[], false, rest⟩ := by
  cases room with
  | zero => rfl
  | succ room =>
    rcases h with rfl | ⟨more, rfl⟩
    · cases isFirst <;> cases room <;> rfl
    · cases isFirst <;> cases room <;> rfl

/-- One group is read when no IPv4 address can be. -/
theorem scanRun_group (isFirst : Bool) (cs : List Char) {later : List Char}
    (hstart : (if isFirst then some cs else scanColon cs) = some later)
    (hnone : Ipv4.scan later = none) (hgroup : scanGroup later = some (g, rest)) :
    scanRun isFirst (room + 1) cs =
      { scanRun false room rest with groups := g :: (scanRun false room rest).groups } := by
  rw [scanRun, hstart]
  simp only [Option.bind_some, hnone, hgroup, ite_self]

theorem scanRun_later (h : EndsRun rest) (hdot : '.' ∉ rest) (hroom : gs.length ≤ room) :
    scanRun false room (laterChars gs ++ rest) = ⟨gs, false, rest⟩ := by
  induction gs generalizing room with
  | nil => exact scanRun_ended false room h
  | cons g gs ih =>
    obtain ⟨room, rfl⟩ := Nat.exists_eq_add_of_le' (Nat.lt_of_lt_of_le (Nat.succ_pos _) hroom)
    have hmore := ih (Nat.le_of_succ_le_succ hroom)
    have hstart : scanColon (laterChars (g :: gs) ++ rest) =
        some (Nat.toDigits 16 g.toNat ++ (laterChars gs ++ rest)) := by
      rw [laterChars, List.flatMap_cons, List.append_assoc]
      rfl
    rw [scanRun_group false (laterChars (g :: gs) ++ rest) hstart (scan_ipv4_numeral g gs hdot)
      (scanGroup_numeral g (endsNumeral_laterChars gs h)), hmore]

/-- Groups are read back from their text, up to where the run ends. -/
theorem scanRun_groupsText (h : EndsRun rest) (hdot : '.' ∉ rest) (hroom : gs.length ≤ room) :
    scanRun true room ((groupsText gs).toList ++ rest) = ⟨gs, false, rest⟩ := by
  cases gs with
  | nil => exact scanRun_ended true room h
  | cons g gs =>
    obtain ⟨room, rfl⟩ := Nat.exists_eq_add_of_le' (Nat.lt_of_lt_of_le (Nat.succ_pos _) hroom)
    rw [toList_groupsText_cons, List.append_assoc,
      scanRun_group true _ rfl (scan_ipv4_numeral g gs hdot)
        (scanGroup_numeral g (endsNumeral_laterChars gs h)),
      scanRun_later h hdot (Nat.le_of_succ_le_succ hroom)]

theorem ofParts_eq (h : a.groups.toList =
    head ++ List.replicate (8 - head.length - tail.length) 0 ++ tail) :
    ofParts head tail = a := by
  have hgroups : (ofParts head tail).groups = a.groups := by
    rw [ofParts, ← h]
    apply Vector.ext
    intro i hi
    simp
  cases a
  exact congrArg Ipv6.mk hgroups

/-- The longest run of zeros is a run of zeros among the groups. -/
theorem longestZeros_spec (i : Nat) (gs : List UInt16) (h : 0 < (longestZeros i gs).2) :
    ∃ head tail, (longestZeros i gs).1 = i + head.length ∧
      gs = head ++ List.replicate (longestZeros i gs).2 0 ++ tail := by
  induction gs generalizing i with
  | nil => exact absurd h (Nat.lt_irrefl 0)
  | cons g gs ih =>
    simp only [longestZeros] at h ⊢
    split
    · case isTrue hle =>
      refine ⟨[], (g :: gs).dropWhile (· == 0), rfl, ?_⟩
      have hzeros : (g :: gs).takeWhile (· == 0) =
          List.replicate ((g :: gs).takeWhile (· == 0)).length 0 := by
        rw [List.eq_replicate_iff]
        exact ⟨rfl, fun b hb => by simpa using List.mem_takeWhile_imp hb⟩
      rw [List.nil_append, ← hzeros, List.takeWhile_append_dropWhile]
    · case isFalse hlt =>
      rw [if_neg hlt] at h
      obtain ⟨head, tail, hstart, hgs⟩ := ih (i + 1) h
      refine ⟨g :: head, tail, ?_, ?_⟩
      · rw [hstart, List.length_cons]
        omega
      · rw [List.cons_append, List.cons_append, ← hgs]

/-- The text of groups with a run of zeros left out. -/
theorem scan_shortened (hlength : head.length + tail.length < 8)
    (h : a.groups.toList = head ++ List.replicate (8 - head.length - tail.length) 0 ++ tail) :
    scan (groupsText head ++ "::" ++ groupsText tail).toList = some (a, []) := by
  have hdot : '.' ∉ ':' :: ':' :: (groupsText tail).toList := by
    cases tail with
    | nil => decide
    | cons g gs =>
      simp only [toList_groupsText_cons, List.mem_cons, List.mem_append, not_or]
      exact ⟨by decide, by decide, not_mem_toDigits (by decide) _, dot_not_mem_laterChars gs⟩
  have hhead : scanRun true 8 ((groupsText head).toList ++
      ':' :: ':' :: (groupsText tail).toList) =
        ⟨head, false, ':' :: ':' :: (groupsText tail).toList⟩ :=
    scanRun_groupsText (Or.inr ⟨_, rfl⟩) hdot (by omega)
  have htail : scanRun true (7 - head.length) (groupsText tail).toList = ⟨tail, false, []⟩ := by
    have hrun : scanRun true (7 - head.length) ((groupsText tail).toList ++ []) =
        ⟨tail, false, []⟩ := scanRun_groupsText (Or.inl rfl) (by decide) (by omega)
    rwa [List.append_nil] at hrun
  have htext : (groupsText head ++ "::" ++ groupsText tail).toList =
      (groupsText head).toList ++ ':' :: ':' :: (groupsText tail).toList := by
    simp
  rw [htext, scan]
  simp only [hhead, scanColon, Option.bind_eq_bind, Option.bind_some, htail, ofParts_eq h]
  rw [if_neg (by omega)]
  rfl

/-- The text of all groups. -/
theorem scan_whole (a : Ipv6) : scan (groupsText a.groups.toList).toList = some (a, []) := by
  have hlength : a.groups.toList.length = 8 := by simp
  have hrun : scanRun true 8 ((groupsText a.groups.toList).toList ++ []) =
      ⟨a.groups.toList, false, []⟩ := scanRun_groupsText (Or.inl rfl) (by decide) (by omega)
  have hwhole : a.groups.toList = a.groups.toList ++
      List.replicate (8 - a.groups.toList.length - ([] : List UInt16).length) 0 ++ [] := by
    rw [hlength]
    simp
  rw [List.append_nil] at hrun
  rw [scan]
  simp only [hrun, hlength, if_true, ofParts_eq hwhole]

theorem toUInt16_halves (g : UInt16) :
    ((g.toNat / 256).toUInt8.toNat * 256 + (g.toNat % 256).toUInt8.toNat).toUInt16 = g := by
  have hg : g.toNat < 65536 := g.toNat_lt
  have hhigh : (g.toNat / 256).toUInt8.toNat = g.toNat / 256 :=
    UInt8.toNat_ofNat_of_lt' (show g.toNat / 256 < 256 by omega)
  have hlow : (g.toNat % 256).toUInt8.toNat = g.toNat % 256 :=
    UInt8.toNat_ofNat_of_lt' (show g.toNat % 256 < 256 by omega)
  rw [hhigh, hlow, Nat.mul_comm, Nat.div_add_mod, Nat.toUInt16, UInt16.ofNat_toNat]

theorem groups_of_mapped {v4 : Ipv4} (h : a.toIpv4Mapped? = some v4) :
    a.groups.toList = List.replicate 5 0 ++ 0xFFFF :: groupsOfIpv4 v4 := by
  simp only [toIpv4Mapped?] at h
  split at h
  · case isTrue hhead =>
    obtain rfl := Option.some.inj h
    have hlast : a.groups.toList.drop 6 = [a.groups[6], a.groups[7]] := by
      rw [List.drop_eq_getElem_cons (by simp), List.drop_eq_getElem_cons (by simp),
        List.drop_of_length_le (by simp)]
      simp
    have hv4 : groupsOfIpv4 ⟨#v[(a.groups[6].toNat / 256).toUInt8,
        (a.groups[6].toNat % 256).toUInt8, (a.groups[7].toNat / 256).toUInt8,
        (a.groups[7].toNat % 256).toUInt8]⟩ = a.groups.toList.drop 6 := by
      rw [hlast, groupsOfIpv4]
      exact congrArg₂ (fun high low => [high, low]) (toUInt16_halves _) (toUInt16_halves _)
    rw [hv4, ← List.take_append_drop 6 a.groups.toList, beq_iff_eq.1 hhead]
    simp
  · cases h

/-- The text of an address that is mapped from IPv4. -/
theorem scan_mapped {v4 : Ipv4} (h : a.toIpv4Mapped? = some v4) :
    scan ("::ffff:" ++ v4.text).toList = some (a, []) := by
  have hgroup : scanGroup ('f' :: 'f' :: 'f' :: 'f' :: ':' :: v4.text.toList) =
      some (0xFFFF, ':' :: v4.text.toList) :=
    scanGroup_numeral 0xFFFF (endsNumeral_colon _)
  have hv4 : Ipv4.scan v4.text.toList = some (v4, []) :=
    Ipv4.scan_eq_some.2 ⟨(List.append_nil _).symm, Text.endsNumeral_nil⟩
  have hlater : scanRun false 6 (':' :: v4.text.toList) = ⟨groupsOfIpv4 v4, true, []⟩ := by
    rw [scanRun]
    simp [scanColon, hv4]
  have htail : scanRun true 7 ('f' :: 'f' :: 'f' :: 'f' :: ':' :: v4.text.toList) =
      ⟨0xFFFF :: groupsOfIpv4 v4, true, []⟩ := by
    rw [scanRun_group true _ rfl rfl hgroup, hlater]
  have htext : ("::ffff:" ++ v4.text).toList =
      ':' :: ':' :: 'f' :: 'f' :: 'f' :: 'f' :: ':' :: v4.text.toList := by
    simp
  have hparts : ofParts [] (0xFFFF :: groupsOfIpv4 v4) = a := ofParts_eq (groups_of_mapped h)
  rw [htext, scan, scanRun_ended true 8 (Or.inr ⟨_, rfl⟩)]
  simp only [scanColon, Option.bind_eq_bind, Option.bind_some, List.length_nil, Nat.sub_zero,
    htail, hparts]
  rfl

/-- An address is read from its text. -/
theorem scan_text (a : Ipv6) : scan a.text.toList = some (a, []) := by
  rw [text]
  cases hmapped : a.toIpv4Mapped? with
  | some v4 => exact scan_mapped hmapped
  | none =>
    simp only
    split
    · case isTrue hlong =>
      obtain ⟨head, tail, hstart, hgs⟩ :=
        longestZeros_spec 0 a.groups.toList (Nat.lt_trans Nat.zero_lt_one hlong)
      generalize longestZeros 0 a.groups.toList = zeros at hlong hstart hgs
      rw [Nat.zero_add] at hstart
      have hlength := congrArg List.length hgs
      simp only [Vector.length_toList, List.length_append, List.length_replicate] at hlength
      have hzeros : 8 - head.length - tail.length = zeros.2 := by omega
      have hhead : a.groups.toList.take zeros.1 = head := by
        rw [hgs, hstart, List.append_assoc, List.take_left]
      have htail : a.groups.toList.drop (zeros.1 + zeros.2) = tail := by
        rw [hgs, hstart]
        exact List.drop_left' (by simp)
      rw [hhead, htail]
      exact scan_shortened (by omega) (by rw [hzeros]; exact hgs)
    · exact scan_whole a

end PipeShell.Ipv6
