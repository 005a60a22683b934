import PipeShell.Proofs.Pipeline.Stages

/-! The one-pass scan in step with the reader that cuts the line: at every character both have the
same word, the same tokens of the stage and the same stages behind them. -/
namespace PipeShell.Pipeline

namespace Scan

/-- Where the cutting reader stands. -/
def cursor (s : Scan) : Cursor :=
  match s.word with
  | none => .between
  | some w => .word (Utf8.encode w.reverse).reverse s.quoted

/-- A quote is open only in a word. -/
def Proper (s : Scan) : Prop := s.word = none → s.quoted = false

variable {s : Scan} {c : Char}

theorem proper_step (s : Scan) (c : Char) : (s.step c).Proper := by
  intro hw
  by_cases hq : c = '"'
  · simp [step, hq, quote] at hw
  cases hs : s.quoted with
  | true => simp [step, hq, hs, literal] at hw
  | false =>
    rw [step, if_neg hq, if_neg (by simp [hs])]
    repeat' split
    all_goals exact hs

theorem cursor_quoted (h : s.Proper) : s.cursor.quoted = s.quoted := by
  cases hw : s.word with
  | none => simp [cursor, hw, h hw]
  | some w => simp [cursor, hw, Cursor.quoted]

theorem cursor_pending (s : Scan) : s.cursor.pending = s.pending := by
  cases hw : s.word with
  | none => simp [cursor, pending, hw, Cursor.pending]
  | some w =>
    simp [cursor, pending, hw, Cursor.pending, wordToken, Utf8.toStringLossy_encode]

theorem cursor_quote (h : s.Proper) : s.quote.cursor = s.cursor.toggle := by
  cases hw : s.word with
  | none => simp [cursor, quote, hw, h hw, Cursor.toggle, Utf8.encode]
  | some w => simp [cursor, quote, hw, Cursor.toggle]

theorem cursor_literal (h : s.Proper) (c : Char) :
    (s.literal c).cursor = (Utf8.encodeChar c).foldl Cursor.literal s.cursor := by
  rw [foldl_literal (Utf8.encodeChar_ne_nil c), cursor_quoted h]
  cases hw : s.word with
  | none => simp [cursor, literal, hw, Cursor.read, Utf8.encode]
  | some w => simp [cursor, literal, hw, Cursor.read, Utf8.encode]

/-- All stages, when those of the rest of the line are added. -/
def complete (s : Scan) (rest : List (List Token)) : List (List Token) :=
  s.stages.reverse ++ addTokens s.stage.reverse rest

theorem pending_reverse (s : Scan) : s.pending.reverse = s.pending := by
  cases hw : s.word with
  | none => simp [pending, hw]
  | some w => simp [pending, hw]

theorem complete_endWord (s : Scan) (rest : List (List Token)) :
    s.endWord.complete rest = s.complete (addTokens s.pending rest) := by
  simp [complete, endWord, addTokens_addTokens, pending_reverse]

theorem complete_operator (s : Scan) (rest : List (List Token)) :
    s.operator.complete rest = s.complete (addTokens (s.pending ++ [.input]) rest) := by
  rw [← addTokens_addTokens, ← complete_endWord]
  simp [complete, operator, addTokens_addTokens]

theorem complete_endStage (s : Scan) {rest : List (List Token)} (hr : rest ≠ []) :
    s.endStage.complete rest = s.complete (s.pending :: rest) := by
  obtain ⟨ts, stages, rfl⟩ := List.exists_cons_of_ne_nil hr
  simp [complete, endStage, endWord, addTokens, pending_reverse]

theorem lineTokens_ne_nil (k : Cursor) (bs : Bytes) : lineTokens k bs ≠ [] := by
  obtain ⟨t, stages, ht⟩ := exists_stages k.quoted bs
  simp [lineTokens, ht]

theorem ascii_of_special (h : isSpace c = true ∨ c = '<' ∨ c = '|') : c.toNat < 0x80 := by
  simp only [isSpace, Bool.or_eq_true, beq_iff_eq] at h
  rcases h with (((rfl | rfl) | rfl) | rfl) | rfl | rfl <;> decide

/-- A character that stands for itself, where the line goes on if it is a space. -/
theorem lineTokens_character (h : s.Proper) (hq : c ≠ '"') {bs : Bytes}
    (hc : isSpace c = false ∧ c ≠ '<' ∧ c ≠ '|' ∨
      s.quoted = true ∧ (isSpace c = true → ∃ b ∈ bs, isSeparator b = false)) :
    lineTokens s.cursor (Utf8.encodeChar c ++ bs) = lineTokens (s.literal c).cursor bs := by
  rw [cursor_literal h]
  by_cases hplain : isSpace c = false ∧ c ≠ '<' ∧ c ≠ '|'
  · obtain ⟨hs, hi, hb⟩ := hplain
    apply lineTokens_literals
    intro b hmem
    refine ⟨?_, (isSeparator_eq_isSpace hmem).trans hs, ?_, ?_⟩
    · rwa [Ne, eq_quote_iff hmem]
    · rwa [Ne, eq_redirect_iff hmem]
    · rwa [Ne, eq_bar_iff hmem]
  · -- one of the special characters, in an open quote: all of them are single bytes
    obtain ⟨hopen, hspace⟩ := hc.resolve_left hplain
    have hascii := ascii_of_special (by
      by_contra hn
      simp only [not_or, Bool.not_eq_true] at hn
      exact hplain hn)
    have hmem : c.toNat.toUInt8 ∈ Utf8.encodeChar c := by simp [Utf8.encodeChar_ascii hascii]
    rw [Utf8.encodeChar_ascii hascii, List.singleton_append, List.foldl_cons, List.foldl_nil]
    apply lineTokens_literal
    · rwa [Ne, eq_quote_iff hmem]
    · refine Or.inr ⟨(cursor_quoted h).trans hopen, ?_⟩
      cases hs : isSpace c with
      | false => exact ⟨_, List.mem_cons_self, (isSeparator_eq_isSpace hmem).trans hs⟩
      | true =>
        obtain ⟨b, hb, hn⟩ := hspace hs
        exact ⟨b, List.mem_cons_of_mem _ hb, hn⟩

/-- One character moves both readers. -/
theorem complete_step (h : s.Proper) {bs : Bytes}
    (hc : isSpace c = true → s.quoted = true → ∃ b ∈ bs, isSeparator b = false) :
    s.complete (lineTokens s.cursor (Utf8.encodeChar c ++ bs)) =
      (s.step c).complete (lineTokens (s.step c).cursor bs) := by
  have hk := cursor_quoted h
  by_cases hq : c = '"'
  · subst c
    rw [show s.step '"' = s.quote from rfl, cursor_quote h]
    exact congrArg s.complete (lineTokens_quote s.cursor bs)
  cases hs : s.quoted with
  | true =>
    rw [show s.step c = s.literal c by rw [step, if_neg hq, if_pos hs],
      lineTokens_character h hq (Or.inr ⟨hs, fun hsp => hc hsp hs⟩)]
    rfl
  | false =>
    rw [hs] at hk
    rw [step, if_neg hq, if_neg (by simp [hs])]
    by_cases hsp : isSpace c = true
    · have hascii := ascii_of_special (Or.inl hsp)
      have hsep : isSeparator c.toNat.toUInt8 = true :=
        (isSeparator_eq_isSpace (by simp [Utf8.encodeChar_ascii hascii])).trans hsp
      rw [if_pos hsp, complete_endWord, ← cursor_pending, Utf8.encodeChar_ascii hascii]
      exact congrArg s.complete (lineTokens_separator hk hsep)
    rw [if_neg hsp]
    by_cases hi : c = '<'
    · subst c
      rw [if_pos rfl, complete_operator, ← cursor_pending]
      exact congrArg s.complete (lineTokens_redirect hk)
    rw [if_neg hi]
    by_cases hb : c = '|'
    · subst c
      rw [if_pos rfl, complete_endStage s (lineTokens_ne_nil _ _), ← cursor_pending]
      exact congrArg s.complete (lineTokens_bar hk)
    · rw [if_neg hb, lineTokens_character h hq (Or.inl ⟨by simpa using hsp, hi, hb⟩)]
      rfl

/-- A line whose last character is no space. -/
def EndsPlain (cs : List Char) : Prop := ∀ c ∈ cs.getLast?, isSpace c = false

theorem endsPlain_of_cons {cs : List Char} (h : EndsPlain (c :: cs)) : EndsPlain cs := by
  cases cs with
  | nil => simp [EndsPlain]
  | cons d cs => simpa [EndsPlain] using h

theorem plain_follows_space {cs : List Char} (h : EndsPlain (c :: cs)) (hc : isSpace c = true) :
    ∃ b ∈ Utf8.encode cs, isSeparator b = false := by
  cases hl : cs.getLast? with
  | none =>
    obtain rfl := List.getLast?_eq_none_iff.1 hl
    simp [EndsPlain, hc] at h
  | some d =>
    have hd := endsPlain_of_cons h d (by simp [hl])
    obtain ⟨b, hb⟩ := List.exists_mem_of_ne_nil _ (Utf8.encodeChar_ne_nil d)
    exact ⟨b, List.mem_flatMap.2 ⟨d, List.mem_of_getLast? hl, hb⟩,
      (isSeparator_eq_isSpace hb).trans hd⟩

/-- A whole line moves both readers to the same stages. -/
theorem complete_run {cs : List Char} (h : s.Proper) (hcs : EndsPlain cs) :
    s.complete (lineTokens s.cursor (Utf8.encode cs)) =
      (cs.foldl step s).endStage.stages.reverse := by
  induction cs generalizing s with
  | nil =>
    simp [Utf8.encode, lineTokens_nil, cursor_pending, complete, endStage, endWord, addTokens,
      pending_reverse]
  | cons c cs ih =>
    rw [Utf8.encode_cons, List.foldl_cons,
      complete_step h fun hc _ => plain_follows_space hcs hc]
    exact ih (proper_step s c) (endsPlain_of_cons hcs)

theorem trimRight_encode_of_endsPlain {cs : List Char} (h : EndsPlain cs) :
    trimRight (Utf8.encode cs) = Utf8.encode cs := by
  apply List.rdropWhile_eq_self_iff.2
  intro hne
  have hcs : cs ≠ [] := by
    rintro rfl
    exact hne rfl
  have hmem : (Utf8.encode cs).getLast hne ∈ Utf8.encodeChar (cs.getLast hcs) := by
    have hsplit : Utf8.encode cs =
        Utf8.encode cs.dropLast ++ Utf8.encodeChar (cs.getLast hcs) := by
      conv_lhs => rw [← List.dropLast_append_getLast hcs, Utf8.encode_append]
      simp [Utf8.encode]
    simp only [hsplit]
    rw [List.getLast_append_of_ne_nil _ (Utf8.encodeChar_ne_nil _)]
    exact List.getLast_mem _
  rw [isSeparator_eq_isSpace hmem, h _ (by simp [List.getLast?_eq_getLast_of_ne_nil hcs])]
  simp

theorem endsPlain_rdropWhile (cs : List Char) : EndsPlain (cs.rdropWhile isSpace) := by
  intro c hc
  obtain ⟨hne, rfl⟩ := List.mem_getLast?_eq_getLast hc
  simpa using List.rdropWhile_last_not isSpace cs hne

theorem trimRight_encode (cs : List Char) :
    trimRight (Utf8.encode cs) = Utf8.encode (cs.rdropWhile isSpace) := by
  have hw : ∀ b ∈ Utf8.encode (cs.rtakeWhile isSpace), isSeparator b = true := by
    intro b hb
    obtain ⟨c, hc, hmem⟩ := List.mem_flatMap.1 hb
    exact (isSeparator_eq_isSpace hmem).trans (List.mem_rtakeWhile_imp hc)
  conv_lhs => rw [← List.rdropWhile_append_rtakeWhile (p := isSpace) (l := cs)]
  rw [Utf8.encode_append, trimRight_append hw, trimRight_encode_of_endsPlain
    (endsPlain_rdropWhile cs)]

end Scan

/-- Cutting the bytes of a line and scanning its characters find the same tokens. -/
theorem tokens_keptStages_encode (line : List Char) :
    (keptStages (Utf8.encode line)).map (tokens .between) = scan (line.rdropWhile isSpace) := by
  have h := Scan.complete_run (s := {}) (fun _ => rfl) (Scan.endsPlain_rdropWhile line)
  rw [map_tokens_keptStages, Scan.trimRight_encode, scan, ← h]
  exact congrArg _ (addTokens_nil_lineTokens .between _).symm

end PipeShell.Pipeline
