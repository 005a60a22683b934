import Mathlib.Data.List.DropRight
import PipeShell.Proofs.Pipeline.OnePass
import PipeShell.Proofs.Text.Utf8

/-! Cutting a line at its bars and then every stage into tokens gives what one pass gives. Both
readers move in step through the line, the cutting one with a cursor for the stage that it is in. -/
namespace PipeShell.Pipeline

def Cursor.quoted : Cursor → Bool
  | .between => false
  | .word _ q => q

@[simp] theorem Cursor.quoted_between : Cursor.between.quoted = false := rfl

/-- The word that a cursor stands in, as a token. -/
def Cursor.pending : Cursor → List Token
  | .between => []
  | .word read _ => [wordToken read]

def Cursor.toggle : Cursor → Cursor
  | .between => .word [] true
  | .word read q => .word read (!q)

def Cursor.literal : Cursor → UInt8 → Cursor
  | .between, b => .word [b] false
  | .word read q, b => .word (b :: read) q

variable {k : Cursor} {b : UInt8} {bs s ws : Bytes} {q : Bool}

theorem separator_ne_quote (hb : isSeparator b = true) : b ≠ quote := by
  rintro rfl
  simp [isSeparator, quote] at hb

theorem separator_ne_bar (hb : isSeparator b = true) : b ≠ bar := by
  rintro rfl
  simp [isSeparator, bar] at hb

theorem tokens_nil (k : Cursor) : tokens k [] = k.pending := by
  cases k <;> rfl

theorem tokens_quote (k : Cursor) (bs : Bytes) : tokens k (quote :: bs) = tokens k.toggle bs := by
  cases k <;> rfl

theorem tokens_separator (hk : k.quoted = false) (hb : isSeparator b = true) :
    tokens k (b :: bs) = k.pending ++ tokens .between bs := by
  have hq := separator_ne_quote hb
  cases k with
  | between => simp [tokens, hb, Cursor.pending]
  | word read q =>
    obtain rfl : q = false := hk
    simp [tokens, hb, hq, Cursor.pending]

theorem tokens_redirect (hk : k.quoted = false) :
    tokens k (redirect :: bs) = k.pending ++ .input :: tokens .between bs := by
  cases k with
  | between => rfl
  | word read q =>
    obtain rfl : q = false := hk
    rfl

theorem tokens_literal (hq : b ≠ quote)
    (hb : k.quoted = true ∨ isSeparator b = false ∧ b ≠ redirect) :
    tokens k (b :: bs) = tokens (k.literal b) bs := by
  cases k with
  | between =>
    obtain hb | ⟨hb, hr⟩ := hb
    · simp [Cursor.quoted] at hb
    · simp [tokens, hb, hr, hq, Cursor.literal]
  | word read q =>
    obtain rfl | ⟨hb, hr⟩ := hb
    · simp [tokens, hq, Cursor.literal]
    · simp [tokens, hb, hr, hq, Cursor.literal]

/-- Without the separators at the end. -/
def trimRight (bs : Bytes) : Bytes := bs.rdropWhile isSeparator

theorem trimRight_cons (b : UInt8) (bs : Bytes) :
    trimRight (b :: bs) =
      if trimRight bs = [] ∧ isSeparator b = true then [] else b :: trimRight bs := by
  simp only [trimRight, List.rdropWhile, List.reverse_cons, List.dropWhile_append,
    List.reverse_eq_nil_iff, List.isEmpty_iff]
  by_cases h : bs.reverse.dropWhile isSeparator = []
  · cases hb : isSeparator b <;> simp [h, hb]
  · simp [h]

theorem trimRight_cons_of_not (hb : isSeparator b = false) :
    trimRight (b :: bs) = b :: trimRight bs := by
  simp [trimRight_cons, hb]

theorem trimRight_eq_nil : trimRight bs = [] ↔ ∀ b ∈ bs, isSeparator b = true :=
  List.rdropWhile_eq_nil_iff

theorem trimRight_append (hw : ∀ b ∈ ws, isSeparator b = true) :
    trimRight (s ++ ws) = trimRight s := by
  induction s with
  | nil => exact trimRight_eq_nil.2 hw
  | cons b s ih => rw [List.cons_append, trimRight_cons, trimRight_cons, ih]

/-- Outside quotes the separators at the end of a stage give no token. -/
theorem tokens_trimRight_separator (hk : k.quoted = false) (hb : isSeparator b = true) :
    tokens k (trimRight (b :: s)) = k.pending ++ tokens .between (trimRight s) := by
  rw [trimRight_cons]
  split
  · case isTrue h => rw [h.1, tokens_nil, tokens_nil, Cursor.pending, List.append_nil]
  · exact tokens_separator hk hb

theorem splitStages_ne_nil (q : Bool) (bs : Bytes) : splitStages q bs ≠ [] := by
  cases bs with
  | nil => simp [splitStages]
  | cons b bs =>
    simp only [splitStages]
    split
    · simp
    · cases splitStages (q != (b == quote)) bs <;> simp [consFirst]

theorem exists_stages (q : Bool) (bs : Bytes) : ∃ s stages, splitStages q bs = s :: stages :=
  List.exists_cons_of_ne_nil (splitStages_ne_nil q bs)

theorem splitStages_bar (bs : Bytes) :
    splitStages false (bar :: bs) = [] :: splitStages false bs := rfl

theorem splitStages_cons (h : b ≠ bar ∨ q = true) :
    splitStages q (b :: bs) = consFirst b (splitStages (q != (b == quote)) bs) := by
  simp only [splitStages]
  rw [if_neg]
  rcases h with h | h <;> simp [h]

/-- In an open quote the line's own stage goes on to the end or to the next quote. -/
theorem splitStages_quoted_head {ss : List Bytes} (h : splitStages true bs = s :: ss)
    (hb : ∃ b ∈ bs, isSeparator b = false) : ∃ b ∈ s, isSeparator b = false := by
  induction bs generalizing s ss with
  | nil => simp at hb
  | cons b bs ih =>
    rw [splitStages_cons (Or.inr rfl)] at h
    obtain ⟨t, ts, ht⟩ := exists_stages (true != (b == quote)) bs
    rw [ht, consFirst] at h
    obtain ⟨rfl, rfl⟩ := List.cons.inj h
    cases hs : isSeparator b with
    | false => exact ⟨b, by simp, hs⟩
    | true =>
      rw [beq_false_of_ne (separator_ne_quote hs)] at ht
      obtain ⟨c, hc, hn⟩ := ih ht (by simpa [hs] using hb)
      exact ⟨c, List.mem_cons_of_mem _ hc, hn⟩

/-- Puts bytes behind the last stage. -/
def appendLast (ws : Bytes) : List Bytes → List Bytes
  | [] => [ws]
  | [s] => [s ++ ws]
  | s :: t :: stages => s :: appendLast ws (t :: stages)

theorem consFirst_appendLast (b : UInt8) (ws : Bytes) {stages : List Bytes} (h : stages ≠ []) :
    consFirst b (appendLast ws stages) = appendLast ws (consFirst b stages) := by
  match stages with
  | [] => exact (h rfl).elim
  | [s] => rfl
  | s :: t :: stages => rfl

theorem cons_appendLast (ws : Bytes) {stages : List Bytes} (h : stages ≠ []) :
    s :: appendLast ws stages = appendLast ws (s :: stages) := by
  match stages with
  | [] => exact (h rfl).elim
  | t :: stages => rfl

/-- Separators never cut a line, so those at its end stay with the last stage. -/
theorem splitStages_append (hw : ∀ b ∈ ws, isSeparator b = true) (q : Bool) (bs : Bytes) :
    splitStages q (bs ++ ws) = appendLast ws (splitStages q bs) := by
  induction bs generalizing q with
  | nil =>
    simp only [splitStages, appendLast, List.nil_append]
    induction ws generalizing q with
    | nil => rfl
    | cons b ws ih =>
      have hr := separator_ne_bar (hw b List.mem_cons_self)
      rw [splitStages_cons (Or.inl hr), ih fun c hc => hw c (List.mem_cons_of_mem _ hc)]
      rfl
  | cons b bs ih =>
    rw [List.cons_append]
    simp only [splitStages]
    split
    · rw [ih, cons_appendLast ws (splitStages_ne_nil _ _)]
    · rw [ih, consFirst_appendLast b ws (splitStages_ne_nil _ _)]

theorem map_trimRight_appendLast (hw : ∀ b ∈ ws, isSeparator b = true) {stages : List Bytes}
    (h : stages ≠ []) : (appendLast ws stages).map trimRight = stages.map trimRight := by
  induction stages with
  | nil => exact (h rfl).elim
  | cons s stages ih =>
    cases stages with
    | nil => simp [appendLast, trimRight_append hw]
    | cons t stages => rw [appendLast, List.map_cons, ih (by simp), ← List.map_cons]

theorem map_trimRight_splitStages (q : Bool) (line : Bytes) :
    (splitStages q line).map trimRight = (splitStages q (trimRight line)).map trimRight := by
  have hw : ∀ b ∈ line.rtakeWhile isSeparator, isSeparator b = true := by
    intro b hb
    exact List.mem_rtakeWhile_imp hb
  conv_lhs => rw [← List.rdropWhile_append_rtakeWhile (p := isSeparator) (l := line)]
  rw [splitStages_append hw, map_trimRight_appendLast hw (splitStages_ne_nil _ _), trimRight]

theorem tokens_word_ne_nil (read : Bytes) (q : Bool) (bs : Bytes) :
    tokens (.word read q) bs ≠ [] := by
  induction bs generalizing read q with
  | nil => simp [tokens]
  | cons b bs ih =>
    simp only [tokens]
    repeat' split
    · exact ih _ _
    · simp
    · simp
    · exact ih _ _

theorem trimStage_eq (s : Bytes) : trimStage s = trimRight (s.dropWhile isSeparator) := rfl

theorem tokens_trimStage (s : Bytes) :
    tokens .between (trimStage s) = tokens .between (trimRight s) := by
  rw [trimStage_eq]
  induction s with
  | nil => rfl
  | cons b s ih =>
    cases hb : isSeparator b with
    | true =>
      rw [List.dropWhile_cons_of_pos hb, ih, tokens_trimRight_separator rfl hb]
      rfl
    | false => rw [List.dropWhile_cons_of_neg (by simp [hb])]

/-- A stage counts for nothing exactly if it has no token. -/
theorem tokens_trimStage_eq_nil (s : Bytes) :
    tokens .between (trimStage s) = [] ↔ trimStage s = [] := by
  constructor
  · intro h
    rw [trimStage_eq] at h ⊢
    cases hd : s.dropWhile isSeparator with
    | nil => rfl
    | cons b r =>
      have hb : isSeparator b = false := by
        have hn := List.head_dropWhile_not (p := isSeparator) (l := s) (by simp [hd])
        simpa [hd] using hn
      rw [hd, trimRight_cons_of_not hb] at h
      simp only [tokens, hb, Bool.false_eq_true, if_false] at h
      split at h
      · simp at h
      split at h
      · exact (tokens_word_ne_nil _ _ _ h).elim
      · exact (tokens_word_ne_nil _ _ _ h).elim
  · intro h
    rw [h]
    rfl

/-- Puts tokens before the first stage. -/
def addTokens (ts : List Token) : List (List Token) → List (List Token)
  | [] => [ts]
  | us :: stages => (ts ++ us) :: stages

theorem addTokens_addTokens (ts us : List Token) (stages : List (List Token)) :
    addTokens ts (addTokens us stages) = addTokens (ts ++ us) stages := by
  cases stages <;> simp [addTokens]

/-- The tokens of the rest of a line by stages, from a cursor in its first stage. -/
def lineTokens (k : Cursor) (bs : Bytes) : List (List Token) :=
  match splitStages k.quoted bs with
  | [] => []
  | s :: stages =>
    tokens k (trimRight s) :: stages.map fun s => tokens .between (trimRight s)

/-- The tokens of the stages that count, which the separators at the end of a line cannot change. -/
theorem map_tokens_keptStages (line : Bytes) :
    (keptStages line).map (tokens .between) =
      (lineTokens .between (trimRight line)).filter (· ≠ []) := by
  have hline : ∀ bs, lineTokens .between bs = ((splitStages false bs).map trimRight).map
      (tokens .between) := by
    intro bs
    obtain ⟨s, stages, hs⟩ := exists_stages false bs
    simp [lineTokens, hs, Function.comp_def]
  have hkept : ((!·.isEmpty) : Bytes → Bool) ∘ trimStage =
      (fun ts => decide (ts ≠ [])) ∘ (tokens .between) ∘ trimStage := by
    funext s
    simp only [Function.comp, ne_eq, tokens_trimStage_eq_nil]
    cases trimStage s <;> simp
  rw [hline, ← map_trimRight_splitStages, keptStages, List.filter_map, hkept, List.map_map,
    List.map_map, List.filter_map]
  have htrim : (tokens .between) ∘ trimStage = (tokens .between) ∘ trimRight := by
    funext s
    exact tokens_trimStage s
  rw [htrim]

theorem lineTokens_nil (k : Cursor) : lineTokens k [] = [k.pending] := by
  simp only [lineTokens, splitStages]
  exact congrArg (fun ts => [ts]) (tokens_nil k)

/-- One step of both readers: it is enough that the tokens of every first stage agree. -/
theorem lineTokens_cons {k' : Cursor} {ts : List Token} (hb : b ≠ bar ∨ k.quoted = true)
    (hq : (k.quoted != (b == quote)) = k'.quoted)
    (ht : ∀ s stages, splitStages k'.quoted bs = s :: stages →
      tokens k (trimRight (b :: s)) = ts ++ tokens k' (trimRight s)) :
    lineTokens k (b :: bs) = addTokens ts (lineTokens k' bs) := by
  obtain ⟨s, stages, hs⟩ := exists_stages k'.quoted bs
  simp only [lineTokens, splitStages_cons hb, hq, hs, consFirst, addTokens, ht s stages hs]

theorem addTokens_nil_lineTokens (k : Cursor) (bs : Bytes) :
    addTokens [] (lineTokens k bs) = lineTokens k bs := by
  obtain ⟨s, stages, hs⟩ := exists_stages k.quoted bs
  simp only [lineTokens, hs, addTokens, List.nil_append]

theorem lineTokens_quote (k : Cursor) (bs : Bytes) :
    lineTokens k (quote :: bs) = lineTokens k.toggle bs := by
  rw [← addTokens_nil_lineTokens k.toggle]
  apply lineTokens_cons (Or.inl (by decide)) (by cases k <;> simp [Cursor.quoted, Cursor.toggle])
  intro s stages _
  rw [trimRight_cons_of_not (by decide), tokens_quote, List.nil_append]

theorem lineTokens_separator (hk : k.quoted = false) (hb : isSeparator b = true) :
    lineTokens k (b :: bs) = addTokens k.pending (lineTokens .between bs) := by
  have hq := separator_ne_quote hb
  apply lineTokens_cons (Or.inl (separator_ne_bar hb)) (by rw [hk, beq_false_of_ne hq]; rfl)
  intro s stages _
  exact tokens_trimRight_separator hk hb

theorem lineTokens_redirect (hk : k.quoted = false) :
    lineTokens k (redirect :: bs) = addTokens (k.pending ++ [.input]) (lineTokens .between bs) := by
  apply lineTokens_cons (Or.inl (by decide)) (by rw [hk]; rfl)
  intro s stages _
  rw [trimRight_cons_of_not (by decide), tokens_redirect hk, List.append_assoc]
  rfl

theorem lineTokens_bar (hk : k.quoted = false) :
    lineTokens k (bar :: bs) = k.pending :: lineTokens .between bs := by
  obtain ⟨s, stages, hs⟩ := exists_stages false bs
  have hn : trimRight [] = [] := rfl
  simp only [lineTokens, hk, splitStages_bar, hs, Cursor.quoted_between, List.map_cons, hn,
    tokens_nil]

/-- A byte that stands for itself. In an open quote the separators at the very end of the line
would be lost, so something else has to follow them. -/
theorem lineTokens_literal (hq : b ≠ quote)
    (hb : isSeparator b = false ∧ b ≠ redirect ∧ b ≠ bar ∨
      k.quoted = true ∧ ∃ c ∈ b :: bs, isSeparator c = false) :
    lineTokens k (b :: bs) = lineTokens (k.literal b) bs := by
  have hk : (k.literal b).quoted = k.quoted := by cases k <;> rfl
  have hr : b ≠ bar ∨ k.quoted = true := by
    rcases hb with ⟨_, _, h⟩ | ⟨h, _⟩
    · exact Or.inl h
    · exact Or.inr h
  rw [← addTokens_nil_lineTokens (k.literal b)]
  apply lineTokens_cons hr (by rw [hk, beq_false_of_ne hq, Bool.bne_false])
  intro s stages hs
  rw [List.nil_append, ← tokens_literal hq (by tauto)]
  congr 1
  rcases hb with ⟨h, _⟩ | ⟨hquoted, h⟩
  · exact trimRight_cons_of_not h
  · cases hsep : isSeparator b with
    | false => exact trimRight_cons_of_not hsep
    | true =>
      have hn : ¬ trimRight s = [] := by
        rw [trimRight_eq_nil]
        intro hall
        rw [hk, hquoted] at hs
        obtain ⟨c, hc, hcs⟩ := splitStages_quoted_head hs (by simpa [hsep] using h)
        simp [hall c hc] at hcs
      rw [trimRight_cons, if_neg (fun h => hn h.1)]

theorem lineTokens_literals {l : Bytes} (k : Cursor) (bs : Bytes)
    (hl : ∀ b ∈ l, b ≠ quote ∧ isSeparator b = false ∧ b ≠ redirect ∧ b ≠ bar) :
    lineTokens k (l ++ bs) = lineTokens (l.foldl Cursor.literal k) bs := by
  induction l generalizing k with
  | nil => rfl
  | cons b l ih =>
    obtain ⟨hq, hb⟩ := hl b (by simp)
    rw [List.cons_append, lineTokens_literal hq (Or.inl hb),
      ih _ fun c hc => hl c (List.mem_cons_of_mem _ hc), List.foldl_cons]

/-- The bytes of the word so far, latest first. -/
def Cursor.read : Cursor → Bytes
  | .between => []
  | .word read _ => read

theorem foldl_literal {l : Bytes} (hl : l ≠ []) (k : Cursor) :
    l.foldl Cursor.literal k = .word (l.reverse ++ k.read) k.quoted := by
  induction l generalizing k with
  | nil => exact (hl rfl).elim
  | cons b l ih =>
    by_cases h : l = []
    · subst l
      cases k <;> rfl
    · rw [List.foldl_cons, ih h]
      cases k <;> simp [Cursor.literal, Cursor.read, Cursor.quoted]

section Characters

variable {c : Char} (hb : b ∈ Utf8.encodeChar c)

include hb

theorem eq_quote_iff : b = quote ↔ c = '"' := Utf8.eq_ascii_iff (d := '"') hb (by decide)

theorem eq_redirect_iff : b = redirect ↔ c = '<' := Utf8.eq_ascii_iff (d := '<') hb (by decide)

theorem eq_bar_iff : b = bar ↔ c = '|' := Utf8.eq_ascii_iff (d := '|') hb (by decide)

theorem isSeparator_eq_isSpace : isSeparator b = isSpace c := by
  have h1 : b = 0x20 ↔ c = ' ' := Utf8.eq_ascii_iff (d := ' ') hb (by decide)
  have h2 : b = 0x09 ↔ c = '\t' := Utf8.eq_ascii_iff (d := '\t') hb (by decide)
  have h3 : b = 0x0A ↔ c = '\n' := Utf8.eq_ascii_iff (d := '\n') hb (by decide)
  have h4 : b = 0x0D ↔ c = '\r' := Utf8.eq_ascii_iff (d := '\r') hb (by decide)
  rw [Bool.eq_iff_iff]
  simp [isSeparator, isSpace, h1, h2, h3, h4]

end Characters

end PipeShell.Pipeline
