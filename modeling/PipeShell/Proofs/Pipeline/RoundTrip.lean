import PipeShell.Pipeline.Writing
import PipeShell.Proofs.Pipeline.Agreement

/-! Reading what was written. A scan of the text of a pipeline is outside quotes at every border of
tokens and of stages, and so finds the tokens that were written. -/
namespace PipeShell

/-- Every text of a command. -/
def Command.texts (c : Command) : List String := c.name :: c.arguments ++ c.input.toList

/-- The tokens of a command as it is written. -/
def Command.tokens (c : Command) : List Pipeline.Token :=
  (c.name :: c.arguments).map .word ++
    match c.input with
    | some file => [.input, .word file]
    | none => []

/-- A command within the limits, without quotes in its texts. -/
structure Command.Fits (c : Command) : Prop where
  name_ne : c.name ≠ ""
  name_size : Utf8.size c.name < 64
  arguments_length : c.arguments.length ≤ 16
  args_size : Utf8.size c.argsText < 256
  unquoted : ∀ t ∈ c.texts, '"' ∉ t.toList
  input_ne : c.input ≠ some ""

instance (c : Command) : Decidable c.Fits :=
  decidable_of_iff (c.name ≠ "" ∧ Utf8.size c.name < 64 ∧ c.arguments.length ≤ 16 ∧
      Utf8.size c.argsText < 256 ∧ (∀ t ∈ c.texts, '"' ∉ t.toList) ∧ c.input ≠ some "")
    ⟨fun ⟨hn, hs, hl, ha, hq, hi⟩ => ⟨hn, hs, hl, ha, hq, hi⟩,
      fun ⟨hn, hs, hl, ha, hq, hi⟩ => ⟨hn, hs, hl, ha, hq, hi⟩⟩

namespace Pipeline

structure WellFormed (p : Pipeline) : Prop where
  ne_nil : p ≠ []
  length_le : p.length ≤ 8
  fits : ∀ c ∈ p, c.Fits
  /-- Only the first command may have an input. -/
  input_tail : ∀ c ∈ p.tail, c.input = none

instance (p : Pipeline) : Decidable (WellFormed p) :=
  decidable_of_iff (p ≠ [] ∧ p.length ≤ 8 ∧ (∀ c ∈ p, c.Fits) ∧ ∀ c ∈ p.tail, c.input = none)
    ⟨fun ⟨hn, hl, hf, hi⟩ => ⟨hn, hl, hf, hi⟩, fun ⟨hn, hl, hf, hi⟩ => ⟨hn, hl, hf, hi⟩⟩

namespace Scan

variable {st : List Token} {ss : List (List Token)} {cs : List Char} {c : Char}

theorem step_plain {s : Scan} (hs : s.quoted = false) (hq : c ≠ '"') (hc : isSpace c = false)
    (hi : c ≠ '<') (hb : c ≠ '|') : s.step c = s.literal c := by
  simp [step, hq, hs, hc, hi, hb]

theorem foldl_quoted (w : List Char) (h : '"' ∉ cs) :
    cs.foldl step ⟨true, some w, st, ss⟩ = ⟨true, some (cs.reverse ++ w), st, ss⟩ := by
  induction cs generalizing w with
  | nil => rfl
  | cons c cs ih =>
    obtain ⟨hc, hcs⟩ : ¬ '"' = c ∧ '"' ∉ cs := by simpa using h
    have hstep : step ⟨true, some w, st, ss⟩ c = ⟨true, some (c :: w), st, ss⟩ := by
      rw [step, if_neg (Ne.symm hc)]
      rfl
    rw [List.foldl_cons, hstep, ih _ hcs]
    simp

theorem foldl_plain (w : List Char)
    (h : ∀ c ∈ cs, c ≠ '"' ∧ isSpace c = false ∧ c ≠ '<' ∧ c ≠ '|') :
    cs.foldl step ⟨false, some w, st, ss⟩ = ⟨false, some (cs.reverse ++ w), st, ss⟩ := by
  induction cs generalizing w with
  | nil => rfl
  | cons c cs ih =>
    obtain ⟨hq, hc, hi, hb⟩ := h c (by simp)
    rw [List.foldl_cons, step_plain rfl hq hc hi hb, literal,
      ih _ fun d hd => h d (List.mem_cons_of_mem _ hd)]
    simp

/-- Outside quotes, with everything in `st` and `ss` when the word that has begun is ended. -/
structure Reaches (s : Scan) (st : List Token) (ss : List (List Token)) : Prop where
  unquoted : s.quoted = false
  endWord_eq : s.endWord = { stage := st, stages := ss }

theorem plain_of_not_needsQuotes {t : String} (h : needsQuotes t = false) (hq : '"' ∉ t.toList) :
    t.toList ≠ [] ∧ ∀ c ∈ t.toList, c ≠ '"' ∧ isSpace c = false ∧ c ≠ '<' ∧ c ≠ '|' := by
  simp only [needsQuotes, Bool.or_eq_false_iff, beq_eq_false_iff_ne, List.any_eq_false] at h
  obtain ⟨hne, hall⟩ := h
  refine ⟨by simpa using hne, ?_⟩
  intro c hc
  have hn := hall c hc
  simp only [Bool.or_eq_true, beq_iff_eq, not_or] at hn
  obtain ⟨⟨⟨⟨⟨h1, h2⟩, h3⟩, h4⟩, hb⟩, hi⟩ := hn
  refine ⟨?_, by simp [isSpace, h1, h2, h3, h4], hi, hb⟩
  rintro rfl
  exact hq hc

/-- A token is read as one word, with quotes around it or without. -/
theorem reaches_tokenText (st : List Token) (ss : List (List Token)) {t : String}
    (hq : '"' ∉ t.toList) :
    Reaches ((tokenText t).toList.foldl step { stage := st, stages := ss }) (.word t :: st) ss := by
  suffices h : (tokenText t).toList.foldl step { stage := st, stages := ss } =
      ⟨false, some t.toList.reverse, st, ss⟩ by
    rw [h]
    exact ⟨rfl, by simp [endWord, pending]⟩
  rw [tokenText]
  split
  · have hfirst : step { stage := st, stages := ss } '"' = ⟨true, some [], st, ss⟩ := rfl
    simp only [String.toList_append, List.foldl_append, show "\"".toList = ['"'] from rfl,
      List.foldl_cons, List.foldl_nil]
    rw [hfirst, foldl_quoted [] hq, List.append_nil]
    rfl
  · case isFalse h =>
    obtain ⟨hne, hall⟩ := plain_of_not_needsQuotes (by simpa using h) hq
    obtain ⟨c, cs, hc⟩ := List.exists_cons_of_ne_nil hne
    rw [hc] at hall ⊢
    obtain ⟨h1, h2, h3, h4⟩ := hall c (by simp)
    rw [List.foldl_cons, step_plain rfl h1 h2 h3 h4, literal,
      foldl_plain _ fun d hd => hall d (List.mem_cons_of_mem _ hd)]
    simp

variable {s : Scan}

theorem Reaches.space (h : Reaches s st ss) : s.step ' ' = { stage := st, stages := ss } := by
  rw [step, if_neg (by decide), if_neg (by simp [h.unquoted]), if_pos (by decide), h.endWord_eq]

theorem Reaches.bar (h : Reaches s st ss) :
    " | ".toList.foldl step s = { stages := st.reverse :: ss } := by
  rw [show " | ".toList = [' ', '|', ' '] from rfl, List.foldl_cons, h.space]
  rfl

theorem Reaches.redirect (h : Reaches s st ss) :
    " < ".toList.foldl step s = { stage := .input :: st, stages := ss } := by
  rw [show " < ".toList = [' ', '<', ' '] from rfl, List.foldl_cons, h.space]
  rfl

theorem Reaches.endStage (h : Reaches s st ss) : s.endStage.stages = st.reverse :: ss := by
  have hs : s.stages = ss := congrArg Scan.stages h.endWord_eq
  rw [Scan.endStage, h.endWord_eq, hs]

theorem reaches_words (st : List Token) (ss : List (List Token)) {t : String} {ts : List String}
    (hq : ∀ u ∈ t :: ts, '"' ∉ u.toList) :
    Reaches ((String.intercalate " " ((t :: ts).map tokenText)).toList.foldl step
      { stage := st, stages := ss }) (((t :: ts).map Token.word).reverse ++ st) ss := by
  induction ts generalizing t st with
  | nil => simpa using reaches_tokenText st ss (hq t (by simp))
  | cons u ts ih =>
    have ht := reaches_tokenText st ss (hq t (by simp))
    have hu := ih (.word t :: st) fun v hv => hq v (List.mem_cons_of_mem _ hv)
    have hspace : " ".toList = [' '] := rfl
    rw [List.map_cons, List.map_cons, String.intercalate_cons_cons, String.toList_append,
      String.toList_append, List.foldl_append, List.foldl_append, hspace, List.foldl_cons,
      List.foldl_nil, ht.space, ← List.map_cons]
    simpa using hu

end Scan

variable {c : Command}

/-- The text of a command leads from the border of a stage to the end of its last word. -/
theorem reaches_command (ss : List (List Token)) (hq : ∀ t ∈ c.texts, '"' ∉ t.toList) :
    Scan.Reaches (c.text.toList.foldl Scan.step { stages := ss }) c.tokens.reverse ss := by
  have hplain : ∀ u ∈ c.name :: c.arguments, '"' ∉ u.toList :=
    fun u hu => hq u (List.mem_append_left _ hu)
  have hwords := Scan.reaches_words [] ss hplain
  rw [List.append_nil] at hwords
  rw [Command.text, Command.tokens, String.toList_append, List.foldl_append]
  cases hi : c.input with
  | none => simpa [hi] using hwords
  | some file =>
    have hfile := Scan.reaches_tokenText (.input :: ((c.name :: c.arguments).map .word).reverse) ss
      (hq file (by simp [Command.texts, hi]))
    simp only [String.toList_append, List.foldl_append, hwords.redirect]
    simpa using hfile

/-- Every bar ends a stage, and the last stage is still open. -/
theorem reaches_text (ss : List (List Token)) {p : Pipeline} (hp : p ≠ [])
    (hq : ∀ c ∈ p, ∀ t ∈ c.texts, '"' ∉ t.toList) :
    ((Pipeline.text p).toList.foldl Scan.step { stages := ss }).endStage.stages =
      (p.map Command.tokens).reverse ++ ss := by
  induction p generalizing ss with
  | nil => exact (hp rfl).elim
  | cons c p ih =>
    have hc := reaches_command ss (hq c (by simp))
    cases p with
    | nil =>
      simp only [Pipeline.text, List.map_cons, List.map_nil, String.intercalate_singleton]
      rw [hc.endStage, List.reverse_reverse]
      rfl
    | cons d p =>
      have hd := ih (c.tokens :: ss) (by simp) fun e he => hq e (List.mem_cons_of_mem _ he)
      simp only [Pipeline.text, List.map_cons, String.intercalate_cons_cons, String.toList_append,
        List.foldl_append] at hd ⊢
      rw [hc.bar, List.reverse_reverse, hd]
      simp

/-- A text whose last character is there and is no space. -/
def EndsSolid (t : String) : Prop := ∃ c ∈ t.toList.getLast?, isSpace c = false

theorem endsSolid_append (t : String) {u : String} (h : EndsSolid u) : EndsSolid (t ++ u) := by
  obtain ⟨c, hc, hs⟩ := h
  refine ⟨c, ?_, hs⟩
  rw [String.toList_append, List.getLast?_append, Option.mem_def.1 hc]
  rfl

theorem endsSolid_intercalate (sep : String) {ts : List String} (hne : ts ≠ [])
    (h : ∀ t ∈ ts, EndsSolid t) : EndsSolid (String.intercalate sep ts) := by
  induction ts with
  | nil => exact (hne rfl).elim
  | cons t ts ih =>
    cases ts with
    | nil => simpa using h t (by simp)
    | cons u ts =>
      rw [String.intercalate_cons_cons]
      exact endsSolid_append _ (ih (by simp) fun v hv => h v (List.mem_cons_of_mem _ hv))

theorem endsSolid_tokenText {t : String} (hq : '"' ∉ t.toList) : EndsSolid (tokenText t) := by
  rw [tokenText]
  split
  · exact endsSolid_append _ ⟨'"', rfl, by decide⟩
  · case isFalse h =>
    obtain ⟨hne, hall⟩ := Scan.plain_of_not_needsQuotes (by simpa using h) hq
    exact ⟨t.toList.getLast hne, List.getLast?_eq_some_getLast hne,
      (hall _ (List.getLast_mem hne)).2.1⟩

theorem endsSolid_command (hq : ∀ t ∈ c.texts, '"' ∉ t.toList) : EndsSolid c.text := by
  rw [Command.text]
  cases hi : c.input with
  | none =>
    rw [String.append_empty]
    apply endsSolid_intercalate _ (by simp)
    intro t ht
    obtain ⟨u, hu, rfl⟩ := List.mem_map.1 ht
    exact endsSolid_tokenText (hq u (List.mem_append_left _ hu))
  | some file =>
    exact endsSolid_append _ (endsSolid_append _
      (endsSolid_tokenText (hq file (by simp [Command.texts, hi]))))

/-- Nothing is trimmed off the text of a pipeline, and it scans to the tokens written. -/
theorem scan_text {p : Pipeline} (hp : p ≠ []) (hq : ∀ c ∈ p, ∀ t ∈ c.texts, '"' ∉ t.toList) :
    scan ((Pipeline.text p).toList.rdropWhile isSpace) = p.map Command.tokens := by
  have hsolid : EndsSolid (Pipeline.text p) := by
    apply endsSolid_intercalate _ (by simpa using hp)
    intro t ht
    obtain ⟨c, hc, rfl⟩ := List.mem_map.1 ht
    exact endsSolid_command (hq c hc)
  have htrim : (Pipeline.text p).toList.rdropWhile isSpace = (Pipeline.text p).toList := by
    apply List.rdropWhile_eq_self_iff.2
    intro hne
    obtain ⟨c, hc, hs⟩ := hsolid
    obtain ⟨_, rfl⟩ := List.mem_getLast?_eq_getLast hc
    simp [hs]
  have htext := reaches_text [] hp hq
  rw [List.append_nil] at htext
  rw [htrim, scan, htext, List.reverse_reverse, List.filter_eq_self.2]
  intro ts hts
  obtain ⟨c, _, rfl⟩ := List.mem_map.1 hts
  simp [Command.tokens]

theorem plainWords_words (ws : List String) (ts : List Token) :
    plainWords (ws.map .word ++ ts) = ws ++ plainWords ts := by
  induction ws with
  | nil => rfl
  | cons w ws ih => exact congrArg (w :: ·) ih

theorem targets_words (ws : List String) (ts : List Token) :
    targets (ws.map .word ++ ts) = targets ts := by
  induction ws with
  | nil => rfl
  | cons w ws ih => exact ih

theorem commandOf_tokens (isFirst : Bool) (hc : c.Fits)
    (hf : isFirst = true ∨ c.input = none) : commandOf isFirst c.tokens = .ok c := by
  have hplain : plainWords c.tokens = c.name :: c.arguments := by
    rw [Command.tokens, plainWords_words]
    cases c.input <;> simp [plainWords]
  have htargets : targets c.tokens = (c.input.map some).toList := by
    rw [Command.tokens, targets_words]
    cases c.input <;> rfl
  have hbad : ¬ BadRedirect isFirst c.tokens := by
    rw [BadRedirect, htargets]
    have hne := hc.input_ne
    cases hi : c.input with
    | none => simp
    | some file =>
      have hfirst : isFirst = true := hf.resolve_right (by simp [hi])
      rw [hi] at hne
      simp [hfirst, Ne.symm (fun h => hne (congrArg some h))]
  have hsize : ¬ (64 ≤ Utf8.size c.name ∨ 16 < c.arguments.length ∨
      256 ≤ joinedSize c.arguments) := by
    have h1 := hc.name_size
    have h2 := hc.arguments_length
    have h3 := hc.args_size
    rw [size_argsText] at h3
    omega
  have hinput : (targets c.tokens).head?.join = c.input := by
    rw [htargets]
    cases c.input <;> rfl
  rw [commandOf, if_neg hbad, hplain]
  simp only [hinput]
  rw [if_neg hc.name_ne, if_neg hsize]

theorem mapM_commandOf_tokens {p : Pipeline} (hp : ∀ c ∈ p, c.Fits)
    (hi : ∀ c ∈ p, c.input = none) :
    (p.map Command.tokens).mapM (commandOf false) = .ok p := by
  induction p with
  | nil => rfl
  | cons c p ih =>
    have hhead := commandOf_tokens false (hp c List.mem_cons_self)
      (Or.inr (hi c List.mem_cons_self))
    have htail := ih (fun d hd => hp d (List.mem_cons_of_mem c hd)) fun d hd =>
      hi d (List.mem_cons_of_mem c hd)
    rw [List.map_cons, List.mapM_cons, hhead, htail]
    rfl

/-- The tokens of the commands of a pipeline give the pipeline. -/
theorem pipelineOf_tokens {p : Pipeline} (h : p.WellFormed) :
    pipelineOf (p.map Command.tokens) = .ok (some p) := by
  obtain ⟨c, cs, rfl⟩ := List.exists_cons_of_ne_nil h.ne_nil
  have hlen := h.length_le
  have hc := commandOf_tokens true (h.fits c (by simp)) (Or.inl rfl)
  have hcs := mapM_commandOf_tokens (fun d hd => h.fits d (List.mem_cons_of_mem _ hd)) h.input_tail
  rw [List.map_cons, pipelineOf, if_neg (by simpa using hlen), hc]
  simp only [bind, Except.bind, hcs]

theorem read_text_of_wellFormed {p : Pipeline} (h : p.WellFormed) :
    read (Pipeline.text p) = .ok (some p) := by
  rw [read_eq_pipelineOf, scan_text h.ne_nil fun c hc => (h.fits c hc).unquoted,
    pipelineOf_tokens h]

/-- Writing a well-formed pipeline and reading the text gives the pipeline back. -/
theorem read_text {p : Pipeline} (h : p.WellFormed) : read (Pipeline.text p) = .ok (some p) :=
  read_text_of_wellFormed h

/-- Texts with everything in them that would end a token outside quotes. -/
def blanksAndBars : Pipeline :=
  [{ name := "a b", arguments := ["", "x|y", "é\n", "<", "\t"], input := some " | " },
    { name := "|", arguments := ["\r"] }]

theorem read_text_blanksAndBars :
    WellFormed blanksAndBars ∧ read (Pipeline.text blanksAndBars) = .ok (some blanksAndBars) :=
  ⟨by decide, read_text (by decide)⟩

end Pipeline
end PipeShell
