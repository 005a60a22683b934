import PipeShell.Proofs.Pipeline.Spacing
import PipeShell.Text.Blank

/-! Lines that hold one word as it is read: no quote, no bar, and nothing but spaces around it. -/
namespace PipeShell.Pipeline

/-- A line without the spaces at its ends. -/
def bare (line : String) : String :=
  String.ofList ((line.toList.dropWhile isSpace).rdropWhile isSpace)

/-- Nothing blank is left at the ends of a line when its spaces have been taken off there. -/
def PlainEnds (line : String) : Prop :=
  (∀ c ∈ (bare line).toList.head?, Text.isBlank c = false) ∧
    ∀ c ∈ (bare line).toList.getLast?, Text.isBlank c = false

instance (line : String) : Decidable (PlainEnds line) :=
  decidable_of_iff ((bare line).toList.head?.all (!Text.isBlank ·) = true ∧
      (bare line).toList.getLast?.all (!Text.isBlank ·) = true)
    (by simp [PlainEnds, Option.all_eq_true])

variable {line : String} {c : Char} {cs u v w : List Char}

theorem isBlank_of_isSpace (h : isSpace c = true) : Text.isBlank c = true := by
  simp only [isSpace, Bool.or_eq_true, beq_iff_eq] at h
  rcases h with ((rfl | rfl) | rfl) | rfl <;> decide

/-- A line is what is bare of it, between spaces. -/
theorem exists_spaces (line : String) :
    ∃ u v, line.toList = u ++ ((bare line).toList ++ v) ∧ (∀ c ∈ u, isSpace c = true) ∧
      ∀ c ∈ v, isSpace c = true := by
  refine ⟨line.toList.takeWhile isSpace, (line.toList.dropWhile isSpace).rtakeWhile isSpace,
    ?_, fun c => List.mem_takeWhile_imp, fun c => List.mem_rtakeWhile_imp⟩
  rw [bare, String.toList_ofList, List.rdropWhile_append_rtakeWhile,
    List.takeWhile_append_dropWhile]

/-- Spaces around a word without any are all that is taken off. -/
theorem bare_of_spaces (hline : line.toList = u ++ (w ++ v)) (hu : ∀ c ∈ u, isSpace c = true)
    (hv : ∀ c ∈ v, isSpace c = true) (hw : ∀ c ∈ w, isSpace c = false) :
    bare line = String.ofList w := by
  have hright : w.rdropWhile isSpace = w := by
    rw [List.rdropWhile_eq_self_iff]
    intro hne
    simp [hw _ (List.getLast_mem hne)]
  rw [bare, hline, List.dropWhile_append_of_pos hu]
  cases w with
  | nil => rw [List.nil_append, List.dropWhile_eq_nil_iff.2 hv, List.rdropWhile_nil]
  | cons c w =>
    have hleft : (c :: w ++ v).dropWhile isSpace = c :: w ++ v := by
      simp [hw c List.mem_cons_self]
    rw [hleft, rdropWhile_append_spaces _ hv, hright]

/-- All blank characters at the ends of a line are taken off together with its spaces. -/
theorem trim_eq_bare (h : PlainEnds line) : Text.trim line = bare line := by
  obtain ⟨u, v, hline, hu, hv⟩ := exists_spaces line
  obtain ⟨hhead, hlast⟩ := h
  generalize hm : (bare line).toList = m at hline hhead hlast
  have hu : ∀ c ∈ u, Text.isBlank c = true := fun c hc => isBlank_of_isSpace (hu c hc)
  have hv : ∀ c ∈ v.reverse, Text.isBlank c = true := fun c hc =>
    isBlank_of_isSpace (hv c (List.mem_reverse.1 hc))
  have hleft : Text.trimEndChars ((m ++ v).dropWhile Text.isBlank) =
      Text.trimEndChars (m ++ v) := by
    cases m with
    | nil =>
      have hnil : v.dropWhile Text.isBlank = [] :=
        List.dropWhile_eq_nil_iff.2 fun c hc => hv c (List.mem_reverse.2 hc)
      have hnil' : v.reverse.dropWhile Text.isBlank = [] := List.dropWhile_eq_nil_iff.2 hv
      rw [List.nil_append, hnil, Text.trimEndChars, Text.trimEndChars, hnil']
      rfl
    | cons c m => simp [hhead c rfl]
  have hright : Text.trimEndChars (m ++ v) = m := by
    rw [Text.trimEndChars, List.reverse_append, List.dropWhile_append_of_pos hv]
    rcases List.eq_nil_or_concat m with rfl | ⟨n, c, rfl⟩
    · rfl
    · simp [hlast c (by simp)]
  rw [Text.trim, Text.trimChars, hline, List.dropWhile_append_of_pos hu, hleft, hright, ← hm,
    String.ofList_toList]

/-- The spaces at the ends of a line say nothing. -/
theorem read_bare (line : String) : read (bare line) = read line := by
  obtain ⟨u, v, hline, hu, hv⟩ := exists_spaces line
  rw [read_eq_pipelineOf, read_eq_pipelineOf, hline, ← List.append_assoc,
    rdropWhile_append_spaces _ hv]
  by_cases hm : (bare line).toList.rdropWhile isSpace = []
  · rw [rdropWhile_append_spaces _ (List.rdropWhile_eq_nil_iff.1 hm), hm,
      List.rdropWhile_eq_nil_iff.2 hu]
  · have hstart : Balanced [] := by decide
    have hscan := scan_spaces (v := (bare line).toList.rdropWhile isSpace) hstart hu
      (Or.inl (by simp))
    rw [List.nil_append, List.nil_append] at hscan
    rw [rdropWhile_append _ hm, hscan]

namespace Scan

variable {s : Scan}

/-- What a scan has found, latest first. -/
def found (s : Scan) : List Token := s.pending ++ s.stage

/-- A scan of characters among which there is no quote and no bar. As long as it has found one
word, the word stands between spaces, and goes on where none follow. -/
structure OneWord (s : Scan) (cs : List Char) : Prop where
  quoted : s.quoted = false
  stages : s.stages = []
  nothing : s.found = [] → ∀ c ∈ cs, isSpace c = true
  one : ∀ w, s.found = [.word (String.ofList w)] → ∃ u v, cs = u ++ (w ++ v) ∧
    (∀ c ∈ u, isSpace c = true) ∧ (∀ c ∈ v, isSpace c = true) ∧ (∀ c ∈ w, isSpace c = false) ∧
    (s.word ≠ none → v = [])

theorem OneWord.space (h : s.OneWord cs) (hc : isSpace c = true) :
    s.endWord.OneWord (cs ++ [c]) := by
  have hfound : s.endWord.found = s.found := rfl
  have hspaces : ∀ v : List Char, (∀ d ∈ v, isSpace d = true) →
      ∀ d ∈ v ++ [c], isSpace d = true := by
    intro v hv
    simpa [or_imp, forall_and, hc] using hv
  refine ⟨h.quoted, h.stages, ?_, ?_⟩
  · rw [hfound]
    exact fun hnil => hspaces cs (h.nothing hnil)
  · intro w hw
    obtain ⟨u, v, rfl, hu, hv, hplain, -⟩ := h.one w (hfound ▸ hw)
    refine ⟨u, v ++ [c], by simp, hu, hspaces v hv, hplain, ?_⟩
    exact fun hword => absurd rfl hword

theorem OneWord.operator (h : s.OneWord cs) : s.operator.OneWord (cs ++ ['<']) := by
  have hfound : s.operator.found = .input :: s.found := rfl
  refine ⟨h.quoted, h.stages, ?_, ?_⟩
  · rw [hfound]
    rintro ⟨⟩
  · rw [hfound]
    rintro w ⟨⟩

theorem OneWord.literal (h : s.OneWord cs) (hc : isSpace c = false) :
    (s.literal c).OneWord (cs ++ [c]) := by
  have hfound : (s.literal c).found =
      .word (String.ofList (s.word.getD [] |>.reverse |>.concat c)) :: s.stage := by
    simp [found, Scan.literal, pending]
  refine ⟨h.quoted, h.stages, ?_, ?_⟩
  · rw [hfound]
    rintro ⟨⟩
  · intro w hw
    rw [hfound, List.cons.injEq, Token.word.injEq, String.ofList_inj] at hw
    obtain ⟨rfl, hstage⟩ := hw
    cases hword : s.word with
    | none =>
      have hspaces := h.nothing (by simp [found, pending, hword, hstage])
      exact ⟨cs, [], by simp, hspaces, by simp, by simpa using hc, fun _ => rfl⟩
    | some x =>
      obtain ⟨u, v, hcs, hu, -, hplain, hv⟩ :=
        h.one x.reverse (by simp [found, pending, hword, hstage])
      obtain rfl := hv (by simp [hword])
      refine ⟨u, [], by simp [hcs], hu, by simp, ?_, fun _ => rfl⟩
      simpa [or_imp, forall_and, hc] using hplain

theorem OneWord.step (h : s.OneWord cs) (hq : c ≠ '"') (hb : c ≠ '|') :
    (s.step c).OneWord (cs ++ [c]) := by
  rw [Scan.step, if_neg hq, if_neg (by simp [h.quoted])]
  by_cases hc : isSpace c = true
  · rw [if_pos hc]
    exact h.space hc
  · rw [if_neg hc]
    by_cases hi : c = '<'
    · rw [if_pos hi, hi]
      exact h.operator
    · rw [if_neg hi, if_neg hb]
      exact h.literal (by simpa using hc)

theorem oneWord_foldl (hq : '"' ∉ cs) (hb : '|' ∉ cs) : (cs.foldl Scan.step {}).OneWord cs := by
  induction cs using List.reverseRecOn with
  | nil => exact ⟨rfl, rfl, by simp, by rintro w ⟨⟩⟩
  | append_singleton cs c ih =>
    have hq : '"' ∉ cs ∧ '"' ≠ c := by simpa using hq
    have hb : '|' ∉ cs ∧ '|' ≠ c := by simpa using hb
    rw [List.foldl_append]
    exact (ih hq.1 hb.1).step hq.2.symm hb.2.symm

end Scan

/-- Characters without a quote and a bar are one stage. -/
theorem scan_eq_found (hq : '"' ∉ cs) (hb : '|' ∉ cs) :
    scan cs = [(cs.foldl Scan.step {}).found.reverse].filter (· ≠ []) := by
  rw [scan, Scan.endStage, Scan.endWord, (Scan.oneWord_foldl hq hb).stages]
  rfl

/-- Tokens without an operator are words. -/
theorem words_of_targets {ts : List Token} (h : targets ts = []) :
    ts = (plainWords ts).map .word := by
  fun_induction targets ts with
  | case1 => rfl
  | case2 w ts ih => rw [plainWords, List.map_cons, ← ih h]
  | case3 w ts ih => cases h
  | case4 ts hlone ih => cases h

/-- A stage that gives a command without arguments and input has one token. -/
theorem tokens_of_name {ts : List Token} {c : Command} (h : commandOf true ts = .ok c)
    (hargs : c.arguments = []) (hinput : c.input = none) : ts = [.word c.name] := by
  obtain ⟨hbad, hwords, hfile, -⟩ := commandOf_eq_ok h
  have hnone : targets ts = [] := by
    cases ht : targets ts with
    | nil => rfl
    | cons file files =>
      rw [hinput, ht] at hfile
      obtain rfl : none = file := hfile
      exact absurd (Or.inl (ht ▸ List.mem_cons_self)) hbad
  rw [words_of_targets hnone, hwords, hargs]
  rfl

/-- What is read as a name and nothing else has this name between spaces. -/
theorem exists_word_of_scan {c : Command} (hq : '"' ∉ cs) (hb : '|' ∉ cs)
    (h : pipelineOf (scan cs) = .ok (some [c])) (hargs : c.arguments = [])
    (hinput : c.input = none) : ∃ u v, cs = u ++ (c.name.toList ++ v) ∧
      (∀ d ∈ u, isSpace d = true) ∧ (∀ d ∈ v, isSpace d = true) ∧
      ∀ d ∈ c.name.toList, isSpace d = false := by
  obtain ⟨first, rest, _, _, hstages, hp, -, hc, -⟩ := pipelineOf_eq_some.1 h
  obtain ⟨rfl, -⟩ := List.cons.inj hp
  rw [scan_eq_found hq hb] at hstages
  have hfirst : first = (cs.foldl Scan.step {}).found.reverse := by
    have hmem : first ∈ first :: rest := List.mem_cons_self
    rw [← hstages] at hmem
    exact List.mem_singleton.1 (List.mem_of_mem_filter hmem)
  have hfound : (cs.foldl Scan.step {}).found = [.word (String.ofList c.name.toList)] := by
    rw [← List.reverse_reverse (Scan.found _), ← hfirst, tokens_of_name hc hargs hinput,
      String.ofList_toList]
    rfl
  obtain ⟨u, v, hcs, hu, hv, hplain, -⟩ := (Scan.oneWord_foldl hq hb).one _ hfound
  exact ⟨u, v, hcs, hu, hv, hplain⟩

/-- A line that is read as a name and nothing else, without a quote or a bar, is the name with
spaces around it. -/
theorem bare_of_read {c : Command} (h : read line = .ok (some [c])) (hargs : c.arguments = [])
    (hinput : c.input = none) (hq : '"' ∉ line.toList) (hb : '|' ∉ line.toList) :
    bare line = c.name := by
  have hsub := (List.rdropWhile_prefix isSpace line.toList).subset
  rw [read_eq_pipelineOf] at h
  obtain ⟨u, v, hcs, hu, hv, hplain⟩ := exists_word_of_scan (fun hmem => hq (hsub hmem))
    (fun hmem => hb (hsub hmem)) h hargs hinput
  have hends := List.rdropWhile_append_rtakeWhile (p := isSpace) (l := line.toList)
  rw [hcs, List.append_assoc, List.append_assoc] at hends
  have hspaces : ∀ d ∈ v ++ line.toList.rtakeWhile isSpace, isSpace d = true := by
    intro d hd
    rcases List.mem_append.1 hd with hd | hd
    · exact hv d hd
    · exact List.mem_rtakeWhile_imp hd
  rw [bare_of_spaces hends.symm hu hspaces hplain, String.ofList_toList]

end PipeShell.Pipeline
