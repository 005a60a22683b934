import Mathlib.Algebra.Group.Nat.Even
import PipeShell.Proofs.Pipeline.NormalForm

/-! Spaces outside quotes. They end a word and do nothing else, so at a place where no word goes on
any number of them may stand, and at the end of a line they may stand in an open quote as well. -/
namespace PipeShell.Pipeline

/-- Every quote in these characters is closed. -/
def Balanced (cs : List Char) : Prop := Even (cs.count '"')

instance (cs : List Char) : Decidable (Balanced cs) := inferInstanceAs (Decidable (Even _))

/-- Outside quotes no word goes on before or behind this character. -/
def Breaks (c : Char) : Prop := isSpace c = true ∨ c = '|' ∨ c = '<'

instance (c : Char) : Decidable (Breaks c) := inferInstanceAs (Decidable (_ ∨ _ ∨ _))

variable {c d : Char} {cs u v w : List Char}

theorem quote_not_breaks : ¬ Breaks '"' := by decide

theorem balanced_append_iff (hw : '"' ∉ w) : Balanced (u ++ w) ↔ Balanced u := by
  simp [Balanced, List.count_eq_zero_of_not_mem hw]

theorem quote_not_mem_spaces (hw : ∀ c ∈ w, isSpace c = true) : '"' ∉ w := by
  intro hq
  exact quote_not_breaks (Or.inl (hw '"' hq))

theorem rdropWhile_append_spaces (u : List Char) (hw : ∀ c ∈ w, isSpace c = true) :
    (u ++ w).rdropWhile isSpace = u.rdropWhile isSpace := by
  induction w using List.reverseRecOn with
  | nil => rw [List.append_nil]
  | append_singleton w c ih =>
    have hc : isSpace c = true := hw c (by simp)
    rw [← List.append_assoc, List.rdropWhile_concat_pos _ _ _ hc]
    exact ih fun d hd => hw d (List.mem_append_left _ hd)

/-- Where something else than spaces follows, only the spaces behind that are at the end. -/
theorem rdropWhile_append (u : List Char) (hv : v.rdropWhile isSpace ≠ []) :
    (u ++ v).rdropWhile isSpace = u ++ v.rdropWhile isSpace := by
  induction v using List.reverseRecOn with
  | nil => exact absurd (List.rdropWhile_nil _) hv
  | append_singleton v c ih =>
    rw [← List.append_assoc]
    by_cases hc : isSpace c = true
    · rw [List.rdropWhile_concat_pos _ _ _ hc] at hv ⊢
      rw [List.rdropWhile_concat_pos _ _ _ hc]
      exact ih hv
    · rw [List.rdropWhile_concat_neg _ _ _ hc, List.rdropWhile_concat_neg _ _ _ hc,
        List.append_assoc]

namespace Scan

variable {s : Scan}

theorem quoted_step (s : Scan) (c : Char) : (s.step c).quoted = (s.quoted != (c == '"')) := by
  by_cases hq : c = '"'
  · subst c
    cases hs : s.quoted <;> simp [step, quote, hs]
  · rw [step, if_neg hq, beq_false_of_ne hq, Bool.bne_false]
    repeat' split
    all_goals rfl

/-- A scan is where it was, inside or outside quotes, behind quotes that are all closed. -/
theorem quoted_foldl (s : Scan) (cs : List Char) :
    (cs.foldl step s).quoted = if Balanced cs then s.quoted else !s.quoted := by
  induction cs generalizing s with
  | nil => rfl
  | cons c cs ih =>
    rw [List.foldl_cons, ih, quoted_step]
    by_cases hq : c = '"'
    · subst c
      have hflip : Balanced ('"' :: cs) ↔ ¬ Balanced cs := by
        rw [Balanced, List.count_cons_self]
        exact Nat.even_add_one
      by_cases h : Balanced cs <;> simp [hflip, h]
    · have hsame : Balanced (c :: cs) ↔ Balanced cs := by
        rw [Balanced, List.count_cons_of_ne (by simpa using hq)]
        rfl
      simp only [hsame, beq_false_of_ne hq, Bool.bne_false]

theorem unquoted_foldl (hs : s.quoted = false) (h : Balanced cs) :
    (cs.foldl step s).quoted = false := by
  rw [quoted_foldl, if_pos h, hs]

theorem proper_foldl (cs : List Char) : (cs.foldl step {}).Proper := by
  rcases List.eq_nil_or_concat cs with rfl | ⟨ds, c, rfl⟩
  · exact fun _ => rfl
  · rw [List.concat_eq_append, List.foldl_append]
    exact proper_step _ c

theorem endWord_between (h : s.word = none) : s.endWord = s := by
  obtain ⟨quoted, word, stage, stages⟩ := s
  obtain rfl : word = none := h
  rfl

theorem endWord_endWord (s : Scan) : s.endWord.endWord = s.endWord := endWord_between rfl

theorem endStage_endWord (s : Scan) : s.endWord.endStage = s.endStage := by
  simp only [endStage, endWord_endWord]
  rfl

theorem operator_endWord (s : Scan) : s.endWord.operator = s.operator := by
  simp only [operator, endWord_endWord]

theorem step_space (hs : s.quoted = false) (hc : isSpace c = true) : s.step c = s.endWord := by
  have hq : c ≠ '"' := by
    rintro rfl
    exact quote_not_breaks (Or.inl hc)
  rw [step, if_neg hq, if_neg (by simp [hs]), if_pos hc]

theorem step_bar (hs : s.quoted = false) : s.step '|' = s.endStage := by
  simp [step, hs, isSpace]

theorem step_redirect (hs : s.quoted = false) : s.step '<' = s.operator := by
  simp [step, hs, isSpace]

/-- A word that ends at a character anyway may have ended before it. -/
theorem step_endWord (hs : s.quoted = false) (hd : Breaks d) : s.endWord.step d = s.step d := by
  have hended : s.endWord.quoted = false := hs
  rcases hd with hspace | rfl | rfl
  · rw [step_space hs hspace, step_space hended hspace, endWord_endWord]
  · rw [step_bar hs, step_bar hended, endStage_endWord]
  · rw [step_redirect hs, step_redirect hended, operator_endWord]

theorem word_step (hs : s.quoted = false) (hc : Breaks c) : (s.step c).word = none := by
  rcases hc with hspace | rfl | rfl
  · rw [step_space hs hspace]
    rfl
  · rw [step_bar hs]
    rfl
  · rw [step_redirect hs]
    rfl

theorem foldl_spaces (hs : s.quoted = false) (hw : ∀ c ∈ w, isSpace c = true) :
    w.foldl step s = s ∨ w.foldl step s = s.endWord := by
  induction w generalizing s with
  | nil => exact Or.inl rfl
  | cons c w ih =>
    have hrest := ih (s := s.endWord) hs fun d hd => hw d (List.mem_cons_of_mem c hd)
    rw [endWord_endWord, or_self] at hrest
    rw [List.foldl_cons, step_space hs (hw c List.mem_cons_self)]
    exact Or.inr hrest

/-- No word goes on behind the characters that a scan has met. -/
theorem word_foldl (hu : Balanced u) (hlast : ∀ c ∈ u.getLast?, Breaks c) :
    (u.foldl step {}).word = none := by
  rcases List.eq_nil_or_concat u with rfl | ⟨us, c, rfl⟩
  · rfl
  · rw [List.concat_eq_append] at hu hlast ⊢
    have hc : Breaks c := hlast c (by simp)
    have hus : Balanced us := by
      refine (balanced_append_iff ?_).1 hu
      intro hq
      obtain rfl := List.mem_singleton.1 hq
      exact quote_not_breaks hc
    rw [List.foldl_append, List.foldl_cons, List.foldl_nil]
    exact word_step (unquoted_foldl rfl hus) hc

/-- Spaces change nothing where no word goes on, before them or behind them. -/
theorem foldl_spaces_append (hs : s.quoted = false) (hw : ∀ c ∈ w, isSpace c = true)
    (hborder : s.word = none ∨ ∃ d v', v = d :: v' ∧ Breaks d) :
    (w ++ v).foldl step s = v.foldl step s := by
  rw [List.foldl_append]
  rcases foldl_spaces hs hw with hsame | hended
  · rw [hsame]
  · rw [hended]
    rcases hborder with hword | ⟨d, v', rfl, hd⟩
    · rw [endWord_between hword]
    · rw [List.foldl_cons, List.foldl_cons, step_endWord hs hd]

end Scan

theorem scan_spaces (hu : Balanced u) (hw : ∀ c ∈ w, isSpace c = true)
    (hborder : (∀ c ∈ u.getLast?, Breaks c) ∨ ∃ d v', v = d :: v' ∧ Breaks d) :
    scan (u ++ (w ++ v)) = scan (u ++ v) := by
  have hs : (u.foldl Scan.step {}).quoted = false := Scan.unquoted_foldl rfl hu
  have hsame := Scan.foldl_spaces_append hs hw (hborder.imp_left (Scan.word_foldl hu))
  rw [scan, scan, List.foldl_append, hsame, List.foldl_append]

/-- The quote that is still open at the end of a line may be closed. -/
theorem scan_quote (hu : ¬ Balanced u) : scan (u ++ ['"']) = scan u := by
  have hopen : (u.foldl Scan.step {}).quoted = true := by
    rw [Scan.quoted_foldl, if_neg hu]
    rfl
  obtain ⟨w, hw⟩ : ∃ w, (u.foldl Scan.step {}).word = some w := by
    cases hw : (u.foldl Scan.step {}).word with
    | none => exact absurd (Scan.proper_foldl u hw) (by simp [hopen])
    | some w => exact ⟨w, rfl⟩
  have hstages : (u.foldl Scan.step {}).quote.endStage.stages =
      (u.foldl Scan.step {}).endStage.stages := by
    simp [Scan.quote, Scan.endStage, Scan.endWord, Scan.pending, hw]
  rw [scan, scan, List.foldl_append]
  exact congrArg (fun stages => (List.reverse stages).filter (· ≠ [])) hstages

/-- Spaces make no difference outside quotes where no word goes on, nor anywhere at the end of a
line; neither does the quote that closes one still open there. -/
theorem read_spacing (u v w : String) (hw : ∀ c ∈ w.toList, isSpace c = true) :
    (Balanced u.toList →
      (∀ c ∈ u.toList.getLast?, Breaks c) ∨ (∀ c ∈ v.toList.head?, Breaks c) →
        read (u ++ w ++ v) = read (u ++ v)) ∧
    read (u ++ w) = read u ∧
    (¬ Balanced u.toList → (∀ c ∈ u.toList.getLast?, isSpace c = false) →
      read (u ++ "\"") = read u) := by
  have htrail : ∀ x, (x ++ w.toList).rdropWhile isSpace = x.rdropWhile isSpace :=
    fun x => rdropWhile_append_spaces x hw
  refine ⟨?_, ?_, ?_⟩
  · intro hu hborder
    simp only [read_eq_pipelineOf, String.toList_append, List.append_assoc]
    by_cases hv : v.toList.rdropWhile isSpace = []
    · -- nothing but spaces follows, all of them at the end of the line
      have hspaces : ∀ c ∈ v.toList, isSpace c = true := List.rdropWhile_eq_nil_iff.1 hv
      rw [← List.append_assoc, rdropWhile_append_spaces _ hspaces, htrail,
        rdropWhile_append_spaces _ hspaces]
    · have hwv : (w.toList ++ v.toList).rdropWhile isSpace =
          w.toList ++ v.toList.rdropWhile isSpace := rdropWhile_append _ hv
      have hne : (w.toList ++ v.toList).rdropWhile isSpace ≠ [] := by
        rw [hwv]
        exact List.append_ne_nil_of_right_ne_nil _ hv
      obtain ⟨d, v', hd⟩ := List.exists_cons_of_ne_nil hv
      have hhead : v.toList.head? = some d := by
        have hprefix := List.rdropWhile_prefix isSpace v.toList
        rw [hd] at hprefix
        obtain ⟨rest, hrest⟩ := hprefix
        rw [← hrest]
        rfl
      rw [rdropWhile_append _ hne, hwv, rdropWhile_append _ hv,
        scan_spaces hu hw (hborder.imp_right fun h => ⟨d, v', hd, h d hhead⟩)]
  · simp only [read_eq_pipelineOf, String.toList_append, htrail]
  · intro hu hlast
    have hsame : u.toList.rdropWhile isSpace = u.toList := by
      rw [List.rdropWhile_eq_self_iff]
      intro hne
      simp [hlast _ (List.getLast_mem_getLast? hne)]
    have hquote : "\"".toList = ['"'] := rfl
    rw [read_eq_pipelineOf, read_eq_pipelineOf, String.toList_append, hquote, hsame,
      List.rdropWhile_concat_neg _ _ _ (by decide), scan_quote hu]

/-- Spaces between a redirection and its file, before a stage whose last quote stays open. -/
theorem read_spacing_beforeFile :
    Balanced "a \"x y\" <".toList ∧ ¬ Balanced "f|b \"c".toList ∧
      read ("a \"x y\" <" ++ "\t\r " ++ "f|b \"c") = .ok (some
        [{ name := "a", arguments := ["x y"], input := some "f" },
          { name := "b", arguments := ["c"] }]) ∧
      read ("f|b \"c" ++ "\t\r ") = read "f|b \"c" ∧
      read ("f|b \"c" ++ "\"") = read "f|b \"c" := by
  have hw : ∀ c ∈ "\t\r ".toList, isSpace c = true := List.all_eq_true.1 (by decide)
  have hclosed : Balanced "a \"x y\" <".toList := by decide
  have hopen : ¬ Balanced "f|b \"c".toList := by decide
  have hplain : read ("a \"x y\" <" ++ "f|b \"c") = .ok (some
      [{ name := "a", arguments := ["x y"], input := some "f" },
        { name := "b", arguments := ["c"] }]) := by decide +kernel
  have hredirect : ∀ c ∈ "a \"x y\" <".toList.getLast?, Breaks c := by
    intro c hc
    obtain rfl : '<' = c := Option.some.inj hc
    exact Or.inr (Or.inr rfl)
  have hletter : ∀ c ∈ "f|b \"c".toList.getLast?, isSpace c = false := by
    intro c hc
    obtain rfl : 'c' = c := Option.some.inj hc
    rfl
  obtain ⟨hinside, -, -⟩ := read_spacing "a \"x y\" <" "f|b \"c" "\t\r " hw
  obtain ⟨-, hend, hquote⟩ := read_spacing "f|b \"c" "" "\t\r " hw
  refine ⟨hclosed, hopen, ?_, hend, hquote hopen hletter⟩
  rw [hinside hclosed (Or.inl hredirect), hplain]

end PipeShell.Pipeline
