import PipeShell.Proofs.Pipeline.Spacing

/-! Lines joined by a bar. Where every quote of the first is closed, the stages of both are the
stages of the whole, and only the place of the second pipeline can make a difference to it. -/
namespace PipeShell.Pipeline

variable {a b : List Char} {ts : List Token} {p q : Pipeline}

namespace Scan

variable {s : Scan}

/-- A scan with more stages behind it. -/
def behind (s : Scan) (ss : List (List Token)) : Scan := { s with stages := s.stages ++ ss }

theorem step_behind (s : Scan) (ss : List (List Token)) (c : Char) :
    (s.behind ss).step c = (s.step c).behind ss := by
  have hquoted : (s.behind ss).quoted = s.quoted := rfl
  simp only [step, hquoted]
  split_ifs <;> rfl

/-- What a scan has behind it stays where it is. -/
theorem foldl_behind (s : Scan) (ss : List (List Token)) (cs : List Char) :
    cs.foldl step (s.behind ss) = (cs.foldl step s).behind ss := by
  induction cs generalizing s with
  | nil => rfl
  | cons c cs ih => rw [List.foldl_cons, List.foldl_cons, step_behind, ih]

/-- Outside quotes a scan begins anew behind the end of a stage. -/
theorem endStage_eq_behind (hs : s.quoted = false) :
    s.endStage = behind {} s.endStage.stages := by
  obtain ⟨quoted, word, stage, stages⟩ := s
  obtain rfl : quoted = false := hs
  rfl

end Scan

theorem scan_bar (ha : Balanced a) (b : List Char) : scan (a ++ '|' :: b) = scan a ++ scan b := by
  have hs : (a.foldl Scan.step {}).quoted = false := Scan.unquoted_foldl rfl ha
  have hrun : (a ++ '|' :: b).foldl Scan.step {} =
      (b.foldl Scan.step {}).behind (a.foldl Scan.step {}).endStage.stages := by
    rw [List.foldl_append, List.foldl_cons, Scan.step_bar hs, Scan.endStage_eq_behind hs,
      Scan.foldl_behind]
    rfl
  have hend : ∀ (s : Scan) ss, (s.behind ss).endStage.stages = s.endStage.stages ++ ss :=
    fun _ _ => rfl
  rw [scan, scan, scan, hrun, hend, List.reverse_append, List.filter_append]

/-- Behind quotes that are all closed, spaces at the end of a line give no token. -/
theorem scan_rdropWhile (ha : Balanced a) : scan (a.rdropWhile isSpace) = scan a := by
  have hw : ∀ c ∈ a.rtakeWhile isSpace, isSpace c = true :=
    fun _ hc => List.mem_rtakeWhile_imp hc
  have hsplit : a.rdropWhile isSpace ++ a.rtakeWhile isSpace = a :=
    List.rdropWhile_append_rtakeWhile
  have hclosed : Balanced (a.rdropWhile isSpace) := by
    rw [← hsplit] at ha
    exact (balanced_append_iff (quote_not_mem_spaces hw)).1 ha
  have hs := Scan.unquoted_foldl (s := {}) rfl hclosed
  conv_rhs => rw [← hsplit, scan, List.foldl_append]
  rcases Scan.foldl_spaces hs hw with hsame | hended
  · rw [hsame, scan]
  · rw [hended, Scan.endStage_endWord, scan]

/-- A line up to a bar and the line behind it are trimmed apart. -/
theorem read_bar {a : String} (ha : Balanced a.toList) (b : String) :
    read (a ++ "|" ++ b) = pipelineOf (scan (a.toList.rdropWhile isSpace) ++
      scan (b.toList.rdropWhile isSpace)) := by
  have hbar : "|".toList = ['|'] := rfl
  have htrim : ∀ cs, ('|' :: cs).rdropWhile isSpace = '|' :: cs.rdropWhile isSpace := by
    intro cs
    by_cases hcs : cs.rdropWhile isSpace = []
    · rw [← List.singleton_append, rdropWhile_append_spaces _ (List.rdropWhile_eq_nil_iff.1 hcs),
        hcs]
      rfl
    · exact rdropWhile_append ['|'] hcs
  rw [read_eq_pipelineOf, String.toList_append, String.toList_append, hbar, List.append_assoc,
    List.singleton_append, rdropWhile_append _ (by simp [htrim]), htrim, scan_bar ha,
    scan_rdropWhile ha]

theorem pipelineOf_eq_none {stages : List (List Token)} :
    pipelineOf stages = .ok none ↔ stages = [] := by
  constructor
  · intro h
    cases stages with
    | nil => rfl
    | cons first rest =>
      simp only [pipelineOf] at h
      split at h
      · cases h
      · cases hc : commandOf true first with
        | error e => simp [hc, bind, Except.bind] at h
        | ok c =>
          cases hcs : rest.mapM (commandOf false) with
          | error e => simp [hc, hcs, bind, Except.bind] at h
          | ok cs => simp [hc, hcs, bind, Except.bind] at h
  · rintro rfl
    rfl

/-- A stage that gives a command gives the same behind a bar, if the command has no input. -/
theorem commandOf_behind {c : Command} (h : commandOf true ts = .ok c) :
    commandOf false ts = if c.input.isSome then .error .badRedirect else .ok c := by
  obtain ⟨hgood, -, hinput, -⟩ := commandOf_eq_ok h
  have hany : c.input.isSome = true ↔ targets ts ≠ [] := by
    rw [hinput]
    cases hts : targets ts with
    | nil => simp
    | cons t us =>
      cases t with
      | none => exact absurd (Or.inl (by simp [hts])) hgood
      | some w => simp
  by_cases hsome : c.input.isSome = true
  · have hbad : BadRedirect false ts := Or.inr (Or.inr (Or.inr ⟨rfl, hany.1 hsome⟩))
    rw [if_pos hsome, commandOf, if_pos hbad]
  · have hstill : ¬ BadRedirect false ts := by
      rintro (hbad | hbad | hbad | ⟨-, hbad⟩)
      · exact hgood (Or.inl hbad)
      · exact hgood (Or.inr (Or.inl hbad))
      · exact hgood (Or.inr (Or.inr (Or.inl hbad)))
      · exact hsome (hany.2 hbad)
    rw [commandOf, if_neg hgood] at h
    rw [if_neg hsome, commandOf, if_neg hstill, h]

/-- The stages of two pipelines in one line. -/
theorem pipelineOf_append {xs ys : List (List Token)} (hp : pipelineOf xs = .ok (some p))
    (hq : pipelineOf ys = .ok (some q)) :
    pipelineOf (xs ++ ys) =
      if 8 < p.length + q.length then .error .tooManyCommands
      else if (q.head?.bind (·.input)).isSome then .error .badRedirect
      else .ok (some (p ++ q)) := by
  obtain ⟨first, rest, c, cs, rfl, rfl, -, hc, hcs⟩ := pipelineOf_eq_some.1 hp
  obtain ⟨second, others, d, ds, rfl, rfl, -, hd, hds⟩ := pipelineOf_eq_some.1 hq
  have hlength : (first :: (rest ++ second :: others)).length =
      (c :: cs).length + (d :: ds).length := by
    have hfront := hcs.length_eq
    have hback := hds.length_eq
    simp only [List.length_cons, List.length_append]
    omega
  have hrest : (rest ++ second :: others).mapM (commandOf false) =
      if d.input.isSome then .error .badRedirect else .ok (cs ++ d :: ds) := by
    rw [List.mapM_append, List.mapM_cons, mapM_eq_ok.2 hcs, mapM_eq_ok.2 hds, commandOf_behind hd]
    split <;> rfl
  rw [List.cons_append, pipelineOf, hlength, hc, hrest, List.head?_cons, Option.bind_some]
  by_cases hinput : d.input.isSome = true
  · rw [if_pos hinput, if_pos hinput]
    rfl
  · rw [if_neg hinput, if_neg hinput]
    rfl

/-- A bar between two lines joins their pipelines, if every quote of the first is closed. A line
without a command adds nothing, and a pipeline behind a bar can no longer have an input. -/
theorem read_joined (a b : String) (ha : Balanced a.toList) :
    (read a = .ok none → read (a ++ "|" ++ b) = read b) ∧
    (read b = .ok none → read (a ++ "|" ++ b) = read a) ∧
    ∀ p q, read a = .ok (some p) → read b = .ok (some q) → read (a ++ "|" ++ b) =
      if 8 < p.length + q.length then .error .tooManyCommands
      else if (q.head?.bind (·.input)).isSome then .error .badRedirect
      else .ok (some (p ++ q)) := by
  rw [read_bar ha]
  simp only [read_eq_pipelineOf]
  refine ⟨?_, ?_, ?_⟩
  · intro hnone
    rw [pipelineOf_eq_none.1 hnone, List.nil_append]
  · intro hnone
    rw [pipelineOf_eq_none.1 hnone, List.append_nil]
  · intro p q hp hq
    exact pipelineOf_append hp hq

/-- A file for the first stage and a quote that stays open in the last; the same lines the other
way round; and blank stages on both sides. -/
theorem read_joined_sorted :
    Balanced "sort <f | uniq ".toList ∧
      read ("sort <f | uniq " ++ "|" ++ "tr \"a | b") = .ok (some
        [{ name := "sort", input := some "f" }, { name := "uniq" },
          { name := "tr", arguments := ["a | b"] }]) ∧
      read ("uniq" ++ "|" ++ "sort <f | uniq ") = .error .badRedirect ∧
      read (" | \t" ++ "|" ++ "tr \"a | b") = read "tr \"a | b" ∧
      read ("uniq" ++ "|" ++ " | \t") = read "uniq" := by
  have hsorted : Balanced "sort <f | uniq ".toList := by decide
  have hfirst : read "sort <f | uniq " =
      .ok (some [{ name := "sort", input := some "f" }, { name := "uniq" }]) := by decide +kernel
  have hopen : read "tr \"a | b" =
      .ok (some [{ name := "tr", arguments := ["a | b"] }]) := by decide +kernel
  have huniq : read "uniq" = .ok (some [{ name := "uniq" }]) := by decide +kernel
  have hblank : read " | \t" = .ok none := by decide +kernel
  obtain ⟨-, -, hjoined⟩ := read_joined "sort <f | uniq " "tr \"a | b" hsorted
  obtain ⟨-, -, hbehind⟩ := read_joined "uniq" "sort <f | uniq " (by decide)
  exact ⟨hsorted, hjoined _ _ hfirst hopen, hbehind _ _ huniq hfirst,
    (read_joined " | \t" "tr \"a | b" (by decide)).1 hblank,
    (read_joined "uniq" " | \t" (by decide)).2.1 hblank⟩

end PipeShell.Pipeline
