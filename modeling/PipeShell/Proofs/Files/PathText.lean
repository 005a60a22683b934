import Mathlib.Tactic.SplitIfs
import PipeShell.Files.PathText

/-! Paths and search paths in their pieces. A separator between two texts divides their pieces, and
pieces without separators are found again when they have been joined by separators. -/
namespace PipeShell.PathText

theorem splitAtChar_eq_splitOn (c : Char) (text : List Char) :
    splitAtChar c text = text.splitOn c := by
  induction text with
  | nil => rfl
  | cons d ds ih =>
    obtain ⟨s, ss, hs⟩ := List.exists_cons_of_ne_nil (List.splitOn_ne_nil c ds)
    rw [List.splitOn_cons_eq_if_modifyHead, hs]
    simp only [splitAtChar, ih, hs]
    rfl

theorem splitAtChar_append (c : Char) (first second : List Char) :
    splitAtChar c (first ++ c :: second) = splitAtChar c first ++ splitAtChar c second := by
  simp only [splitAtChar_eq_splitOn, List.splitOn_append_cons_self]

theorem not_mem_of_mem_splitAtChar {c : Char} {text piece : List Char}
    (h : piece ∈ splitAtChar c text) : c ∉ piece := by
  induction text generalizing piece with
  | nil =>
    obtain rfl := List.mem_singleton.1 h
    exact List.not_mem_nil
  | cons d ds ih =>
    obtain ⟨s, ss, hs⟩ : ∃ s ss, splitAtChar c ds = s :: ss := by
      rw [splitAtChar_eq_splitOn]
      exact List.exists_cons_of_ne_nil (List.splitOn_ne_nil c ds)
    rw [hs] at ih
    simp only [splitAtChar, hs] at h
    split at h
    · rcases List.mem_cons.1 h with rfl | hrest
      · exact List.not_mem_nil
      · exact ih hrest
    · case isFalse hd =>
      rcases List.mem_cons.1 h with rfl | hrest
      · rintro (_ | ⟨_, hc⟩)
        · exact hd (beq_self_eq_true c)
        · exact ih List.mem_cons_self hc
      · exact ih (List.mem_cons_of_mem s hrest)

/-- Cutting loses no other character, and adds none. -/
theorem exists_mem_splitAtChar {c d : Char} (hd : d ≠ c) {text : List Char} :
    (∃ piece ∈ splitAtChar c text, d ∈ piece) ↔ d ∈ text := by
  induction text with
  | nil => simp [splitAtChar]
  | cons e es ih =>
    obtain ⟨s, ss, hs⟩ : ∃ s ss, splitAtChar c es = s :: ss := by
      rw [splitAtChar_eq_splitOn]
      exact List.exists_cons_of_ne_nil (List.splitOn_ne_nil c es)
    rw [List.mem_cons, ← ih]
    by_cases he : e = c
    · subst he
      simp [splitAtChar, hs, hd]
    · simp [splitAtChar, hs, he, or_assoc]

/-- Texts without a separator, joined by separators and cut again. -/
theorem splitAtChar_intercalate {c : Char} {pieces : List String} (hne : pieces ≠ [])
    (h : ∀ piece ∈ pieces, c ∉ piece.toList) :
    (splitAtChar c (String.intercalate (String.singleton c) pieces).toList).map String.ofList =
      pieces := by
  have htexts : ∀ text ∈ pieces.map String.toList, c ∉ text := by
    intro text htext
    obtain ⟨piece, hpiece, rfl⟩ := List.mem_map.1 htext
    exact h piece hpiece
  have hmap : pieces.map String.toList ≠ [] := by
    intro hnil
    exact hne (List.map_eq_nil_iff.1 hnil)
  rw [String.toList_intercalate, String.toList_singleton, splitAtChar_eq_splitOn,
    List.splitOn_intercalate c htexts hmap, List.map_map]
  simp

theorem steps_slash (first second : String) :
    steps (first ++ "/" ++ second) = steps first ++ steps second := by
  have htext : (first ++ "/" ++ second).toList = first.toList ++ '/' :: second.toList := by
    simp
  rw [steps, htext, splitAtChar_append, List.map_append]
  rfl

theorem exists_mem_steps {c : Char} (hc : c ≠ '/') {path : String} :
    (∃ step ∈ steps path, c ∈ step.toList) ↔ c ∈ path.toList := by
  rw [← exists_mem_splitAtChar hc, steps]
  constructor
  · rintro ⟨step, hstep, hmem⟩
    obtain ⟨piece, hpiece, rfl⟩ := List.mem_map.1 hstep
    exact ⟨piece, hpiece, by rwa [String.toList_ofList] at hmem⟩
  · rintro ⟨piece, hpiece, hmem⟩
    exact ⟨_, List.mem_map_of_mem hpiece, by rwa [String.toList_ofList]⟩

theorem entries_colon (first second : String) :
    entries (first ++ ":" ++ second) = entries first ++ entries second := by
  have htext : (first ++ ":" ++ second).toList = first.toList ++ ':' :: second.toList := by
    simp
  rw [entries, htext, splitAtChar_append, List.map_append]
  rfl

theorem steps_ne_nil (path : String) : steps path ≠ [] := by
  rw [steps, splitAtChar_eq_splitOn]
  intro h
  exact List.splitOn_ne_nil _ _ (List.map_eq_nil_iff.1 h)

/-- A search path is its entries with colons between them. -/
theorem intercalate_entries (searchPath : String) :
    String.intercalate ":" (entries searchPath) = searchPath ∧ entries searchPath ≠ [] ∧
      ∀ entry ∈ entries searchPath, ':' ∉ entry.toList := by
  refine ⟨?_, ?_, ?_⟩
  · apply String.toList_injective
    have hmap : (entries searchPath).map String.toList = searchPath.toList.splitOn ':' := by
      rw [entries, List.map_map, splitAtChar_eq_splitOn]
      simp
    rw [String.toList_intercalate, hmap]
    exact List.intercalate_splitOn ':'
  · rw [entries, splitAtChar_eq_splitOn]
    intro h
    exact List.splitOn_ne_nil _ _ (List.map_eq_nil_iff.1 h)
  · intro entry hentry
    obtain ⟨text, htext, rfl⟩ := List.mem_map.1 hentry
    rw [String.toList_ofList]
    exact not_mem_of_mem_splitAtChar htext

theorem isAbsolute_append {first : String} (h : first ≠ "") (second : String) :
    isAbsolute (first ++ second) = isAbsolute first := by
  obtain ⟨c, cs, hcs⟩ := List.exists_cons_of_ne_nil (mt String.toList_eq_nil_iff.1 h)
  rw [isAbsolute, isAbsolute, String.toList_append, hcs]
  rfl

theorem join_ne_empty (base : String) {path : String} (h : path ≠ "") : join base path ≠ "" := by
  rw [join]
  split_ifs <;> simp [h]

/-- A path that goes on behind a slash goes on behind the joined path. -/
theorem join_slash (base : String) {first : String} (h : first ≠ "") (second : String) :
    join base (first ++ "/" ++ second) = join base first ++ "/" ++ second := by
  have habsolute : isAbsolute (first ++ "/" ++ second) = isAbsolute first := by
    rw [String.append_assoc, isAbsolute_append h]
  simp only [join, habsolute]
  split_ifs <;> simp only [String.append_assoc]

/-- An absolute path stands for itself. -/
theorem join_absolute (base : String) {path : String} (h : isAbsolute path = true) :
    join base path = path := by
  rw [join, h]
  rfl

/-- Joining nothing only ends a base in a slash, which the next path would be put behind anyway. -/
theorem join_empty_join (base : String) {path : String} (h : isAbsolute path = false) :
    join (join base "") path = join base path := by
  by_cases hbase : base = ""
  · subst hbase
    rfl
  by_cases hslash : base.toList.getLast? = some '/'
  · have hempty : join base "" = base := by
      simp [join, isAbsolute, hbase, hslash]
    rw [hempty]
  · have hempty : join base "" = base ++ "/" := by
      simp [join, isAbsolute, hbase, hslash]
    rw [hempty]
    simp [join, h, hbase, hslash]

end PipeShell.PathText
