import Mathlib.Algebra.Order.BigOperators.Group.List
import Mathlib.Algebra.Order.Group.Nat
import PipeShell.Proofs.Pipeline.RoundTrip

/-! How long the text of a pipeline can be. Quotes and separators are counted beside the texts of
its commands, which have limits of their own. -/
namespace PipeShell

open Utf8 (size size_append size_intercalate)

/-- Quotes are two bytes. -/
theorem size_tokenText_le (t : String) : size (tokenText t) ≤ size t + 2 := by
  have hquote : size "\"" = 1 := rfl
  rw [tokenText]
  split
  · rw [size_append, size_append, hquote]
    omega
  · exact Nat.le_add_right _ 2

namespace Command

variable {c : Command}

theorem sum_arguments_le (c : Command) :
    (c.arguments.map fun t => size " " + size t).sum ≤ size c.argsText + 1 := by
  rw [Pipeline.sum_spaced, Pipeline.size_argsText, Pipeline.joinedSize]
  omega

theorem sum_tokenTexts_le (ts : List String) :
    (ts.map fun t => size " " + size (tokenText t)).sum ≤
      (ts.map fun t => size " " + size t).sum + 2 * ts.length := by
  induction ts with
  | nil => exact Nat.le_refl _
  | cons t ts ih =>
    have ht := size_tokenText_le t
    simp only [List.map_cons, List.sum_cons, List.length_cons]
    omega

/-- The words of a command: its name and at most sixteen arguments, each with quotes. -/
theorem size_words_le (h : c.Fits) :
    size (String.intercalate " " ((c.name :: c.arguments).map tokenText)) ≤ 353 := by
  have hname := size_tokenText_le c.name
  have htokens := sum_tokenTexts_le c.arguments
  have harguments := c.sum_arguments_le
  have hname_size := h.name_size
  have hlength := h.arguments_length
  have hargs_size := h.args_size
  rw [List.map_cons, size_intercalate, List.map_map]
  simp only [Function.comp_def]
  omega

theorem size_text_of_none (h : c.Fits) (hi : c.input = none) : size c.text ≤ 353 := by
  rw [text, hi, String.append_empty]
  exact size_words_le h

theorem size_text_le (h : c.Fits) {limit : Nat} (hi : ∀ file ∈ c.input, size file ≤ limit) :
    size c.text ≤ 358 + limit := by
  have hwords := size_words_le h
  have hredirect : size " < " = 3 := rfl
  cases hinput : c.input with
  | none =>
    have hnone := size_text_of_none h hinput
    omega
  | some file =>
    have hfile := size_tokenText_le file
    have hlimit := hi file hinput
    rw [text, hinput, size_append, size_append, hredirect]
    omega

end Command

namespace Pipeline

variable {p : Pipeline}

/-- Eight commands of the longest kind, with the bars between them and one input file. -/
theorem size_text_le (h : p.WellFormed) {limit : Nat}
    (hi : ∀ c ∈ p, ∀ file ∈ c.input, size file ≤ limit) : size (text p) ≤ 2850 + limit := by
  obtain ⟨c, cs, rfl⟩ := List.exists_cons_of_ne_nil h.ne_nil
  have hfirst := Command.size_text_le (h.fits c List.mem_cons_self) (hi c List.mem_cons_self)
  have hlength : cs.length ≤ 7 := Nat.le_of_succ_le_succ h.length_le
  have hlater : ((cs.map Command.text).map fun t => size " | " + size t).sum ≤ cs.length * 356 := by
    have hbound : ∀ n ∈ (cs.map Command.text).map fun t => size " | " + size t, n ≤ 356 := by
      intro n hn
      obtain ⟨t, ht, rfl⟩ := List.mem_map.1 hn
      obtain ⟨d, hd, rfl⟩ := List.mem_map.1 ht
      have hbar : size " | " = 3 := rfl
      have hsize := Command.size_text_of_none (h.fits d (List.mem_cons_of_mem c hd))
        (h.input_tail d hd)
      omega
    simpa using List.sum_le_card_nsmul _ 356 hbound
  rw [text, List.map_cons, size_intercalate]
  omega

/-- A text joined of parts is made of what its parts and the separator are made of. -/
theorem forall_mem_intercalate {P : Char → Prop} {sep : String} {ts : List String}
    (hsep : ∀ c ∈ sep.toList, P c) (h : ∀ t ∈ ts, ∀ c ∈ t.toList, P c) :
    ∀ c ∈ (String.intercalate sep ts).toList, P c := by
  induction ts with
  | nil => exact fun c hc => absurd hc List.not_mem_nil
  | cons t ts ih =>
    cases ts with
    | nil => simpa using h t List.mem_cons_self
    | cons u ts =>
      intro c hc
      have hrest := ih fun v hv => h v (List.mem_cons_of_mem t hv)
      rw [String.intercalate_cons_cons, String.toList_append, String.toList_append] at hc
      rcases List.mem_append.1 hc with hc | hc
      · rcases List.mem_append.1 hc with hc | hc
        · exact h t List.mem_cons_self c hc
        · exact hsep c hc
      · exact hrest c hc

theorem forall_mem_tokenText {P : Char → Prop} {t : String} (hquote : P '"')
    (h : ∀ c ∈ t.toList, P c) : ∀ c ∈ (tokenText t).toList, P c := by
  rw [tokenText]
  split
  · intro c hc
    simp only [String.toList_append, List.mem_append, String.reduceToList,
      List.mem_singleton] at hc
    rcases hc with (rfl | hc) | rfl
    · exact hquote
    · exact h c hc
    · exact hquote
  · exact h

/-- Writing adds no characters but quotes, spaces, bars and operators. -/
theorem forall_mem_text {P : Char → Prop} (hwritten : ∀ c ∈ "\" |<".toList, P c)
    (h : ∀ c ∈ p, ∀ t ∈ c.texts, ∀ d ∈ t.toList, P d) : ∀ d ∈ (text p).toList, P d := by
  have hquote : P '"' := hwritten '"' (by decide)
  have hspace : P ' ' := hwritten ' ' (by decide)
  have hbar : P '|' := hwritten '|' (by decide)
  have hredirect : P '<' := hwritten '<' (by decide)
  refine forall_mem_intercalate (by simp [hspace, hbar]) ?_
  intro t ht
  obtain ⟨c, hc, rfl⟩ := List.mem_map.1 ht
  have htoken : ∀ t ∈ c.texts, ∀ d ∈ (tokenText t).toList, P d :=
    fun t ht => forall_mem_tokenText hquote (h c hc t ht)
  have hwords : ∀ d ∈
      (String.intercalate " " ((c.name :: c.arguments).map tokenText)).toList, P d := by
    refine forall_mem_intercalate (by simp [hspace]) ?_
    intro t ht
    obtain ⟨u, hu, rfl⟩ := List.mem_map.1 ht
    exact htoken u (List.mem_append_left _ hu)
  intro d hd
  rw [Command.text, String.toList_append] at hd
  rcases List.mem_append.1 hd with hd | hd
  · exact hwords d hd
  · cases hi : c.input with
    | none => simp [hi] at hd
    | some file =>
      rw [hi, String.toList_append] at hd
      rcases List.mem_append.1 hd with hd | hd
      · have hmark : ∀ e ∈ " < ".toList, P e := by simp [hspace, hredirect]
        exact hmark d hd
      · exact htoken file (by simp [Command.texts, hi]) d hd

end Pipeline
end PipeShell
