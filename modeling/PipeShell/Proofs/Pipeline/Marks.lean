import PipeShell.Proofs.Pipeline.Stages

/-! The scan of a line over any alphabet, and by slices. The reader is this scan over bytes; the
same scan runs over characters. Every slice that it takes is in range. -/
namespace PipeShell.Pipeline

/-- The letters that mean something in a line. -/
structure Marks (α : Type) where
  quote : α → Bool
  bar : α → Bool
  redirect : α → Bool
  space : α → Bool

/-- A part of a list by the places where it begins and ends. -/
structure Slice where
  start : Nat
  stop : Nat

/-- The letters of a slice. There are none if it is out of range. -/
def Slice.of? {α : Type} (s : Slice) (xs : List α) : Option (List α) :=
  if s.start ≤ s.stop ∧ s.stop ≤ xs.length then some ((xs.take s.stop).drop s.start) else none

/-- A slice in range is as long as its places say. -/
theorem Slice.length_of? {α : Type} {s : Slice} {xs ys : List α} (h : s.of? xs = some ys) :
    s.stop = s.start + ys.length := by
  rw [of?] at h
  split at h
  · case isTrue hrange =>
    obtain rfl := Option.some.inj h
    rw [List.length_drop, List.length_take, Nat.min_eq_left hrange.2]
    omega
  · cases h

/-- A token with the letters as they were collected. -/
inductive Lexeme (α : Type)
  | word (letters : List α)
  | input
deriving DecidableEq

def Lexeme.map {α β : Type} (f : List α → List β) : Lexeme α → Lexeme β
  | .word letters => .word (f letters)
  | .input => .input

namespace Marks

variable {α : Type} (m : Marks α)

def stages (quoted : Bool) : List α → List (List α)
  | [] => [[]]
  | x :: xs =>
    if m.bar x && !quoted then [] :: stages quoted xs
    else (stages (quoted != m.quote x) xs).modifyHead (x :: ·)

/-- The slices of the stages, at a place in the line, where the stage there began at `start`. -/
def stageSlices (quoted : Bool) (start place : Nat) : List α → List Slice
  | [] => [⟨start, place⟩]
  | x :: xs =>
    if m.bar x && !quoted then
      ⟨start, place⟩ :: stageSlices quoted (place + 1) (place + 1) xs
    else stageSlices (quoted != m.quote x) start (place + 1) xs

def trim (xs : List α) : List α := (xs.dropWhile m.space).rdropWhile m.space

/-- From the first letter that is no space to the last one. -/
def trimSlice (xs : List α) : Slice :=
  let start := xs.findIdx (!m.space ·)
  { start
    stop := match xs.reverse.findIdx? (!m.space ·) with
      | some after => xs.length - after
      | none => start }

def kept (line : List α) : List (List α) :=
  ((m.stages false line).map m.trim).filter (!·.isEmpty)

/-- The tokens of a stage. In a word its letters are kept latest first, and whether a quote is
open. -/
def lexemes : (word : Option (List α × Bool)) → List α → List (Lexeme α)
  | none, [] => []
  | some (read, _), [] => [.word read.reverse]
  | none, x :: xs =>
    if m.space x then lexemes none xs
    else if m.redirect x then .input :: lexemes none xs
    else if m.quote x then lexemes (some ([], true)) xs
    else lexemes (some ([x], false)) xs
  | some (read, quoted), x :: xs =>
    if m.quote x then lexemes (some (read, !quoted)) xs
    else if !quoted && m.space x then .word read.reverse :: lexemes none xs
    else if !quoted && m.redirect x then .word read.reverse :: .input :: lexemes none xs
    else lexemes (some (x :: read, quoted)) xs

variable {m} {q : Bool} {xs : List α}

theorem stages_ne_nil (q : Bool) (xs : List α) : m.stages q xs ≠ [] := by
  induction xs generalizing q with
  | nil => simp [stages]
  | cons x xs ih =>
    rw [stages]
    split
    · simp
    · simpa using ih _

/-- The slices are in range, and they are the stages. -/
theorem of?_stageSlices (q : Bool) {start : Nat} {before : List α} (h : start ≤ before.length)
    (xs : List α) : (m.stageSlices q start before.length xs).mapM (·.of? (before ++ xs)) =
      some ((m.stages q xs).modifyHead (before.drop start ++ ·)) := by
  induction xs generalizing q start before with
  | nil =>
    have hslice : Slice.of? ⟨start, before.length⟩ before = some (before.drop start) := by
      simp [Slice.of?, h]
    simp [stageSlices, stages, hslice]
  | cons x xs ih =>
    have hplace : before.length + 1 = (before ++ [x]).length := by simp
    have hline : before ++ x :: xs = before ++ [x] ++ xs := by simp
    rw [stageSlices, stages]
    split
    · have hslice : Slice.of? ⟨start, before.length⟩ (before ++ x :: xs) =
          some (before.drop start) := by
        simp [Slice.of?, h]
      have hrest := ih q (Nat.le_refl (before ++ [x]).length)
      rw [← hplace, ← hline] at hrest
      have hnone : ((before ++ [x]).drop (before.length + 1) ++ ·) = (id : List α → List α) := by
        funext ys
        simp
      rw [List.mapM_cons, hslice, hrest, hnone]
      simp
    · have hstart : start ≤ (before ++ [x]).length := by
        rw [← hplace]
        exact Nat.le_succ_of_le h
      have hrest := ih (q != m.quote x) hstart
      rw [← hplace, ← hline] at hrest
      rw [hrest, List.modifyHead_modifyHead]
      congr 2
      funext ys
      simp [List.drop_append_of_le_length h]

/-- Those of a whole line. -/
theorem of?_stages (line : List α) :
    (m.stageSlices false 0 0 line).mapM (·.of? line) = some (m.stages false line) := by
  obtain ⟨stage, stages, hs⟩ := List.exists_cons_of_ne_nil (stages_ne_nil (m := m) false line)
  have hslices := of?_stageSlices (m := m) false (Nat.zero_le ([] : List α).length) line
  rw [hs] at hslices ⊢
  exact hslices

theorem rdropWhile_eq_take (p : α → Bool) (xs : List α) :
    xs.rdropWhile p = xs.take (xs.length - xs.reverse.findIdx (!p ·)) := by
  rw [List.rdropWhile, List.dropWhile_eq_drop_findIdx_not, List.reverse_drop, List.reverse_reverse,
    List.length_reverse]

/-- The slice that a stage is trimmed to is in range. -/
theorem of?_trimSlice (xs : List α) : (m.trimSlice xs).of? xs = some (m.trim xs) := by
  have htrim : m.trim xs = (xs.drop (xs.findIdx (!m.space ·))).rdropWhile m.space := by
    rw [trim, List.dropWhile_eq_drop_findIdx_not]
  cases hlast : xs.reverse.findIdx? (!m.space ·) with
  | none =>
    have hall : xs.findIdx (!m.space ·) = xs.length := by
      rw [List.findIdx_eq_length]
      intro x hx
      exact List.findIdx?_eq_none_iff.1 hlast x (List.mem_reverse.2 hx)
    rw [htrim, hall, List.drop_length]
    simp [trimSlice, hlast, hall, Slice.of?]
  | some after =>
    obtain ⟨hlt, hafter⟩ := List.findIdx?_eq_some_iff_findIdx_eq.1 hlast
    rw [List.length_reverse] at hlt
    -- the last letter that is no space is not before the first
    have hfirst : xs.findIdx (!m.space ·) ≤ xs.length - 1 - after := by
      by_contra hn
      have hspace := List.not_of_lt_findIdx (Nat.lt_of_not_le hn)
      have hfound : xs.reverse.findIdx (!m.space ·) < xs.reverse.length := by
        rw [hafter, List.length_reverse]
        exact hlt
      have hletter := List.findIdx_getElem (w := hfound)
      simp only [hafter, List.getElem_reverse] at hletter
      rw [hspace] at hletter
      cases hletter
    have hrange : xs.findIdx (!m.space ·) ≤ xs.length - after ∧ xs.length - after ≤ xs.length := by
      omega
    have hrest : (xs.drop (xs.findIdx (!m.space ·))).reverse.findIdx (!m.space ·) = after := by
      rw [List.reverse_drop, List.findIdx_take, hafter]
      omega
    rw [htrim, rdropWhile_eq_take, hrest, List.length_drop]
    simp only [trimSlice, hlast, Slice.of?, if_pos hrange, List.drop_take]
    congr 2
    omega

/-- Letters without a meaning join the stage and the word that they stand in. -/
structure Plain (m : Marks α) (x : α) : Prop where
  quote : m.quote x = false
  bar : m.bar x = false
  redirect : m.redirect x = false
  space : m.space x = false

section Plain

variable {l : List α} (h : ∀ x ∈ l, m.Plain x)

include h

theorem stages_plain (q : Bool) (xs : List α) :
    m.stages q (l ++ xs) = (m.stages q xs).modifyHead (l ++ ·) := by
  induction l with
  | nil =>
    have hnone : ([] ++ ·) = (id : List α → List α) := rfl
    rw [hnone, List.modifyHead_id]
    rfl
  | cons x l ih =>
    have hx := h x List.mem_cons_self
    have hl := ih fun y hy => h y (List.mem_cons_of_mem x hy)
    rw [List.cons_append, stages, hx.bar, hx.quote]
    simp only [Bool.false_and, Bool.false_eq_true, if_false, Bool.bne_false, hl,
      List.modifyHead_modifyHead]
    rfl

theorem stageSlices_plain (q : Bool) (start place : Nat) (xs : List α) :
    m.stageSlices q start place (l ++ xs) = m.stageSlices q start (place + l.length) xs := by
  induction l generalizing place with
  | nil => rfl
  | cons x l ih =>
    have hx := h x List.mem_cons_self
    have hl := ih (fun y hy => h y (List.mem_cons_of_mem x hy)) (place + 1)
    rw [List.cons_append, stageSlices, hx.bar, hx.quote]
    simp only [Bool.false_and, Bool.false_eq_true, if_false, Bool.bne_false, hl, List.length_cons]
    rw [Nat.add_assoc, Nat.add_comm 1]

theorem lexemes_plain_word (read : List α) (q : Bool) (xs : List α) :
    m.lexemes (some (read, q)) (l ++ xs) = m.lexemes (some (l.reverse ++ read, q)) xs := by
  induction l generalizing read with
  | nil => rfl
  | cons x l ih =>
    have hx := h x List.mem_cons_self
    have hl := ih (fun y hy => h y (List.mem_cons_of_mem x hy)) (x :: read)
    rw [List.cons_append, lexemes, hx.quote, hx.space, hx.redirect]
    simp only [Bool.and_false, Bool.false_eq_true, if_false, hl, List.reverse_cons,
      List.append_assoc, List.singleton_append]

theorem lexemes_plain_between (hne : l ≠ []) (xs : List α) :
    m.lexemes none (l ++ xs) = m.lexemes (some (l.reverse, false)) xs := by
  obtain ⟨x, l, rfl⟩ := List.exists_cons_of_ne_nil hne
  have hx := h x List.mem_cons_self
  have hl := lexemes_plain_word (fun y hy => h y (List.mem_cons_of_mem x hy)) [x] false xs
  rw [List.cons_append, lexemes, hx.quote, hx.space, hx.redirect]
  simp only [Bool.false_eq_true, if_false, hl, List.reverse_cons]

end Plain

/-- The marks that the reader knows. -/
def bytes : Marks UInt8 where
  quote := (· == Pipeline.quote)
  bar := (· == Pipeline.bar)
  redirect := (· == Pipeline.redirect)
  space := isSeparator

end Marks

/-- A token, when the bytes of a word are read as text. -/
def Lexeme.token : Lexeme UInt8 → Token
  | .word letters => .word (Utf8.toStringLossy letters)
  | .input => .input

/-- The word that a cursor stands in. -/
def Cursor.word? : Cursor → Option (Bytes × Bool)
  | .between => none
  | .word read quoted => some (read, quoted)

theorem splitStages_eq_stages (q : Bool) (bs : Bytes) :
    splitStages q bs = Marks.bytes.stages q bs := by
  induction bs generalizing q with
  | nil => rfl
  | cons b bs ih =>
    obtain ⟨s, ss, hs⟩ := exists_stages (q != (b == quote)) bs
    have hrest := ih (q != (b == quote))
    rw [splitStages, Marks.stages, hs, ih]
    rw [hs] at hrest
    simp only [Marks.bytes] at hrest ⊢
    rw [← hrest]
    rfl

theorem keptStages_eq_kept (line : Bytes) : keptStages line = Marks.bytes.kept line := by
  rw [keptStages, Marks.kept, splitStages_eq_stages]
  rfl

/-- The tokens are the words as they are collected, each read as text. -/
theorem tokens_eq_lexemes (k : Cursor) (bs : Bytes) :
    tokens k bs = (Marks.bytes.lexemes k.word? bs).map Lexeme.token := by
  have hmarks : Marks.bytes = ⟨(· == quote), (· == bar), (· == redirect), isSeparator⟩ := rfl
  rw [hmarks]
  -- both make the same tests in the same order at every byte
  fun_induction tokens k bs <;>
    simp only [Cursor.word?, Marks.lexemes, Lexeme.token, wordToken, List.map_nil, List.map_cons,
      Bool.false_eq_true, if_true, if_false, *]

end PipeShell.Pipeline
