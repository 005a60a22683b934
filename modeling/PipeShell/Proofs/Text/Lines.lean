import Mathlib.Data.List.Basic
import Mathlib.Data.List.TakeWhile
import PipeShell.Text.Line

/-! Bytes up to an end mark, and the lines of some bytes, taken off one after the other. -/
namespace PipeShell.Text

theorem takeWhile_of_not_mem {b : UInt8} {bs : Bytes} (h : b ∉ bs) :
    bs.takeWhile (· != b) = bs := by
  apply List.takeWhile_eq_self_iff.2
  intro b' hb
  rw [bne_iff_ne]
  rintro rfl
  exact h hb

/-- Bytes without an end mark end at the first end mark. -/
theorem takeWhile_marked {b : UInt8} {bs : Bytes} (h : b ∉ bs) (rest : Bytes) :
    (bs ++ b :: rest).takeWhile (· != b) = bs := by
  have hmark : (b :: rest).takeWhile (· != b) = [] := by simp
  have hall : ∀ b' ∈ bs, (b' != b) = true := List.takeWhile_eq_self_iff.1 (takeWhile_of_not_mem h)
  rw [List.takeWhile_append_of_pos hall, hmark, List.append_nil]

/-- The lines of some bytes, each with the line feed that ends it. What stands behind the last line
feed is a line as well, if there is anything. -/
def lines (bs : Bytes) : List Bytes :=
  (bs.splitOn 0x0A).dropLast.map (· ++ [0x0A]) ++
    (bs.splitOn 0x0A).getLast?.toList.filter (· ≠ [])

variable {bs line : Bytes}

theorem splitLine_line (h : lineFeed ∉ line) (more : Bytes) :
    splitLine (line ++ lineFeed :: more) = (line ++ [lineFeed], more) := by
  simp [splitLine, takeWhile_marked h, List.take_append, List.drop_append, List.take_of_length_le]

theorem splitLine_last (h : lineFeed ∉ bs) : splitLine bs = (bs, []) := by
  simp [splitLine, takeWhile_of_not_mem h, List.take_of_length_le]

/-- The first line is what is split off, and the others are the lines of the rest. -/
theorem lines_cons (h : bs ≠ []) : lines bs = (splitLine bs).1 :: lines (splitLine bs).2 := by
  by_cases hmem : lineFeed ∈ bs
  · obtain ⟨line, more, rfl, hline⟩ := List.eq_append_cons_of_mem hmem
    have hcons : (line ++ lineFeed :: more).splitOn 0x0A = line :: more.splitOn 0x0A :=
      List.splitOn_append_cons_self_of_not_mem hline more
    obtain ⟨piece, pieces, hmore⟩ := List.exists_cons_of_ne_nil (List.splitOn_ne_nil 0x0A more)
    rw [splitLine_line hline]
    simp only [lines, hcons, hmore, List.dropLast_cons_cons, List.map_cons, List.cons_append,
      List.getLast?_cons_cons]
    rfl
  · have hone : bs.splitOn 0x0A = [bs] := List.splitOn_eq_singleton hmem
    rw [splitLine_last hmem]
    simp [lines, hone, h]

end PipeShell.Text
