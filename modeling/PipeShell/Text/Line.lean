import PipeShell.Text.Utf8

/-!
Lines of bytes. A line ends after a line feed, or where the bytes end.
-/
namespace PipeShell.Text

def lineFeed : UInt8 := 0x0A

/-- The first line, with its line feed if it has one, and the bytes after it. -/
def splitLine (bs : Bytes) : Bytes × Bytes :=
  let n := (bs.takeWhile (· != lineFeed)).length + 1
  (bs.take n, bs.drop n)

theorem splitLine_append (bs : Bytes) : (splitLine bs).1 ++ (splitLine bs).2 = bs :=
  List.take_append_drop _ _

theorem splitLine_length (bs : Bytes) (h : bs ≠ []) : (splitLine bs).2.length < bs.length := by
  have := List.length_pos_iff.2 h
  simp only [splitLine, List.length_drop]
  omega

/-- A text without the line feeds and carriage returns at its end. -/
def trimLineEnd (s : String) : String :=
  String.ofList (s.toList.reverse.dropWhile fun c => c == '\n' || c == '\r').reverse

end PipeShell.Text
