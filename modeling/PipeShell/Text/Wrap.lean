import PipeShell.Text.Blank
import PipeShell.Text.Escape

/-!
Texts broken into lines of a bounded width. A line is broken between two words, and a line that
starts with spaces goes on under them.
-/
namespace PipeShell.Text

/-- The columns that a text takes. A control character and what follows it up to a letter m take
none. -/
def columns : (inSequence : Bool) → List Char → Nat
  | _, [] => 0
  | inSequence, c :: cs =>
    if c < ' ' || c == '\x7f' then columns true cs
    else if inSequence then columns (c != 'm') cs
    else columns false cs + 1

/-- Words, each with the spaces behind it. Spaces at the head are a word of their own. -/
def words (cs : List Char) : List (List Char) := cs.splitBy fun a b => a != ' ' || b == ' '

/-- How far a line is written. -/
structure LineState where
  width : Nat := 0
  /-- What the lines it is broken into begin with, once it has begun. -/
  indent : Option (List Char) := none

namespace LineState

def bytes (cs : List Char) : Nat := (Utf8.encode cs).length

/-- Writes a word and the words after it. The word loses the blanks at its end if a break follows,
and the first word of a line that is not blank stays where it is. -/
def fill (limit : Nat) (atStart : Bool) (s : LineState) (word : List Char) :
    List (List Char) → List Char × LineState
  | [] => (word, s)
  | next :: rest =>
    let size := columns false (trimEndChars next)
    let blanks := bytes next - bytes (trimEndChars next)
    let stays := atStart && 0 < size
    if !stays && limit < s.width + size then
      let indent := s.indent.getD []
      let s := { s with width := bytes indent + size + blanks }
      let (text, s) := fill limit atStart s next rest
      (trimEndChars word ++ '\n' :: (indent ++ text), s)
    else
      let s := { s with width := s.width + size + blanks }
      let (text, s) := fill limit (atStart && !stays) s next rest
      (word ++ text, s)

/-- Writes a piece of a line. -/
def writeLine (limit : Nat) (s : LineState) (cs : List Char) : List Char × LineState :=
  let words := words cs
  let indent := s.indent <|> words.head?.map fun w => if w.all isBlank then w else []
  fill limit s.indent.isNone { s with indent } [] words

/-- Writes a span that is shown, in which lines may end. -/
def write (limit : Nat) (s : LineState) (cs : List Char) : List Char × LineState :=
  match cs.splitBy fun a _ => a != '\n' with
  | [] => ([], s)
  | line :: lines =>
    lines.foldl (fun (out, _) line =>
      let (text, s) := writeLine limit {} line
      (out ++ text, s)) (writeLine limit s line)

end LineState

/-- A text in lines of at most `limit` columns, where words allow it. What is not shown takes no
room and stays where it is. -/
def wrap (limit : Nat) (cs : List Char) : List Char :=
  ((spans cs).foldl (fun (out, s) span =>
    if span.isShown then
      let (text, s) := LineState.write limit s span.text
      (out ++ text, s)
    else (out ++ span.text, s)) (([], {}) : List Char × LineState)).1

end PipeShell.Text
