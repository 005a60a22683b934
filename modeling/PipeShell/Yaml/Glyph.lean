import PipeShell.Text.Utf8

/-!
The characters of a document, each with its place. Line breaks are brought to one form first, so
that every break is a single glyph.
-/
namespace PipeShell.Yaml

structure Glyph where
  char : Char
  /-- Counted in bytes from the start of the document. -/
  index : Nat
  line : Nat
  /-- Counted in characters from the start of the line. -/
  column : Nat
deriving Repr

def isSpace (c : Char) : Bool := c == ' ' || c == '\t'

def isBreak (c : Char) : Bool := c == '\n' || c == '\u2028' || c == '\u2029'

def byteOrderMark : Char := '\uFEFF'

def isAllowed (c : Char) : Bool :=
  let n := c.toNat
  n == 0x09 || n == 0x0A || n == 0x0D || (0x20 ≤ n && n ≤ 0x7E) || n == 0x85
    || (0xA0 ≤ n && n ≤ 0xD7FF) || (0xE000 ≤ n && n ≤ 0xFFFD) || 0x10000 ≤ n

/-- Every break as a line feed, but for the line and paragraph separators, which stay what they
are. -/
def uniformBreaks : List Char → List Char
  | [] => []
  | '\r' :: '\n' :: cs => '\n' :: uniformBreaks cs
  | c :: cs => (if c == '\r' || c == '\u0085' then '\n' else c) :: uniformBreaks cs

def place (index line column : Nat) : List Char → List Glyph
  | [] => []
  | c :: cs =>
    let next := index + (Utf8.encodeChar c).length
    ⟨c, index, line, column⟩ ::
      if isBreak c then place next (line + 1) 0 cs else place next line (column + 1) cs

/-- The glyphs of a document, if it holds allowed characters only. A byte order mark at its head
is one of them and takes the first column. -/
def glyphs? (text : List Char) : Option (List Glyph) :=
  let text := uniformBreaks text
  if text.all isAllowed then some (place 0 0 0 text) else none

/-- The glyph before these stands at the end of a word. -/
def wordEnds : List Glyph → Bool
  | [] => true
  | g :: _ => isSpace g.char || isBreak g.char

/-- Three equal marks at the head of a line, and nothing joined to them. -/
def isMarker (mark : Char) : List Glyph → Bool
  | a :: b :: c :: gs =>
    a.column == 0 && a.char == mark && b.char == mark && c.char == mark && wordEnds gs
  | _ => false

def isDocumentMarker (gs : List Glyph) : Bool := isMarker '-' gs || isMarker '.' gs

end PipeShell.Yaml
