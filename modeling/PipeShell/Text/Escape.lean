import PipeShell.Text.Utf8

/-!
Escape sequences and control characters in a text for people: what is left of it where no terminal
takes them.
-/
namespace PipeShell.Text

/-- Where a reader of escape sequences stands. -/
inductive EscapeState
  | text
  /-- Behind an escape character. -/
  | escape
  /-- In a sequence that ends with its first character that is no intermediate. -/
  | intermediate
  /-- In a sequence with parameters. -/
  | control
  /-- In a command that a bell ends. -/
  | command
  /-- In a string that only a string terminator, a new sequence or a cancel ends. -/
  | string
deriving DecidableEq, Repr

namespace EscapeState

def isIntermediate (c : Char) : Bool := ' ' ≤ c && c ≤ '/'

/-- Tab, line feed, form feed and carriage return. -/
def isLayout (c : Char) : Bool := "\t\n\x0c\r".toList.contains c

/-- A byte 9C, even within a character. -/
def terminates (c : Char) : Bool := (Utf8.encodeChar c).contains 0x9C

/-- The state after a graphic character of a sequence. -/
def advance (s : EscapeState) (c : Char) : EscapeState :=
  match s with
  | .escape =>
    if isIntermediate c then .intermediate
    else if c == '[' then .control
    else if c == ']' then .command
    else if "PX^_".toList.contains c then .string
    else .text
  | .intermediate => if isIntermediate c then .intermediate else .text
  | .control => if c ≤ '?' then .control else .text
  | s => s

/-- The state after a character, and whether the character is shown. -/
def step (s : EscapeState) (c : Char) : EscapeState × Bool :=
  if c == '\x1b' then (.escape, false)
  else if c == '\x18' || c == '\x1a' then (.text, false)
  else
    match s with
    | .text => (.text, isLayout c || (' ' ≤ c && c != '\x7f'))
    | .command => (if c == '\x07' then .text else .command, false)
    | .string => (if terminates c then .text else .string, false)
    | s =>
      if isLayout c then (.text, true)
      else (if ' ' ≤ c && c ≤ '~' then s.advance c else s, false)

/-- The characters of a text, each with whether it is shown. -/
def marked : EscapeState → List Char → List (Char × Bool)
  | _, [] => []
  | s, c :: cs => (c, (s.step c).2) :: marked (s.step c).1 cs

end EscapeState

/-- Characters next to each other that are all shown, or none of which is. -/
structure Span where
  text : List Char
  isShown : Bool
deriving DecidableEq, Repr

def spans (cs : List Char) : List Span :=
  ((EscapeState.marked .text cs).splitBy fun a b => a.2 == b.2).map fun cs =>
    ⟨cs.map (·.1), cs.any (·.2)⟩

/-- A text without its escape sequences, and of its control characters only those that lay it
out. -/
def visible (cs : List Char) : List Char := ((spans cs).filter (·.isShown)).flatMap (·.text)

end PipeShell.Text
