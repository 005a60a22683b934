import PipeShell.Text.Numeral
import PipeShell.Yaml.Glyph

/-!
Plain and quoted scalars. They may run over several lines, and the gaps between their words are
folded.
-/
namespace PipeShell.Yaml

structure Scalar where
  text : String
  /-- Written without quotes and not as a block. -/
  isPlain : Bool
deriving DecidableEq, Repr

/-- The value of a place where nothing is written. -/
def Scalar.empty : Scalar := ⟨"", true⟩

/-- What stands between two words of a scalar: blanks, or a first break and further ones. The
break itself may have been escaped. -/
inductive Gap
  | none
  | spaces (cs : List Char)
  | breaks (first : Option Char) (more : List Char)
deriving DecidableEq, Repr

namespace Gap

/-- Blanks around a break are dropped. -/
def add (c : Char) : Gap → Gap
  | .none => if isBreak c then .breaks (some c) [] else .spaces [c]
  | .spaces cs => if isBreak c then .breaks (some c) [] else .spaces (cs ++ [c])
  | .breaks first more => .breaks first (if isBreak c then more ++ [c] else more)

/-- A single line feed stands for a space, and of several the first is dropped. -/
def text : Gap → List Char
  | .none => []
  | .spaces cs => cs
  | .breaks (some '\n') [] => [' ']
  | .breaks (some '\n') more => more
  | .breaks first more => first.toList ++ more

def hasBreak : Gap → Bool
  | .breaks _ _ => true
  | _ => false

end Gap

def isFlowIndicator (c : Char) : Bool := c == ',' || c == '[' || c == ']' || c == '{' || c == '}'

/-- A plain scalar is over before these glyphs, `gap` being what was passed since its last word. -/
def plainEnds (inFlow : Bool) (indent : Int) (gap : Gap) (g : Glyph) (gs : List Glyph) : Bool :=
  (gap != .none && (g.char == '#' || (!inFlow && (g.column : Int) < indent)))
    || isDocumentMarker (g :: gs)
    || (g.char == ':' && wordEnds gs)
    || (inFlow && isFlowIndicator g.char)

/-- In a flow collection a colon must not be followed by an indicator. -/
def colonMisplaced (inFlow : Bool) (g : Glyph) (gs : List Glyph) : Bool :=
  inFlow && g.char == ':' && match gs with
    | n :: _ => n.char == '?' || isFlowIndicator n.char
    | [] => false

/-- The text of a plain scalar, whether a break follows it, and the glyphs after it. `read` holds
the characters so far, latest first. -/
def plain (inFlow : Bool) (indent : Int) (read : List Char) (gap : Gap) :
    List Glyph → Option (String × Bool × List Glyph)
  | [] => some (String.ofList read.reverse, gap.hasBreak, [])
  | g :: gs =>
    if isSpace g.char || isBreak g.char then
      if g.char == '\t' && gap.hasBreak && (g.column : Int) < indent then none
      else plain inFlow indent read (gap.add g.char) gs
    else if plainEnds inFlow indent gap g gs then
      some (String.ofList read.reverse, gap.hasBreak, g :: gs)
    else if colonMisplaced inFlow g gs then none
    else plain inFlow indent (g.char :: (gap.text.reverse ++ read)) .none gs

/-- The text of a scalar in single quotes, and the glyphs after it. Two quotes stand for one. -/
def singleQuoted (read : List Char) (gap : Gap) : List Glyph → Option (String × List Glyph)
  | [] => none
  | g :: gs =>
    if isSpace g.char || isBreak g.char then singleQuoted read (gap.add g.char) gs
    else if isDocumentMarker (g :: gs) then none
    else
      let read := gap.text.reverse ++ read
      if g.char == '\'' then
        match gs with
        | n :: later =>
          if n.char == '\'' then singleQuoted ('\'' :: read) .none later
          else some (String.ofList read.reverse, n :: later)
        | [] => some (String.ofList read.reverse, [])
      else singleQuoted (g.char :: read) .none gs

/-- The character that a backslash and a letter stand for. -/
def escaped? (c : Char) : Option Char :=
  [('0', '\x00'), ('a', '\x07'), ('b', '\x08'), ('t', '\t'), ('\t', '\t'), ('n', '\n'),
    ('v', '\x0B'), ('f', '\x0C'), ('r', '\r'), ('e', '\x1B'), (' ', ' '), ('"', '"'), ('/', '/'),
    ('\\', '\\'), ('N', '\u0085'), ('_', '\u00A0'), ('L', '\u2028'), ('P', '\u2029')].lookup c

/-- How many hexadecimal digits follow a backslash and a letter. -/
def escapeDigits? (c : Char) : Option Nat := [('x', 2), ('u', 4), ('U', 8)].lookup c

def charOfCode? (n : Nat) : Option Char :=
  if n < 0xD800 ∨ 0xDFFF < n ∧ n ≤ 0x10FFFF then some (Char.ofNat n) else none

/-- Where a scan of a scalar in double quotes stands. -/
inductive Escape
  | none
  | begun
  /-- So many digits are owed after one more. -/
  | digits (owed value : Nat)

/-- The text of a scalar in double quotes, and the glyphs after it. -/
def doubleQuoted (read : List Char) (gap : Gap) :
    Escape → List Glyph → Option (String × List Glyph)
  | _, [] => none
  | .none, g :: gs =>
    if isSpace g.char || isBreak g.char then doubleQuoted read (gap.add g.char) .none gs
    else if isDocumentMarker (g :: gs) then none
    else
      let read := gap.text.reverse ++ read
      if g.char == '"' then some (String.ofList read.reverse, gs)
      else if g.char == '\\' then doubleQuoted read .none .begun gs
      else doubleQuoted (g.char :: read) .none .none gs
  | .begun, g :: gs =>
    if isBreak g.char then doubleQuoted read (.breaks .none []) .none gs
    else
      match escaped? g.char, escapeDigits? g.char with
      | some c, _ => doubleQuoted (c :: read) .none .none gs
      | none, some n => doubleQuoted read .none (.digits (n - 1) 0) gs
      | none, none => none
  | .digits owed value, g :: gs =>
    match Text.digitValue? g.char with
    | none => none
    | some d =>
      match owed with
      | owed + 1 => doubleQuoted read .none (.digits owed (value * 16 + d)) gs
      | 0 =>
        match charOfCode? (value * 16 + d) with
        | some c => doubleQuoted (c :: read) .none .none gs
        | none => none

end PipeShell.Yaml
