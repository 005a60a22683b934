import PipeShell.Yaml.BlockScalar
import PipeShell.Yaml.FlowScalar

/-!
The tokens of a document. Blocks are opened and closed by indentation, and a key without a mark of
its own is found when the colon after it is met: its token goes in front of what has been read
since.
-/
namespace PipeShell.Yaml

inductive Token
  | documentStart
  | documentEnd
  | blockSequenceStart
  | blockMappingStart
  | blockEnd
  | flowSequenceStart
  | flowSequenceEnd
  | flowMappingStart
  | flowMappingEnd
  | blockEntry
  | flowEntry
  | key
  | value
  | scalar (s : Scalar)
deriving DecidableEq, Repr

/-- A place where a key may turn out to begin. -/
structure PossibleKey where
  start : Glyph
  /-- How many tokens come before it. -/
  number : Nat
  /-- Nothing but a key can begin here. -/
  isRequired : Bool

structure Scan where
  tokens : Array Token := #[]
  /-- The columns of the open blocks, innermost first. -/
  blocks : List Nat := []
  /-- A possible key for each open flow collection, innermost first, and one for the blocks. -/
  keys : List (Option PossibleKey) := [none]
  /-- A key may begin here. -/
  keyAllowed : Bool := true

namespace Scan

def inFlow (s : Scan) : Bool := 1 < s.keys.length

/-- The column of the innermost block. -/
def indent (s : Scan) : Int :=
  match s.blocks with
  | [] => -1
  | column :: _ => column

def push (t : Token) (s : Scan) : Scan := { s with tokens := s.tokens.push t }

/-- A key and its colon stand in one line and no further apart than this. -/
def maxKey : Nat := 1024

/-- Gives up the possible keys that lie too far back. -/
def dropStaleKeys (here : Glyph) (s : Scan) : Option Scan := do
  let keys ← s.keys.mapM fun
    | none => some none
    | some k =>
      if k.start.line < here.line || k.start.index + maxKey < here.index then
        if k.isRequired then none else some none
      else some (some k)
  some { s with keys }

/-- Gives up the innermost possible key. -/
def clearKey (s : Scan) : Option Scan :=
  match s.keys with
  | some k :: keys => if k.isRequired then none else some { s with keys := none :: keys }
  | _ => some s

/-- Notes that a key may begin here. -/
def saveKey (here : Glyph) (s : Scan) : Option Scan :=
  if !s.keyAllowed then some s
  else do
    let s ← s.clearKey
    let isRequired := !s.inFlow && s.indent == (here.column : Int)
    some { s with keys := some ⟨here, s.tokens.size, isRequired⟩ :: s.keys.drop 1 }

/-- Opens a block at a column, unless one is open there. Its token becomes the one numbered so. -/
def openBlock (column number : Nat) (t : Token) (s : Scan) : Scan :=
  if s.inFlow || (column : Int) ≤ s.indent then s
  else
    { s with blocks := column :: s.blocks, tokens := s.tokens.insertIdxIfInBounds number t }

/-- Closes the blocks that begin after a column. -/
def closeBlocks (column : Int) (s : Scan) : Scan :=
  if s.inFlow then s
  else
    let isOver (block : Nat) : Bool := column < (block : Int)
    { s with
      blocks := s.blocks.dropWhile isOver
      tokens := s.tokens ++ (s.blocks.takeWhile isOver).map fun _ => Token.blockEnd }

def closeAllBlocks (s : Scan) : Scan := s.closeBlocks (-1)

/-- Passes blanks, comments and breaks. A tab counts as a blank only where no key may begin. -/
def skipGap (s : Scan) (inComment : Bool) : List Glyph → Scan × List Glyph
  | [] => (s, [])
  | g :: gs =>
    if isBreak g.char then
      skipGap (if s.inFlow then s else { s with keyAllowed := true }) false gs
    else if inComment || g.char == ' ' || (g.char == '\t' && (s.inFlow || !s.keyAllowed))
        || (g.char == byteOrderMark && g.column == 0) then
      skipGap s inComment gs
    else if g.char == '#' then skipGap s true gs
    else (s, g :: gs)

def documentMark (t : Token) (s : Scan) : Option Scan := do
  let s ← s.closeAllBlocks.clearKey
  some (push t { s with keyAllowed := false })

def flowStart (here : Glyph) (t : Token) (s : Scan) : Option Scan := do
  let s ← s.saveKey here
  some (push t { s with keys := none :: s.keys, keyAllowed := true })

def flowEnd (t : Token) (s : Scan) : Option Scan := do
  let s ← s.clearKey
  some (push t { s with keys := if s.inFlow then s.keys.drop 1 else s.keys, keyAllowed := false })

def flowEntry (s : Scan) : Option Scan := do
  let s ← s.clearKey
  some (push .flowEntry { s with keyAllowed := true })

/-- A mark that belongs to a block, which it opens if need be. -/
def blockMark (here : Glyph) (start : Token) (s : Scan) : Option Scan :=
  if s.inFlow then some s
  else if s.keyAllowed then some (s.openBlock here.column s.tokens.size start)
  else none

def blockEntry (here : Glyph) (s : Scan) : Option Scan := do
  let s ← (← s.blockMark here .blockSequenceStart).clearKey
  some (push .blockEntry { s with keyAllowed := true })

def key (here : Glyph) (s : Scan) : Option Scan := do
  let s ← (← s.blockMark here .blockMappingStart).clearKey
  some (push .key { s with keyAllowed := !s.inFlow })

/-- A colon makes the possible key before it a key. -/
def value (here : Glyph) (s : Scan) : Option Scan :=
  match s.keys with
  | some k :: keys =>
    let s := { s with tokens := s.tokens.insertIdxIfInBounds k.number .key }
    let s := s.openBlock k.start.column k.number .blockMappingStart
    some (push .value { s with keys := none :: keys, keyAllowed := false })
  | _ => do
    let s ← s.blockMark here .blockMappingStart
    some (push .value { s with keyAllowed := !s.inFlow })

def plainScalar (g : Glyph) (gs : List Glyph) (s : Scan) : Option (Scan × List Glyph) := do
  let s ← s.saveKey g
  let (text, atNewLine, rest) ← plain s.inFlow (s.indent + 1) [] .none (g :: gs)
  some (push (.scalar ⟨text, true⟩) { s with keyAllowed := atNewLine }, rest)

def quotedScalar (g : Glyph) (gs : List Glyph) (s : Scan) : Option (Scan × List Glyph) := do
  let s ← s.saveKey g
  let (text, rest) ←
    if g.char == '\'' then singleQuoted [] .none gs else doubleQuoted [] .none .none gs
  some (push (.scalar ⟨text, false⟩) { s with keyAllowed := false }, rest)

def blockScalar (g : Glyph) (gs : List Glyph) (s : Scan) : Option (Scan × List Glyph) := do
  let s ← s.clearKey
  let (text, rest) ← BlockScalar.scan (g.char == '|') s.indent gs
  some (push (.scalar ⟨text, false⟩) { s with keyAllowed := true }, rest)

/-- Characters that begin no plain scalar. Those that begin tags, anchors, aliases and directives
are among them: documents with these are not read. -/
def isReserved (c : Char) : Bool := "#&*!|>%@`\t".toList.contains c

/-- Reads a token that begins with a glyph. -/
def token (g : Glyph) (gs : List Glyph) (s : Scan) : Option (Scan × List Glyph) := do
  let s ← s.dropStaleKeys g
  let s := s.closeBlocks g.column
  let mark (s : Option Scan) : Option (Scan × List Glyph) := s.map (·, gs)
  if isMarker '-' (g :: gs) then (s.documentMark .documentStart).map (·, gs.drop 2)
  else if isMarker '.' (g :: gs) then (s.documentMark .documentEnd).map (·, gs.drop 2)
  else
    match g.char with
    | '[' => mark (s.flowStart g .flowSequenceStart)
    | '{' => mark (s.flowStart g .flowMappingStart)
    | ']' => mark (s.flowEnd .flowSequenceEnd)
    | '}' => mark (s.flowEnd .flowMappingEnd)
    | ',' => mark s.flowEntry
    | '\'' => s.quotedScalar g gs
    | '"' => s.quotedScalar g gs
    | c =>
      if c == '-' && wordEnds gs then mark (s.blockEntry g)
      else if c == '?' && (s.inFlow || wordEnds gs) then mark (s.key g)
      else if c == ':' && (s.inFlow || wordEnds gs) then mark (s.value g)
      else if (c == '|' || c == '>') && !s.inFlow then s.blockScalar g gs
      else if isReserved c then none
      else s.plainScalar g gs

/-- Reads tokens as long as each takes something off the document. -/
def run (s : Scan) (gs : List Glyph) : Option (List Token) :=
  match s.skipGap false gs with
  | (s, []) => s.closeAllBlocks.clearKey.map (·.tokens.toList)
  | (s, g :: rest) =>
    match s.token g rest with
    | none => none
    | some (s, rest) => if _h : rest.length < gs.length then run s rest else none
termination_by gs.length

end Scan

/-- The tokens of a document, if it can be cut into tokens. -/
def tokens? (text : String) : Option (List Token) := do
  let gs ← glyphs? text.toList
  Scan.run {} gs

end PipeShell.Yaml
