import PipeShell.Yaml.Glyph

/-!
Block scalars: a header, then the lines that are indented at least as far as the first of them.
-/
namespace PipeShell.Yaml.BlockScalar

/-- What becomes of the breaks at the end. -/
inductive Chomp
  | strip
  | clip
  | keep
deriving DecidableEq, Repr

def takeChomp : List Glyph → Option Chomp × List Glyph
  | g :: gs =>
    if g.char == '+' then (some .keep, gs)
    else if g.char == '-' then (some .strip, gs)
    else (none, g :: gs)
  | [] => (none, [])

def takeDigit : List Glyph → Option Nat × List Glyph
  | g :: gs =>
    if '0' ≤ g.char ∧ g.char ≤ '9' then (some (g.char.toNat - '0'.toNat), gs) else (none, g :: gs)
  | [] => (none, [])

/-- The rest of a header line may hold a comment only. -/
def endLine (gs : List Glyph) : Option (List Glyph) :=
  match gs.dropWhile fun g => isSpace g.char with
  | [] => some []
  | g :: gs =>
    if g.char == '#' then some ((gs.dropWhile fun g => !isBreak g.char).drop 1)
    else if isBreak g.char then some gs
    else none

/-- How the end is chomped, by how much the lines are indented if that is said, and the lines.
Both signs may stand first, and an indentation of nothing cannot be asked for. -/
def header (gs : List Glyph) : Option (Chomp × Option Nat × List Glyph) := do
  let (chomp, gs) := takeChomp gs
  let (digit, gs) := takeDigit gs
  let (chomp, gs) := if chomp.isSome then (chomp, gs) else takeChomp gs
  let gs ← endLine gs
  if digit = some 0 then none else some (chomp.getD .clip, digit, gs)

/-- The deepest column that the spaces of the empty lines and of the first other one reach. No tab
may come before it. -/
def deepest (column : Nat) : List Glyph → Option Nat
  | [] => some column
  | g :: gs =>
    if g.char == ' ' then deepest (max column (g.column + 1)) gs
    else if g.char == '\t' then none
    else if isBreak g.char then deepest (max column g.column) gs
    else some (max column g.column)

/-- What has been read: the text, latest first, the break after the last line, and the breaks of
the empty lines after it. -/
structure Progress where
  read : List Char := []
  lineBreak : Option Char := none
  more : List Char := []
  /-- The last line begins with a blank. Such lines are not folded. -/
  afterBlank : Bool := false
  inLine : Bool := false

/-- Begins a line. In a folded scalar a single break between two lines becomes a space. -/
def Progress.startLine (isLiteral : Bool) (c : Char) (p : Progress) : Progress :=
  let folds := !isLiteral && p.lineBreak == some '\n' && !p.afterBlank && !isSpace c
  let between :=
    if folds then (if p.more.isEmpty then [' '] else p.more) else p.lineBreak.toList ++ p.more
  { read := c :: (between.reverse ++ p.read), afterBlank := isSpace c, inLine := true }

/-- Reads the lines at a column, until one that begins before it. -/
def lines (isLiteral : Bool) (indent : Nat) (p : Progress) :
    List Glyph → Option (Progress × List Glyph)
  | [] => some (p, [])
  | g :: gs =>
    if p.inLine then
      if isBreak g.char then
        lines isLiteral indent { p with lineBreak := some g.char, inLine := false } gs
      else lines isLiteral indent { p with read := g.char :: p.read } gs
    else if g.column < indent ∧ g.char = ' ' then lines isLiteral indent p gs
    else if g.column < indent ∧ g.char = '\t' then none
    else if isBreak g.char then lines isLiteral indent { p with more := p.more ++ [g.char] } gs
    else if g.column = indent then lines isLiteral indent (p.startLine isLiteral g.char) gs
    else some (p, g :: gs)

def Progress.text (chomp : Chomp) (p : Progress) : String :=
  String.ofList (p.read.reverse ++ match chomp with
    | .strip => []
    | .clip => p.lineBreak.toList
    | .keep => p.lineBreak.toList ++ p.more)

/-- The text of a block scalar after its indicator, and the glyphs after it. `parent` is the column
of the block around it. -/
def scan (isLiteral : Bool) (parent : Int) (gs : List Glyph) : Option (String × List Glyph) := do
  let (chomp, indentation, gs) ← header gs
  let indent ← match indentation with
    | some n => some ((max parent 0).toNat + n)
    | none => (deepest 0 gs).map fun column => max column (max (parent + 1) 1).toNat
  let (p, rest) ← lines isLiteral indent {} gs
  some (p.text chomp, rest)

end PipeShell.Yaml.BlockScalar
