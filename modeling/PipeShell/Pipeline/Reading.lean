import PipeShell.Pipeline.Basic

/-!
Reading a line. Bars outside quotes cut it into stages, blanks outside quotes cut a stage into
words, quotes are dropped, and a stage without any byte but blanks counts for nothing.
-/
namespace PipeShell.Pipeline

def quote : UInt8 := 0x22
def bar : UInt8 := 0x7C
def redirect : UInt8 := 0x3C

/-- Space, tab, line feed and carriage return separate words. -/
def isSeparator (b : UInt8) : Bool := b == 0x20 || b == 0x09 || b == 0x0A || b == 0x0D

/-- Puts a byte at the head of the first part. -/
def consFirst (b : UInt8) : List Bytes → List Bytes
  | [] => [[b]]
  | s :: ss => (b :: s) :: ss

/-- The stages of a line; `quoted` tells whether a quote is open. -/
def splitStages (quoted : Bool) : Bytes → List Bytes
  | [] => [[]]
  | b :: bs =>
    if b == bar && !quoted then [] :: splitStages quoted bs
    else consFirst b (splitStages (quoted != (b == quote)) bs)

def trimStage (bs : Bytes) : Bytes :=
  ((bs.dropWhile isSeparator).reverse.dropWhile isSeparator).reverse

inductive Token
  | word (text : String)
  | input
deriving DecidableEq, Repr

/-- Where a scan stands: between tokens, or in a word with its bytes so far, latest first. -/
inductive Cursor
  | between
  | word (read : Bytes) (quoted : Bool)

def wordToken (read : Bytes) : Token := .word (Utf8.toStringLossy read.reverse)

/-- The tokens of a stage. A quote that is never closed runs to the end of the stage. -/
def tokens : Cursor → Bytes → List Token
  | .between, [] => []
  | .word read _, [] => [wordToken read]
  | .between, b :: bs =>
    if isSeparator b then tokens .between bs
    else if b == redirect then .input :: tokens .between bs
    else if b == quote then tokens (.word [] true) bs
    else tokens (.word [b] false) bs
  | .word read quoted, b :: bs =>
    if b == quote then tokens (.word read (!quoted)) bs
    else if !quoted && isSeparator b then wordToken read :: tokens .between bs
    else if !quoted && b == redirect then wordToken read :: .input :: tokens .between bs
    else tokens (.word (b :: read) quoted) bs

/-- The words of a stage and its input file, where `input` is the file named so far. Only the
first stage may name one, once, and by a word that is not empty. -/
def gather (isFirst : Bool) (input : Option String) :
    List Token → Except ReadError (List String × Option String)
  | [] => .ok ([], input)
  | .word w :: ts => (gather isFirst input ts).map fun (ws, i) => (w :: ws, i)
  | .input :: .word w :: ts =>
    if isFirst && input.isNone && w != "" then gather isFirst (some w) ts
    else .error .badRedirect
  | .input :: _ => .error .badRedirect

def tooBig (c : Command) : Bool :=
  nameLimit ≤ Utf8.size c.name || maxArguments < c.arguments.length
    || argsLimit ≤ Utf8.size c.argsText

def readCommand (isFirst : Bool) (stage : Bytes) : Except ReadError Command := do
  match ← gather isFirst none (tokens .between stage) with
  | ([], _) => .error .emptyCommand
  | (name :: arguments, input) =>
    let c : Command := { name, arguments, input }
    if name == "" then .error .emptyCommand
    else if tooBig c then .error .tooBig
    else .ok c

/-- The stages that hold something. -/
def keptStages (line : Bytes) : List Bytes :=
  ((splitStages false line).map trimStage).filter (!·.isEmpty)

def readBytes (line : Bytes) : Except ReadError (Option Pipeline) :=
  match keptStages line with
  | [] => .ok none
  | s :: ss =>
    if maxCommands < ss.length + 1 then .error .tooManyCommands
    else do
      let c ← readCommand true s
      let cs ← ss.mapM (readCommand false)
      .ok (some (c :: cs))

/-- The pipeline that a line stands for, or `none` if the line holds no command. -/
def read (line : String) : Except ReadError (Option Pipeline) := readBytes (Utf8.ofString line)

end PipeShell.Pipeline
