import Mathlib.Algebra.GroupWithZero.Nat
import Mathlib.Data.List.DropRight
import PipeShell.Pipeline.Reading

/-!
A second reader of lines, by characters and in one pass: one quote flag for the whole line, words,
operators and bars as they come. The limits and the rules of a command are checked at the end, on
the tokens of each stage.
-/
namespace PipeShell.Pipeline

/-- What ends a word outside quotes. -/
def isSpace (c : Char) : Bool := c == ' ' || c == '\t' || c == '\n' || c == '\r'

/-- A scan of a line. Words, tokens and stages are kept latest first. -/
structure Scan where
  quoted : Bool := false
  /-- The word that has begun, if any. -/
  word : Option (List Char) := none
  stage : List Token := []
  stages : List (List Token) := []

namespace Scan

/-- The word that has begun, as a token. -/
def pending (s : Scan) : List Token := (s.word.map fun w => .word (String.ofList w.reverse)).toList

def endWord (s : Scan) : Scan := { s with word := none, stage := s.pending ++ s.stage }

def operator (s : Scan) : Scan := { s.endWord with stage := .input :: s.endWord.stage }

def endStage (s : Scan) : Scan :=
  { s.endWord with stage := [], stages := s.endWord.stage.reverse :: s.stages }

def literal (s : Scan) (c : Char) : Scan := { s with word := some (c :: s.word.getD []) }

/-- A quote begins a word if none has begun. -/
def quote (s : Scan) : Scan := { s with quoted := !s.quoted, word := some (s.word.getD []) }

def step (s : Scan) (c : Char) : Scan :=
  if c = '"' then s.quote
  else if s.quoted then s.literal c
  else if isSpace c then s.endWord
  else if c = '<' then s.operator
  else if c = '|' then s.endStage
  else s.literal c

end Scan

/-- The stages of a line that have a token. A quote still open runs to the end. -/
def scan (line : List Char) : List (List Token) :=
  (line.foldl Scan.step {}).endStage.stages.reverse.filter (· ≠ [])

/-- The words of a stage without those that follow an operator. -/
def plainWords : List Token → List String
  | [] => []
  | .word w :: ts => w :: plainWords ts
  | .input :: .word _ :: ts => plainWords ts
  | .input :: ts => plainWords ts

/-- For each operator the word right behind it, or nothing. -/
def targets : List Token → List (Option String)
  | [] => []
  | .word _ :: ts => targets ts
  | .input :: .word w :: ts => some w :: targets ts
  | .input :: ts => none :: targets ts

/-- An operator without a word that is not empty, a second operator, or one behind a bar. -/
def BadRedirect (isFirst : Bool) (ts : List Token) : Prop :=
  none ∈ targets ts ∨ some "" ∈ targets ts ∨ 2 ≤ (targets ts).length ∨
    (isFirst = false ∧ targets ts ≠ [])

instance (isFirst : Bool) (ts : List Token) : Decidable (BadRedirect isFirst ts) := by
  unfold BadRedirect
  infer_instance

/-- How many bytes arguments take when they are joined, with one byte between two of them. -/
def joinedSize (arguments : List String) : Nat :=
  (arguments.map Utf8.size).sum + (arguments.length - 1)

/-- The command that the tokens of a stage stand for. -/
def commandOf (isFirst : Bool) (ts : List Token) : Except ReadError Command :=
  if BadRedirect isFirst ts then .error .badRedirect
  else
    match plainWords ts with
    | [] => .error .emptyCommand
    | name :: arguments =>
      if name = "" then .error .emptyCommand
      else if 64 ≤ Utf8.size name ∨ 16 < arguments.length ∨ 256 ≤ joinedSize arguments then
        .error .tooBig
      else .ok { name, arguments, input := (targets ts).head?.join }

/-- The pipeline of the stages of a line. Too many stages are an error whatever they hold; else the
first bad stage decides. -/
def pipelineOf (stages : List (List Token)) : Except ReadError (Option Pipeline) :=
  match stages with
  | [] => .ok none
  | first :: rest =>
    if 8 < stages.length then .error .tooManyCommands
    else do
      let c ← commandOf true first
      let cs ← rest.mapM (commandOf false)
      .ok (some (c :: cs))

def readOnePass (line : String) : Except ReadError (Option Pipeline) :=
  pipelineOf (scan (line.toList.rdropWhile isSpace))

end PipeShell.Pipeline
