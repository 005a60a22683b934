import PipeShell.Pipeline.Reading
import PipeShell.Service.Messages
import PipeShell.Shell.Execution
import PipeShell.Text.Line

/-!
The shell at a terminal. Its input is a file that it reads in blocks, and the programs that it
starts read on where the last block ends.
-/
namespace PipeShell

/-- A file shared by a reader of lines, which has part of a block in hand, and by programs. -/
structure SharedInput where
  block : Bytes := []
  rest : Bytes

namespace SharedInput

def blockSize : Nat := 8192

def size (s : SharedInput) : Nat := s.block.length + s.rest.length

/-- The next line with its line feed. A last line may lack it, and after that lines are empty. -/
def nextLine (s : SharedInput) : Bytes × SharedInput :=
  if s.block.contains Text.lineFeed then
    ((Text.splitLine s.block).1, { s with block := (Text.splitLine s.block).2 })
  else if _h : s.rest = [] then (s.block, { rest := [] })
  else
    let (more, later) :=
      nextLine { block := s.rest.take blockSize, rest := s.rest.drop blockSize }
    (s.block ++ more, later)
termination_by s.rest.length
decreasing_by
  have := List.length_pos_iff.2 _h
  simp only [List.length_drop, blockSize]
  omega

theorem nextLine_size (s : SharedInput) :
    s.nextLine.1.length + s.nextLine.2.size = s.size := by
  fun_induction nextLine s with
  | case1 s h =>
    have := congrArg List.length (Text.splitLine_append s.block)
    simp only [size, List.length_append] at *
    omega
  | case2 s h hr => simp [size, hr]
  | case3 s h hr more later hn ih =>
    rw [hn] at ih
    simp only [size, List.length_append, List.length_take, List.length_drop] at *
    omega

end SharedInput

/-- What a line at the terminal leads to. -/
structure Turn where
  output : Bytes := []
  errors : Bytes := []
  shell : Shell
  /-- How much of the input programs have read. -/
  taken : Nat := 0
  quits : Bool := false

namespace LocalLoop

/-- Runs a line. `input` is what programs can read. -/
def turn (host : Host) (line : String) (shell : Shell) (input : Bytes) : Turn :=
  match Pipeline.read line with
  | .error e => { output := Utf8.ofString (e.message ++ "\n"), shell }
  | .ok none => { output := Utf8.ofString Message.noCommand, shell }
  | .ok (some p) =>
    let run := Execution.run host {} p shell { input }
    let (complaint, quits, shell) := match run.result with
      | .ok (.exited code) => ("", false, { run.shell with lastStatus := code })
      | .ok _ => ("", true, run.shell)
      | .error e => (Message.complaint e.message, false, run.shell)
    { output := run.streams.output
      errors := run.streams.inherited ++ run.streams.errors ++ Utf8.ofString complaint
      shell
      taken := input.length - run.streams.input.length
      quits }

/-- What the loop has come to: the status it ends with and what it has written. -/
structure Result where
  status : Int
  output : Bytes
  errors : Bytes := []

def Result.after (output errors : Bytes) (r : Result) : Result :=
  { r with output := output ++ r.output, errors := errors ++ r.errors }

/-- The status of a loop whose input is no text. -/
def unreadable : Int := 1

/-- Runs the lines until one of them quits. -/
def run (host : Host) (shell : Shell) (input : SharedInput) : Result :=
  let prompt := Utf8.ofString Message.prompt
  let later := input.nextLine.2
  if _h : input.nextLine.1 = [] then { status := 0, output := prompt ++ [Text.lineFeed] }
  else
    match Utf8.toString? input.nextLine.1 with
    | none =>
      { status := unreadable
        output := prompt
        errors := Utf8.ofString (Message.complaint SystemError.invalidText.message) }
    | some line =>
      let turn := turn host line shell later.rest
      Result.after (prompt ++ turn.output) turn.errors
        (if turn.quits then { status := turn.shell.lastStatus, output := [] }
          else run host turn.shell { later with rest := later.rest.drop turn.taken })
termination_by input.size
decreasing_by
  have hs := SharedInput.nextLine_size input
  have := List.length_pos_iff.2 _h
  simp only [SharedInput.size, List.length_drop] at *
  omega

end LocalLoop
end PipeShell
