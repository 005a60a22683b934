import PipeShell.Process.Job
import PipeShell.Text.Utf8

/-!
Programs. What a program writes, how much of its standard input it takes and how it ends are a
function of its input, its arguments and its working directory; writing never fails from its own
point of view. Some programs are lists of actions, all others are known by that function alone.
-/
namespace PipeShell

inductive Channel
  | output
  | errors
deriving DecidableEq, Repr

/-- A program at work: what it has not read, what it has written, latest last, and its end. -/
structure Run where
  rest : Bytes
  writes : List (Channel × Bytes) := []
  child : Child := ⟨[.exited 0]⟩
deriving DecidableEq, Repr

namespace Run

def written (r : Run) (channel : Channel) : Bytes :=
  (r.writes.filter (·.1 == channel)).flatMap (·.2)

/-- A write made before the rest of a run. -/
def after (channel : Channel) (bytes : Bytes) (r : Run) : Run :=
  { r with writes := (channel, bytes) :: r.writes }

end Run

/-- A program of any kind. It reads its input from the front and learns of it only by reading, so
that one that reads nothing does what it does without any input. -/
structure Behaviour where
  run : (arguments : List String) → (directory : String) → (input : Bytes) → Run
  suffix : ∀ arguments directory input, (run arguments directory input).rest <:+ input
  idle : ∀ arguments directory input, (run arguments directory input).rest = input →
    run arguments directory input = { run arguments directory [] with rest := input }
  possible : ∀ arguments directory input,
    ∀ report ∈ (run arguments directory input).child.reports, report.Possible

inductive Action
  /-- Copies all input to output. -/
  | copy
  /-- Copies all input, ASCII letters in upper case. -/
  | upper
  /-- Takes all input and writes how many bytes it was. -/
  | count
  | drain
  /-- Copies at most so many bytes. -/
  | take (n : Nat)
  | output (bytes : Bytes)
  | errors (bytes : Bytes)
  /-- Writes so many letters z. -/
  | fill (n : Nat)
  | arguments
  /-- Writes the working directory, with `root` at its head abbreviated to an at sign. -/
  | directory (root : String)
  | exit (code : Int)
  | kill (signal : Nat)
  /-- Goes on as another program to its end. -/
  | become (behaviour : Behaviour)

/-- A program with what it is started with. -/
structure Invocation where
  actions : List Action
  arguments : List String
  /-- The canonical path of the working directory. -/
  directory : String

namespace Invocation

def upperByte (b : UInt8) : UInt8 := if 0x61 ≤ b ∧ b ≤ 0x7A then b - 0x20 else b

def lineOf (s : String) : Bytes := Utf8.ofString s ++ [0x0A]

/-- The numbers that name a signal. -/
def namesSignal (n : Nat) : Bool := 1 ≤ n && n ≤ 31

/-- How a program ends that is told to send itself what is no signal. -/
def signalRefused : Int := 101

/-- Signals that leave a program running: a broken pipe, and those whose default is to be ignored or
to stop or continue. -/
def spares (signal : Nat) : Bool := [13, 17, 18, 19, 20, 21, 22, 23, 28].contains signal

/-- Bus error and segmentation fault. The guard of the stack takes the first of each and then
stands down. -/
def guardedSignals : List Nat := [7, 11]

def abbreviate (root directory : String) : String :=
  if directory == root then "@"
  else if (root ++ "/").toList.isPrefixOf directory.toList then
    "@" ++ String.ofList (directory.toList.drop root.length)
  else directory

def perform (arguments : List String) (directory : String) :
    (guarded : List Nat) → List Action → Bytes → Run
  | _, [], input => { rest := input }
  | g, .copy :: as, input => (perform arguments directory g as []).after .output input
  | g, .upper :: as, input =>
    (perform arguments directory g as []).after .output (input.map upperByte)
  | g, .count :: as, input =>
    (perform arguments directory g as []).after .output (lineOf (toString input.length))
  | g, .drain :: as, _ => perform arguments directory g as []
  | g, .take n :: as, input =>
    (perform arguments directory g as (input.drop n)).after .output (input.take n)
  | g, .output bytes :: as, input => (perform arguments directory g as input).after .output bytes
  | g, .errors bytes :: as, input => (perform arguments directory g as input).after .errors bytes
  | g, .fill n :: as, input =>
    (perform arguments directory g as input).after .output (List.replicate n 0x7A)
  | g, .arguments :: as, input =>
    (perform arguments directory g as input).after .output
      (arguments.flatMap fun a => lineOf ("[" ++ a ++ "]"))
  | g, .directory root :: as, input =>
    (perform arguments directory g as input).after .output (lineOf (abbreviate root directory))
  | _, .exit code :: _, input => { rest := input, child := ⟨[.exited (code % 256)]⟩ }
  | g, .kill signal :: as, input =>
    if !namesSignal signal then { rest := input, child := ⟨[.exited signalRefused]⟩ }
    else if spares signal then perform arguments directory g as input
    else if g.contains signal then perform arguments directory (g.erase signal) as input
    else { rest := input, child := ⟨[.signaled signal]⟩ }
  | _, .become behaviour :: _, input => behaviour.run arguments directory input

def run (i : Invocation) (input : Bytes) : Run :=
  perform i.arguments i.directory guardedSignals i.actions input

end Invocation
end PipeShell
