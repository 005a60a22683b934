import PipeShell.Shell.Builtin
import PipeShell.Shell.Streams

/-!
Running a pipeline. All external stages are started first, in order; the builtin stages run when
every program that may read them is there; then the stages are waited for. A lone builtin runs in
the shell itself, and it alone may change the working directory.
-/
namespace PipeShell

inductive ExecError
  | emptyPipeline
  | io (cause : SystemError)
deriving DecidableEq, Repr

def ExecError.message : ExecError → String
  | .emptyPipeline => "empty pipeline"
  | .io cause => "IO error: " ++ cause.message

namespace Execution

/-- What a started program reads. -/
inductive StageInput
  | endpoint
  | pipe
  | file (content : Bytes)
deriving DecidableEq, Repr

/-- A stage when everything that can be started has been. -/
inductive Stage
  | failed (status : Int)
  | running (program : Invocation) (input : StageInput)
  | deferred (builtin : Builtin) (arguments : List String)

/-- A stage when the builtins have run as well: a finished one has left bytes in its pipe. -/
inductive Ready
  | finished (status : Int) (piped : Bytes)
  | running (program : Invocation) (input : StageInput)

/-- Why a stage could not be started: one line for its error output, and its status. -/
structure Diagnostic where
  line : String
  status : Int
deriving DecidableEq, Repr

/-- The status of a stage whose input file does not open. -/
def inputFailure : Int := 1

/-- What the first stage reads, which alone may have an input file. -/
def openInput (host : Host) (workDir : String) (isFirst : Bool) (c : Command) :
    Except Diagnostic StageInput :=
  if !isFirst then .ok .pipe
  else
    match c.input with
    | none => .ok .endpoint
    | some file =>
      match host.openFile (PathText.join workDir file) with
      | .ok content => .ok (.file content)
      | .error e => .error ⟨file ++ ": " ++ e.message ++ "\n", inputFailure⟩

/-- Starts a program. The program is looked up before its input file is opened. -/
def launch (host : Host) (workDir : String) (isFirst : Bool) (c : Command) :
    Except Diagnostic (Invocation × StageInput) :=
  match host.lookup c.name workDir with
  | none => .error ⟨"command not found: " ++ c.name ++ "\n", launchFailure⟩
  | some path => do
    let input ← openInput host workDir isFirst c
    match host.start path c.arguments workDir with
    | .ok program => .ok (program, input)
    | .error e => .error ⟨c.name ++ ": " ++ e.message ++ "\n", launchFailure⟩

/-- Writes to the error output of a stage: the endpoint for the last one, else what is inherited.
A line that cannot be written is lost. -/
def report (ends : Endpoints) (isLast : Bool) (line : String) (streams : Streams) : Streams :=
  if isLast then (streams.writeErrors ends (Utf8.ofString line)).getD streams
  else streams.writeInherited (Utf8.ofString line)

def launchStage (host : Host) (ends : Endpoints) (workDir : String) (isFirst isLast : Bool)
    (c : Command) (streams : Streams) : Stage × Streams :=
  match Builtin.named c.name with
  | some b => (.deferred b c.arguments, streams)
  | none =>
    match launch host workDir isFirst c with
    | .ok (program, input) => (.running program input, streams)
    | .error d => (.failed d.status, report ends isLast d.line streams)

def launchStages (host : Host) (ends : Endpoints) (workDir : String) :
    (isFirst : Bool) → Pipeline → Streams → List Stage × Streams
  | _, [], streams => ([], streams)
  | isFirst, c :: cs, streams =>
    let (stage, streams) := launchStage host ends workDir isFirst cs.isEmpty c streams
    let (stages, streams) := launchStages host ends workDir false cs streams
    (stage :: stages, streams)

/-- Whether what a stage writes may be read, by the stages behind it. The read end of a pipe is gone
when the stage behind it could not be started; a builtin keeps its own until it has run, and a
program that was started is taken to be there still. -/
def heard (ends : Endpoints) : (behind : List Stage) → Bool
  | [] => ends.outputWorks
  | .failed _ :: _ => false
  | .running _ _ :: _ => true
  | .deferred _ _ :: _ => true

/-- Runs a builtin as a stage. It reads nothing, and the shell stays as it is. -/
def runDeferred (host : Host) (ends : Endpoints) (shell : Shell) (isLast works : Bool)
    (b : Builtin) (arguments : List String) (streams : Streams) : Ready × Streams :=
  let result := b.run host arguments .pipeline works shell
  if isLast then
    (.finished result.outcome.status [], (streams.writeOutput ends result.output).getD streams)
  else (.finished result.outcome.status result.output, streams)

/-- Runs the builtins among the stages. `works` tells by the stages behind one whether its output
works. -/
def runBuiltins (host : Host) (ends : Endpoints) (shell : Shell) (works : List Stage → Bool) :
    List Stage → Streams → List Ready × Streams
  | [], streams => ([], streams)
  | stage :: stages, streams =>
    let (ready, streams) := match stage with
      | .failed status => (Ready.finished status [], streams)
      | .running program input => (.running program input, streams)
      | .deferred b arguments =>
        runDeferred host ends shell stages.isEmpty (works stages) b arguments streams
    let (rest, streams) := runBuiltins host ends shell works stages streams
    (ready :: rest, streams)

/-- Delivers the writes of a last stage to the endpoints, in the order in which they were made. -/
def deliver (ends : Endpoints) (writes : List (Channel × Bytes)) (streams : Streams) : Streams :=
  writes.foldl (fun s (channel, bytes) => (match channel with
    | .output => s.writeOutput ends bytes
    | .errors => s.writeErrors ends bytes).getD s) streams

/-- Runs a program to its end on the bytes it is given. -/
def runProgram (ends : Endpoints) (isLast : Bool) (program : Invocation) (input : StageInput)
    (piped : Bytes) (streams : Streams) : Run × Streams :=
  let run := program.run (match input with
    | .endpoint => streams.input
    | .pipe => piped
    | .file content => content)
  let streams := if input = .endpoint then { streams with input := run.rest } else streams
  (run, if isLast then deliver ends run.writes streams
    else streams.writeInherited (run.written .errors))

/-- Lets every stage come to its end, each reading what the one before has left in the pipe. -/
def complete (ends : Endpoints) : (piped : Bytes) → List Ready → Streams → Job × Streams
  | _, [], streams => ({}, streams)
  | piped, ready :: rest, streams =>
    let (stage, piped, streams) := match ready with
      | .finished status left => (Job.Stage.done status, left, streams)
      | .running program input =>
        let (run, streams) := runProgram ends rest.isEmpty program input piped streams
        (.running run.child, run.written .output, streams)
    let (job, streams) := complete ends piped rest streams
    (⟨stage :: job.stages⟩, streams)

/-- The job of a pipeline, ready to be waited for. -/
def job (host : Host) (ends : Endpoints) (p : Pipeline) (shell : Shell) (streams : Streams) :
    Job × Streams :=
  let (stages, streams) := launchStages host ends shell.workDir true p streams
  let (ready, streams) := runBuiltins host ends shell (heard ends) stages streams
  complete ends [] ready streams

end Execution

/-- What a line has come to. -/
structure Execution where
  result : Except ExecError Status
  shell : Shell
  streams : Streams

namespace Execution

/-- Runs a builtin that is the whole pipeline. Its input file is not read, yet it must open. -/
def runLone (host : Host) (ends : Endpoints) (b : Builtin) (c : Command) (shell : Shell)
    (streams : Streams) : Execution :=
  let unopened := c.input.bind fun file =>
    match host.openFile (shell.resolve file) with
    | .ok _ => none
    | .error e => some (file ++ ": " ++ e.message ++ "\n")
  match unopened with
  | some line =>
    match streams.writeErrors ends (Utf8.ofString line) with
    | some streams => ⟨.ok (.exited inputFailure), shell, streams⟩
    | none => ⟨.error (.io .badDescriptor), shell, streams⟩
  | none =>
    let result := b.run host c.arguments .session ends.outputWorks shell
    let status : Status := match result.outcome with
      | .executed code => .exited code
      | .exit => .exit
      | .stopServer => .stopServer
    ⟨.ok status, result.shell, (streams.writeOutput ends result.output).getD streams⟩

def runStages (host : Host) (ends : Endpoints) (p : Pipeline) (shell : Shell)
    (streams : Streams) : Execution :=
  let (job, streams) := job host ends p shell streams
  ⟨.ok (Status.ofStages job.wait.1), shell, streams⟩

def run (host : Host) (ends : Endpoints) (p : Pipeline) (shell : Shell) (streams : Streams) :
    Execution :=
  match p with
  | [] => ⟨.error .emptyPipeline, shell, streams⟩
  | [c] =>
    match Builtin.named c.name with
    | some b => runLone host ends b c shell streams
    | none => runStages host ends p shell streams
  | p => runStages host ends p shell streams

end Execution
end PipeShell
