import PipeShell.Pipeline.Reading
import PipeShell.Service.Messages
import PipeShell.Shell.Execution
import PipeShell.Wire.Frame
import PipeShell.Wire.Response

/-!
Serving a client. Every request that arrives is answered once: with what its pipeline wrote to the
connection or with a message, and then the end byte. Only a pipeline that asks for it, or the end of
the requests, ends a session.
-/
namespace PipeShell

/-- How a session came to its end. -/
inductive SessionEnd
  | clientExit
  | stopServer
  | disconnected
  /-- A read failed. -/
  | aborted
deriving DecidableEq, Repr

/-- What a request leads to. -/
structure Reply where
  body : Bytes
  ended : Option SessionEnd := none
  shell : Shell
  /-- What is left to read when the programs of the request have read the connection. -/
  source : Reads
  inherited : Bytes := []

namespace Session

/-- All output of the last stage goes to the connection. -/
def endpoints : Endpoints := { errorsTo := .output }

/-- Runs a pipeline. The connection is its input, as far as it has not been read for requests. -/
def execute (host : Host) (p : Pipeline) (shell : Shell) (source : Reads) : Reply :=
  let run := Execution.run host endpoints p shell { input := source.bytes }
  let (text, ended, shell) := match run.result with
    | .ok (.exited code) => ("", none, { run.shell with lastStatus := code })
    | .ok .exit => (Message.exiting, some SessionEnd.clientExit, run.shell)
    | .ok .stopServer => (Message.stopping, some SessionEnd.stopServer, run.shell)
    | .error e => ("error: " ++ e.message ++ "\n", none, run.shell)
  { body := run.streams.output ++ Utf8.ofString text
    ended
    shell
    source := source.skip (source.bytes.length - run.streams.input.length)
    inherited := run.streams.inherited }

def answerLine (host : Host) (line : String) (shell : Shell) (source : Reads) : Reply :=
  match Pipeline.read line with
  | .ok (some p) => execute host p shell source
  | .ok none => { body := Utf8.ofString Message.noCommand, shell, source }
  | .error e => { body := Utf8.ofString (e.message ++ "\n"), shell, source }

/-- The reply to a frame that holds a request. -/
def answer (host : Host) (shell : Shell) (source : Reads) : Frame → Reply
  | .command line => answerLine host line shell source
  | .oversized => { body := Utf8.ofString Message.tooLarge, shell, source }
  | .closed => { body := [], ended := some .disconnected, shell, source }

theorem weight_answer_le (host : Host) (shell : Shell) (source : Reads) (frame : Frame) :
    (answer host shell source frame).source.weight ≤ source.weight := by
  cases frame with
  | command line =>
    simp only [answer, answerLine]
    split
    · exact Reads.weight_skip_le _ _
    · exact Nat.le_refl _
    · exact Nat.le_refl _
  | oversized => exact Nat.le_refl _
  | closed => exact Nat.le_refl _

/-- What a session has come to: all that was sent to the client, how it ended, and what it left. -/
structure Served where
  sent : Bytes := []
  ended : SessionEnd
  shell : Shell
  reader : FrameReader
  inherited : Bytes := []

/-- What is put before the work of the rest of a session. -/
def Served.after (body inherited : Bytes) (s : Served) : Served :=
  { s with
    sent := body ++ Response.responseEnd :: s.sent
    inherited := inherited ++ s.inherited }

/-- Answers requests until the session ends. -/
def serve (host : Host) (shell : Shell) (reader : FrameReader) : Served :=
  match _h : reader.next with
  | (.error _, later) => { ended := .aborted, shell, reader := later }
  | (.ok frame, later) =>
    if _hf : frame = .closed then { ended := .disconnected, shell, reader := later }
    else
      let reply := answer host shell later.source frame
      Served.after reply.body reply.inherited
        (match reply.ended with
          | some ended =>
            { ended, shell := reply.shell, reader := { later with source := reply.source } }
          | none => serve host reply.shell { later with source := reply.source })
termination_by reader.weight
decreasing_by
  have hlt := FrameReader.next_weight_lt reader (by rw [_h]) _hf
  have hle := weight_answer_le host shell later.source frame
  simp only [_h, FrameReader.weight] at *
  omega

end Session
end PipeShell
