import PipeShell.Files.SystemError
import PipeShell.Service.Messages
import PipeShell.Text.Blank
import PipeShell.Text.Line
import PipeShell.Wire.Frame
import PipeShell.Wire.Response

/-!
The client of a server, and its loop: it sends a line, shows the answer, and goes on until the line
has ended the session, the server has closed it, or there are no more lines.
-/
namespace PipeShell

structure Client where
  reader : ResponseReader
  sent : Bytes := []

namespace Client

/-- A line as a request. -/
def request (line : String) : Bytes := Utf8.ofString line ++ [Frame.requestEnd]

def send (bytes : Bytes) (c : Client) : Client := { c with sent := c.sent ++ bytes }

def receive (c : Client) : Except ReadFailure Response × Client :=
  (c.reader.next.1, { c with reader := c.reader.next.2 })

/-- Sends a line and waits for its answer. -/
def exec (line : String) (c : Client) : Except ReadFailure Response × Client :=
  (c.send (request line)).receive

/-- Lines after which the server has ended the session. -/
def endsSession (line : String) : Bool :=
  Text.trim line == "exit" || Text.trim line == "stop-server"

/-- Why the loop cannot go on. -/
inductive LoopError
  | invalidText
  | read (cause : ReadFailure)
deriving DecidableEq, Repr

def LoopError.message : LoopError → String
  | .invalidText => SystemError.invalidText.message
  | .read .wouldBlock => SystemError.wouldBlock.message

/-- What the loop has come to: how it ended, what it showed, the lines that it left. -/
structure Loop where
  result : Except LoopError Unit
  output : Bytes
  client : Client
  input : Bytes

def Loop.after (output : Bytes) (l : Loop) : Loop := { l with output := output ++ l.output }

/-- Sends the lines one after the other and shows the answers. -/
def loop (input : Bytes) (c : Client) : Loop :=
  let prompt := Utf8.ofString Message.prompt
  if _h : input = [] then ⟨.ok (), prompt ++ [Text.lineFeed], c, []⟩
  else
    let rest := (Text.splitLine input).2
    match Utf8.toString? (Text.splitLine input).1 with
    | none => ⟨.error .invalidText, prompt, c, rest⟩
    | some text =>
      let line := Text.trimLineEnd text
      match c.exec line with
      | (.error e, c) => ⟨.error (.read e), prompt, c, rest⟩
      | (.ok response, c) =>
        Loop.after (prompt ++ response.output)
          (if response.closed || endsSession line then ⟨.ok (), [], c, rest⟩
            else loop (Text.splitLine input).2 c)
termination_by input.length
decreasing_by exact Text.splitLine_length input _h

end Client
end PipeShell
