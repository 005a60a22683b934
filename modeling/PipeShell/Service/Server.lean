import PipeShell.Net.Network
import PipeShell.Service.Session
import PipeShell.Settings.Basic

/-!
A server and the sessions it holds, one step of one client after the other. The sessions share the
working directory. A threaded server serves every session that is open; any other serves them in
the order in which they were opened, each to its end.
-/
namespace PipeShell

/-- A client's connection, as the server has it. -/
structure Connection where
  client : String
  reader : FrameReader := { source := [] }
  /-- What the client has been sent and has not read. -/
  replies : Bytes := []
  lastStatus : Int := 0
  /-- The client sends nothing more. -/
  hungUp : Bool := false
  ended : Option SessionEnd := none

namespace Connection

/-- Serves the requests that have arrived. The session stays open if more may come, yet a program
that reads the connection does not wait for it: it finds an end behind what has arrived. -/
def serve (host : Host) (workDir home : String) (c : Connection) : Connection × Session.Served :=
  let served := Session.serve host { workDir, home, lastStatus := c.lastStatus } c.reader
  let ended := if served.ended = .disconnected && !c.hungUp then none else some served.ended
  ({ c with
      reader := served.reader
      replies := c.replies ++ served.sent
      lastStatus := served.shell.lastStatus
      ended },
    served)

/-- The next answer, if there is one or there will be none. -/
def read (c : Connection) : Option (Response × Connection) :=
  match Response.ready? c.replies with
  | some (response, rest) => some (response, { c with replies := rest })
  | none => if c.ended.isSome then some (⟨c.replies, true⟩, { c with replies := [] }) else none

end Connection

structure Server where
  threaded : Bool
  home : String
  workDir : String
  /-- In the order in which they were opened. -/
  connections : List Connection := []
  /-- No more clients are let in. -/
  stopped : Bool := false
  inherited : Bytes := []

namespace Server

/-- Listens where the settings say. -/
def start (network : Network) (settings : ServerSettings) (workDir home : String) :
    Except ServiceError Server :=
  match settings.address.socketAddress with
  | .error e => .error (.invalidAddress e)
  | .ok address =>
    match network.bind address.ip with
    | .error e => .error (.communication e)
    | .ok () => .ok { threaded := settings.threaded, home, workDir }

/-- Serves the given connections after those that the server already lists. -/
def serveFrom (host : Host) (s : Server) : List Connection → Server
  | [] => s
  | c :: cs =>
    if c.ended.isSome || (s.stopped && !s.threaded) then
      serveFrom host { s with connections := s.connections ++ [c] } cs
    else
      let (c, served) := c.serve host s.workDir s.home
      let s := { s with
        workDir := served.shell.workDir
        connections := s.connections ++ [c]
        stopped := s.stopped || c.ended == some .stopServer
        inherited := s.inherited ++ served.inherited }
      if s.threaded || c.ended.isSome then serveFrom host s cs
      else { s with connections := s.connections ++ cs }

/-- Serves whatever can be served, and forgets the connections that both sides have left. -/
def settle (host : Host) (s : Server) : Server :=
  let s := serveFrom host { s with connections := [] } s.connections
  { s with connections := s.connections.filter fun c => !c.hungUp || c.ended.isNone }

/-- The connection of a client, which is the latest if it has opened several. -/
def connection? (client : String) (s : Server) : Option Connection :=
  s.connections.reverse.find? (·.client == client)

/-- Changes the latest connection of a client. -/
def updateLatest (client : String) (f : Connection → Connection) :
    List Connection → List Connection
  | [] => []
  | c :: cs =>
    if c.client == client && !cs.any (·.client == client) then f c :: cs
    else c :: updateLatest client f cs

def update (client : String) (f : Connection → Connection) (s : Server) : Server :=
  { s with connections := updateLatest client f s.connections }

/-- Lets a client in. -/
def accept (client : String) (s : Server) : Option Server :=
  if s.stopped then none else some { s with connections := s.connections ++ [{ client }] }

/-- Bytes from a client arrive. A session that has ended takes none. -/
def receive (host : Host) (client : String) (bytes : Bytes) (s : Server) : Server :=
  settle host (s.update client fun c =>
    if c.ended.isSome then c
    else { c with reader := { c.reader with source := c.reader.source ++ [.data bytes] } })

def hangUp (host : Host) (client : String) (s : Server) : Server :=
  settle host (s.update client fun c => { c with hungUp := true })

/-- A client reads an answer, if it need not wait for one. -/
def answerTo (client : String) (s : Server) : Option (Response × Server) := do
  let c ← s.connection? client
  let (response, c) ← c.read
  some (response, s.update client fun _ => c)

/-- A client sends a line and reads an answer. -/
def exec (host : Host) (client line : String) (s : Server) : Option (Response × Server) :=
  (s.receive host client (Utf8.ofString line ++ [Frame.requestEnd])).answerTo client

end Server
end PipeShell
