import PipeShell.CommandLine.Help
import PipeShell.Service.Client
import PipeShell.Service.LocalLoop
import PipeShell.Service.Server
import PipeShell.Settings.Reading

/-!
A run of the program: as a client, as a server, or as a shell at the terminal.
-/
namespace PipeShell

/-- A server that can be called, by its port, and all that it sends. -/
structure Peer where
  port : UInt16
  sends : Reads

/-- What the program finds when it is started. -/
structure Surroundings where
  host : Host
  network : Network
  home : String
  input : Bytes
  /-- The settings file that is named from outside. -/
  settingsPath : Option String := none
  peer : Option Peer := none

/-- What a run comes to. -/
inductive Outcome
  | ended (status : Int) (output errors sent : Bytes)
  /-- The options made no sense. -/
  | misused
  /-- Goes on until a client stops the server. -/
  | serving (server : Server)

namespace Outcome

def misuseStatus : Int := 2
def failureStatus : Int := 1

def failed (line : String) : Outcome := .ended failureStatus [] (Utf8.ofString line) []

end Outcome

namespace Surroundings

def workDir (s : Surroundings) : String := Tree.pathOf s.host.directory

def clientHost : String := "127.0.0.1"

/-- Calls a server. -/
def connect (s : Surroundings) (address : String) : Except ServiceError Client := do
  let target ← (HostPort.read address clientHost).mapError .invalidAddress
  let target ← target.socketAddress.mapError .invalidAddress
  let listener := s.peer.filter (·.port == target.port)
  (s.network.connect target.ip listener.isSome).mapError .communication
  return { reader := { source := (listener.map (·.sends)).getD [] } }

def runClient (s : Surroundings) (address : String) : Outcome :=
  match s.connect address with
  | .error e => .failed (Message.complaint e.message)
  | .ok client =>
    let loop := client.loop s.input
    match loop.result with
    | .ok () => .ended 0 loop.output [] loop.client.sent
    | .error e =>
      .ended Outcome.failureStatus loop.output
        (Utf8.ofString (Message.complaint ("communication error: " ++ e.message))) loop.client.sent

/-- Listens on an address, or where the settings say if it is empty. -/
def runServer (s : Surroundings) (address : String) (settings : Settings) (home : String) :
    Outcome :=
  let started : Except ServiceError Server := do
    let server ←
      if address == "" then pure settings.server
      else do
        let a ← (HostPort.read address settings.server.host).mapError .invalidAddress
        pure { settings.server with host := a.host, port := a.port }
    Server.start s.network server s.workDir home
  match started with
  | .ok server => .serving server
  | .error e => .failed (Message.complaint e.message)

def runTerminal (s : Surroundings) (home : String) : Outcome :=
  let result := LocalLoop.run s.host { workDir := s.workDir, home } { rest := s.input }
  .ended result.status result.output result.errors []

/-- The settings of a file, changed by the options. -/
def settings (s : Surroundings) (o : Options) : Except (String × SettingsError) Settings := do
  let settings ← match o.settingsPath with
    | none => pure {}
    | some path => (Settings.load s.host path).mapError (path, ·)
  let server := settings.server
  return { settings with
    server := { server with threaded := server.threaded || o.threaded }
    logLevel := o.logLevel.getD settings.logLevel }

def run (s : Surroundings) (arguments : List String) : Outcome :=
  match Options.read s.settingsPath arguments with
  | .error .help => .ended 0 (Utf8.ofString (Options.helpText s.settingsPath)) [] []
  | .error .usage => .misused
  | .ok o =>
    match s.settings o with
    | .error (path, e) =>
      .failed ("Error: Failed to load config from " ++ path ++ ": " ++ e.message ++ "\n")
    | .ok settings =>
      let home := settings.home.getD s.home
      match o.client, o.server with
      | some address, _ => s.runClient address
      | none, some address => s.runServer address settings home
      | none, none => s.runTerminal home

end Surroundings
end PipeShell
