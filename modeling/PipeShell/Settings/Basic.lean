import PipeShell.Files.SystemError
import PipeShell.Net.Address

/-!
What can be set about a server, the shell and its log, with the values that hold where nothing is
said.
-/
namespace PipeShell

structure ServerSettings where
  host : String := "0.0.0.0"
  port : UInt16 := HostPort.defaultPort
  /-- Sessions are served at the same time instead of one after the other. -/
  threaded : Bool := false
  /-- An address can be bound again right after a server has stopped. -/
  reuseAddress : Bool := true
deriving DecidableEq, Repr

def ServerSettings.address (s : ServerSettings) : HostPort := ⟨s.host, s.port⟩

structure Settings where
  server : ServerSettings := {}
  /-- Where a bare change of directory goes, if not to the home of the user. -/
  home : Option String := none
  logLevel : String := "info"
deriving DecidableEq, Repr

/-- Why a settings file cannot be used. -/
inductive SettingsError
  | unreadable (path : String) (cause : SystemError)
  | malformed
deriving DecidableEq, Repr

def SettingsError.message : SettingsError → String
  | .unreadable path cause => "Failed to read config file " ++ path ++ ": " ++ cause.message
  | .malformed => "Failed to parse YAML"

end PipeShell
