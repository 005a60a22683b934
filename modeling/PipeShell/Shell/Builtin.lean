import PipeShell.Files.Host
import PipeShell.Pipeline.Basic
import PipeShell.Shell.Dragon
import PipeShell.Shell.State

/-!
Commands that the shell runs itself. Ending the session and stopping the server are never carried
out here: they come back as outcomes for the caller.
-/
namespace PipeShell

inductive Builtin
  | exit
  | stopServer
  | cd
  | dragon
  | rc
deriving DecidableEq, Repr

namespace Builtin

def named (name : String) : Option Builtin :=
  if name == "exit" then some .exit
  else if name == "stop-server" then some .stopServer
  else if name == "cd" then some .cd
  else if name == "dragon" then some .dragon
  else if name == "rc" then some .rc
  else none

/-- Where a builtin runs. A stage of a longer pipeline leaves the working directory alone. -/
inductive Scope
  | session
  | pipeline
deriving DecidableEq, Repr

inductive Outcome
  | executed (status : Int)
  | exit
  | stopServer
deriving DecidableEq, Repr

def Outcome.status : Outcome → Int
  | .executed status => status
  | .exit => Status.exitCode
  | .stopServer => Status.stopServerCode

/-- What running a builtin leaves behind: its outcome, the bytes it wanted written, the shell. -/
structure Result where
  outcome : Outcome
  output : Bytes := []
  shell : Shell

/-- Goes to a directory, or home. A failure is shown with the target as it was given. -/
def changeDirectory (host : Host) (arguments : List String) (scope : Scope) (shell : Shell) :
    Result :=
  let target := match arguments.head? with
    | some dir => shell.resolve dir
    | none => shell.home
  match host.canonicalDirectory target with
  | .ok path =>
    { outcome := .executed 0
      shell := if scope = .session then { shell with workDir := path } else shell }
  | .error e =>
    { outcome := .executed 1
      output :=
        Utf8.ofString ("cd: " ++ arguments.head?.getD shell.home ++ ": " ++ e.message ++ "\n")
      shell }

/-- Runs a builtin whose output works or does not. Bytes that cannot be written make it fail, and
only the complaint of a failed change of directory may be lost in silence. -/
def run (host : Host) (b : Builtin) (arguments : List String) (scope : Scope)
    (outputWorks : Bool) (shell : Shell) : Result :=
  let written : Outcome := .executed (if outputWorks then 0 else 1)
  let result : Result := match b with
    | .exit => { outcome := .exit, shell }
    | .stopServer => { outcome := .stopServer, shell }
    | .cd => changeDirectory host arguments scope shell
    | .dragon => { outcome := written, output := Utf8.ofString dragonText, shell }
    | .rc =>
      { outcome := written, output := Utf8.ofString (toString shell.lastStatus ++ "\n"), shell }
  if outputWorks then result else { result with output := [] }

end Builtin
end PipeShell
