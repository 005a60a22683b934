import PipeShell.Files.PathText

/-!
What a shell remembers between lines, and what a line may come to.
-/
namespace PipeShell

structure Shell where
  workDir : String
  /-- Where a bare change of directory goes. -/
  home : String
  lastStatus : Int := 0
deriving DecidableEq, Repr

def Shell.resolve (s : Shell) (path : String) : String := PathText.join s.workDir path

/-- How a pipeline ended. -/
inductive Status
  | exited (code : Int)
  /-- The session is to end. -/
  | exit
  /-- The server is to stop. -/
  | stopServer
deriving DecidableEq, Repr

namespace Status

/-- The stage status that asks for the end of the session. A program that happens to exit with it
is read the same way. -/
def exitCode : Int := 99

/-- The stage status that asks for the end of the server. -/
def stopServerCode : Int := 200

def ofCode (code : Int) : Status :=
  if code = exitCode then .exit else if code = stopServerCode then .stopServer else .exited code

def code : Status → Int
  | .exited code => code
  | .exit => exitCode
  | .stopServer => stopServerCode

/-- The end of a pipeline from the statuses of its stages: stopping the server wins over ending
the session, and both win over the status of the last stage. -/
def ofStages (statuses : List Int) : Status :=
  let last := statuses.getLast?.getD 127
  let code := if statuses.contains exitCode then exitCode else last
  ofCode (if statuses.contains stopServerCode then stopServerCode else code)

end Status
end PipeShell
