import PipeShell.CommandLine.Run

/-!
The program. It has no sockets and starts no programs of the system: its host holds the settings
file and nothing else, and no server can be called.
-/
namespace PipeShell

def placeOfPath (path : String) : Place := (PathText.steps path).filter (· != "")

/-- A host with a working directory and perhaps a file. -/
def hostWith (directory : Place) (file : Option (Place × Bytes)) : Host :=
  let tree : Tree := ({} : Tree).add directory .directory
  { tree := match file with
      | some (place, content) => tree.add place (.file content false)
      | none => tree
    directory }

partial def readAll (stream : IO.FS.Stream) (sofar : ByteArray) : IO ByteArray := do
  let block ← stream.read 8192
  if block.isEmpty then return sofar else readAll stream (sofar ++ block)

def readSettings (directory : Place) (path : String) : IO (Option (Place × Bytes)) := do
  try
    let content ← IO.FS.readBinFile path
    let above := if PathText.isAbsolute path then [] else directory
    let place := above ++ placeOfPath path
    return some (place, content.toList)
  catch _ => return none

end PipeShell

open PipeShell in
def main (arguments : List String) : IO UInt32 := do
  let directory := placeOfPath (← IO.currentDir).toString
  let outside ← IO.getEnv "RSH_CONFIG"
  let path := match Options.read outside arguments with
    | .ok o => o.settingsPath
    | .error _ => none
  let file ← match path with
    | some path => readSettings directory path
    | none => pure none
  let surroundings : Surroundings := {
    host := hostWith directory file
    network := .isolated
    home := (← IO.getEnv "HOME").getD "/tmp"
    input := (← readAll (← IO.getStdin) ByteArray.empty).toList
    settingsPath := outside }
  match surroundings.run arguments with
  | .ended status output errors _ =>
    (← IO.getStdout).write ⟨output.toArray⟩
    (← IO.getStderr).write ⟨errors.toArray⟩
    return (status % 256).toNat.toUInt32
  | .misused =>
    (← IO.getStderr).putStr (Options.helpText outside)
    return Outcome.misuseStatus.toNat.toUInt32
  | .serving _ => return 0
