import PipeShell.Files.Interpreter
import PipeShell.Files.Tree

/-!
What a host offers to the shell: files to open, directories to go to, programs to find and start.
-/
namespace PipeShell

structure Host where
  tree : Tree := {}
  /-- The search path, if one is set. -/
  searchPath : Option String := none
  /-- The directory that relative paths are taken from. -/
  directory : Place := []

namespace Host

def resolve (h : Host) (path : String) : Except SystemError Place :=
  h.tree.resolve h.directory path

/-- The longest path at which a file can be opened, in bytes. -/
def maxPath : Nat := 4095

def entryAt (h : Host) (path : String) : Except SystemError Entry := do
  if maxPath < Utf8.size path && !path.toList.contains '\x00' then .error .nameTooLong
  match h.tree.entry? (← h.resolve path) with
  | some e => .ok e
  | none => .error .notFound

/-- What a path leads to, if it can be started: a regular file with a right to execute. -/
def executableAt (h : Host) (path : String) : Except SystemError Entry := do
  match ← h.entryAt path with
  | .file content true => .ok (.file content true)
  | .program actions => .ok (.program actions)
  | _ => .error .permissionDenied

/-- Opens a file for reading and gives what can be read. A directory opens and gives nothing. -/
def openFile (h : Host) (path : String) : Except SystemError Bytes := do
  match ← h.entryAt path with
  | .file content _ => .ok content
  | _ => .ok []

/-- The whole content of a file. A directory has none. -/
def readFile (h : Host) (path : String) : Except SystemError Bytes := do
  match ← h.entryAt path with
  | .file content _ => .ok content
  | .directory => .error .isADirectory
  | _ => .ok []

/-- The canonical path of the directory that a path leads to. -/
def canonicalDirectory (h : Host) (path : String) : Except SystemError String := do
  let place ← h.resolve path
  if h.tree.isDirectory place then .ok (Tree.pathOf place)
  else .error .directoryExpected

def isExecutable (h : Host) (path : String) : Bool := (h.executableAt path).toOption.isSome

def defaultSearchPath : String := "/usr/bin:/bin"

/-- The directories in which programs are searched, in order. -/
def searchDirectories (h : Host) : List String :=
  PathText.entries (match h.searchPath with
    | some p => if p == "" then defaultSearchPath else p
    | none => defaultSearchPath)

/-- The paths at which a program may be found. A name with a slash is itself a path. -/
def candidates (h : Host) (name workDir : String) : List String :=
  if name.toList.contains '/' then [PathText.join workDir name]
  else h.searchDirectories.map fun d => PathText.join (PathText.join workDir d) name

/-- The first executable candidate. -/
def lookup (h : Host) (name workDir : String) : Option String :=
  (h.candidates name workDir).find? h.isExecutable

/-- How many files one start may go through, from script to interpreter. -/
def maxChain : Nat := 6

/-- Starts what a path leads to. The interpreter of a script gets the argument that the script has
for it, the path of the script and the arguments of the script. -/
def load (h : Host) : (chain : Nat) → (path : String) → (arguments : List String) → Entry →
    Except SystemError Invocation
  | 0, _, _, _ => .error .linkLoop
  | _ + 1, _, arguments, .program actions =>
    .ok { actions, arguments, directory := Tree.pathOf h.directory }
  | chain + 1, path, arguments, .file content _ =>
    match Interpreter.ofScript? content with
    | none => .error .execFormat
    | some i => do
      load h chain i.path (i.argument.toList ++ path :: arguments) (← h.executableAt i.path)
  | _ + 1, _, _, _ => .error .permissionDenied

/-- Starts a program in a working directory. The directory is entered before the program is
loaded, and nothing is tried with a NUL character in any text. -/
def start (h : Host) (program : String) (arguments : List String) (workDir : String) :
    Except SystemError Invocation := do
  if (workDir :: arguments).any (·.toList.contains '\x00') then .error .nulInArgument
  let place ← h.resolve workDir
  if !h.tree.isDirectory place then .error .notADirectory
  let there := { h with directory := place }
  there.load maxChain program arguments (← there.executableAt program)

end Host
end PipeShell
