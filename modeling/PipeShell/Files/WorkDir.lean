import PipeShell.Files.PathText

/-!
Handles on working directories. Handles cloned from one another share a directory; a handle made
anew has one of its own.
-/
namespace PipeShell

structure WorkDirs where
  /-- The directory of each family of clones. -/
  paths : List String
  /-- The family of each handle. -/
  families : List Nat
deriving DecidableEq, Repr

namespace WorkDirs

inductive Step
  | set (path : String)
  | fresh (path : String)
  | clone
deriving DecidableEq, Repr

/-- One handle on one directory. -/
def start (path : String) : WorkDirs := ⟨[path], [0]⟩

def family (w : WorkDirs) (handle : Nat) : Nat := w.families.getD handle 0

def get (w : WorkDirs) (handle : Nat) : String := w.paths.getD (w.family handle) ""

def resolve (w : WorkDirs) (handle : Nat) (path : String) : String :=
  PathText.join (w.get handle) path

/-- One step through a handle. A new handle comes last. -/
def apply (w : WorkDirs) (handle : Nat) : Step → WorkDirs
  | .set path => { w with paths := w.paths.set (w.family handle) path }
  | .fresh path => ⟨w.paths ++ [path], w.families ++ [w.paths.length]⟩
  | .clone => { w with families := w.families ++ [w.family handle] }

/-- The directory of every handle. -/
def all (w : WorkDirs) : List String := (List.range w.families.length).map w.get

end WorkDirs
end PipeShell
