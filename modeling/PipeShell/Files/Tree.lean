import PipeShell.Files.PathText
import PipeShell.Files.SystemError
import PipeShell.Process.Program

/-!
File trees with symbolic links, and the walk from a path text to the place it leads to. A place is
the list of names from the root down, so a path without links or dots names it directly.
-/
namespace PipeShell

inductive Entry
  | directory
  | file (content : Bytes) (executable : Bool)
  | program (actions : List Action)
  | link (target : String)

def Entry.isDirectory : Entry → Bool
  | .directory => true
  | _ => false

abbrev Place := List String

/-- The entries of a tree by place. The root is a directory in every tree. -/
structure Tree where
  entries : List (Place × Entry) := []

namespace Tree

def entry? (t : Tree) (place : Place) : Option Entry :=
  if place == [] then some .directory else t.entries.lookup place

def isDirectory (t : Tree) (place : Place) : Bool := (t.entry? place).any (·.isDirectory)

/-- The longest name of an entry, in bytes. -/
def maxName : Nat := 255

/-- How many links one walk may follow. -/
def maxLinks : Nat := 40

/-- Walks on from a directory until the first link, which `follow` takes over. Empty steps and
single dots stay, but like any step they need a directory to stand on. -/
def stretch (t : Tree) (follow : Place → List String → Except SystemError Place) :
    Place → List String → Except SystemError Place
  | here, [] => .ok here
  | here, name :: steps =>
    if name == "" || name == "." then stretch t follow here steps
    else if name == ".." then stretch t follow here.dropLast steps
    else if maxName < Utf8.size name then .error .nameTooLong
    else
      match t.entry? (here ++ [name]) with
      | none => .error .notFound
      | some .directory => stretch t follow (here ++ [name]) steps
      | some (.link target) =>
        if target == "" then .error .notFound
        else
          follow (if PathText.isAbsolute target then [] else here) (PathText.steps target ++ steps)
      | some _ => if steps == [] then .ok (here ++ [name]) else .error .notADirectory

/-- A walk that may follow `links` links. -/
def walk (t : Tree) : (links : Nat) → Place → List String → Except SystemError Place
  | 0 => stretch t fun _ _ => .error .linkLoop
  | links + 1 => stretch t (walk t links)

/-- The place that a path leads to, links followed, when it is taken from a directory. -/
def resolve (t : Tree) (directory : Place) (path : String) : Except SystemError Place :=
  if path.toList.contains '\x00' then .error .nulInPath
  else if path == "" then .error .notFound
  else
    t.walk maxLinks (if PathText.isAbsolute path then [] else directory) (PathText.steps path)

/-- The path that names a place without links or dots. -/
def pathOf (place : Place) : String := "/" ++ String.intercalate "/" place

/-- The directory that a path leads to, made with whatever is missing of it. The names come
innermost first. -/
def makeDirectory (t : Tree) : List String → Tree × Place
  | [] => (t, [])
  | name :: above =>
    match t.resolve [] (pathOf (name :: above).reverse) with
    | .ok found => (t, found)
    | .error _ =>
      let (t, parent) := t.makeDirectory above
      (⟨(parent ++ [name], .directory) :: t.entries⟩, parent ++ [name])

/-- The place at which an entry of that name is put. Links are followed, but never for the sake of
a new link. -/
def target (t : Tree) (parent : Place) (name : String) : Entry → Place
  | .link _ => parent ++ [name]
  | _ =>
    match t.resolve parent name with
    | .ok found => found
    | .error _ => parent ++ [name]

/-- Puts an entry at a place, under the directory that its parent path leads to. -/
def add (t : Tree) (place : Place) (entry : Entry) : Tree :=
  match place.reverse with
  | [] => t
  | name :: above =>
    if entry.isDirectory then (t.makeDirectory (name :: above)).1
    else
      let (t, parent) := t.makeDirectory above
      ⟨(t.target parent name entry, entry) :: t.entries⟩

end Tree
end PipeShell
