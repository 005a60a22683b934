import PipeShell.Text.Utf8

/-!
Paths as text. Joining keeps both sides as they are written and never looks at a file tree.
-/
namespace PipeShell.PathText

def isAbsolute (path : String) : Bool := path.toList.head? == some '/'

/-- A path taken from a base. An absolute path stands for itself. -/
def join (base path : String) : String :=
  if isAbsolute path || base == "" then path
  else if base.toList.getLast? == some '/' then base ++ path
  else base ++ "/" ++ path

/-- A text cut at every occurrence of a character. -/
def splitAtChar (c : Char) : List Char → List (List Char)
  | [] => [[]]
  | d :: ds =>
    match splitAtChar c ds with
    | [] => [[d]]
    | s :: ss => if d == c then [] :: s :: ss else (d :: s) :: ss

/-- What stands between the slashes, empty steps included. -/
def steps (path : String) : List String := (splitAtChar '/' path.toList).map String.ofList

/-- The directories of a search path. -/
def entries (searchPath : String) : List String :=
  (splitAtChar ':' searchPath.toList).map String.ofList

end PipeShell.PathText
