import PipeShell.Text.Utf8

/-!
Commands and pipelines, and the limits that keep a pipeline small enough for the wire.
-/
namespace PipeShell

structure Command where
  name : String
  arguments : List String := []
  /-- The file that standard input is read from, if any. -/
  input : Option String := none
deriving DecidableEq, Repr, Inhabited

/-- The arguments joined by single spaces, without quotes. -/
def Command.argsText (c : Command) : String := String.intercalate " " c.arguments

abbrev Pipeline := List Command

namespace Pipeline

def maxCommands : Nat := 8

/-- A name takes fewer bytes than this. -/
def nameLimit : Nat := 64

def maxArguments : Nat := 16

/-- The joined arguments take fewer bytes than this. -/
def argsLimit : Nat := 256

/-- Why a line is not a pipeline. -/
inductive ReadError
  | tooManyCommands
  | tooBig
  | emptyCommand
  | badRedirect
deriving DecidableEq, Repr

def ReadError.message : ReadError → String
  | .tooManyCommands => "error: piping limited to " ++ toString maxCommands ++ " commands"
  | .tooBig => "error: command or arguments too big"
  | .emptyCommand => "error: empty command in pipeline"
  | .badRedirect =>
    "error: input redirection needs a file and is only allowed on the first command"

end Pipeline
end PipeShell
