import PipeShell.Text.Utf8

/-!
The streams around a pipeline: one endpoint to read, two to write, and the error stream that
stages in the middle inherit.
-/
namespace PipeShell

/-- Where the error output of a last stage goes. -/
inductive ErrorsTo
  | own
  /-- The output endpoint, as on a connection. -/
  | output
  | broken
deriving DecidableEq, Repr

structure Endpoints where
  outputWorks : Bool := true
  errorsTo : ErrorsTo := .own
deriving DecidableEq, Repr

/-- What is left to read and what has been written. -/
structure Streams where
  input : Bytes := []
  output : Bytes := []
  errors : Bytes := []
  inherited : Bytes := []
deriving DecidableEq, Repr

namespace Streams

/-- A write to the output endpoint, unless it fails. -/
def writeOutput (e : Endpoints) (bytes : Bytes) (s : Streams) : Option Streams :=
  if e.outputWorks then some { s with output := s.output ++ bytes } else none

/-- A write to the error endpoint, unless it fails. -/
def writeErrors (e : Endpoints) (bytes : Bytes) (s : Streams) : Option Streams :=
  match e.errorsTo with
  | .own => some { s with errors := s.errors ++ bytes }
  | .output => s.writeOutput e bytes
  | .broken => none

def writeInherited (bytes : Bytes) (s : Streams) : Streams :=
  { s with inherited := s.inherited ++ bytes }

end Streams
end PipeShell
