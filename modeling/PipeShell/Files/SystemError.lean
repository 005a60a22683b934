/-!
Failures that the operating system reports, with the text that is shown for each.
-/
namespace PipeShell

inductive SystemError
  | notFound
  | execFormat
  | badDescriptor
  | wouldBlock
  | permissionDenied
  | notADirectory
  | isADirectory
  | invalidArgument
  | nameTooLong
  | linkLoop
  | addressUnavailable
  | networkUnreachable
  | connectionRefused
  /-- A path that holds a NUL character. -/
  | nulInPath
  /-- A program, argument or directory to start with that holds a NUL character. -/
  | nulInArgument
  /-- Something that exists where a directory is asked for. -/
  | directoryExpected
  | invalidText
deriving DecidableEq, Repr

namespace SystemError

def numbered (text : String) (number : Nat) : String :=
  text ++ " (os error " ++ toString number ++ ")"

def message : SystemError → String
  | .notFound => numbered "No such file or directory" 2
  | .execFormat => numbered "Exec format error" 8
  | .badDescriptor => numbered "Bad file descriptor" 9
  | .wouldBlock => numbered "Resource temporarily unavailable" 11
  | .permissionDenied => numbered "Permission denied" 13
  | .notADirectory => numbered "Not a directory" 20
  | .isADirectory => numbered "Is a directory" 21
  | .invalidArgument => numbered "Invalid argument" 22
  | .nameTooLong => numbered "File name too long" 36
  | .linkLoop => numbered "Too many levels of symbolic links" 40
  | .addressUnavailable => numbered "Cannot assign requested address" 99
  | .networkUnreachable => numbered "Network is unreachable" 101
  | .connectionRefused => numbered "Connection refused" 111
  | .nulInPath => "file name contained an unexpected NUL byte"
  | .nulInArgument => "nul byte found in provided data"
  | .directoryExpected => "Not a directory"
  | .invalidText => "stream did not contain valid UTF-8"

end SystemError
end PipeShell
