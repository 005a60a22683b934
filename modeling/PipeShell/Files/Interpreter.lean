import PipeShell.Text.Utf8

/-!
The first line of a script, which names the program that is started in place of the script.
-/
namespace PipeShell

/-- A program that is given scripts, with the argument that a script has for it. -/
structure Interpreter where
  path : String
  argument : Option String
deriving DecidableEq, Repr

namespace Interpreter

/-- How much of a script is looked at. -/
def headSize : Nat := 256

/-- The head of a file. A shorter file is filled up with NULs. -/
def head (content : Bytes) : Bytes := (content ++ List.replicate headSize 0).take headSize

def isSpace (b : UInt8) : Bool := b == 0x20 || b == 0x09

def isNameByte (b : UInt8) : Bool := !isSpace b && b != 0x00

/-- The first line in what follows the mark of a script, if the name in it is complete. A line feed
behind a NUL ends no line. -/
def line? (text : Bytes) : Option Bytes :=
  let isInner (b : UInt8) : Bool := b != 0x0A && b != 0x00
  if (text.dropWhile isInner).head? = some 0x0A then some (text.takeWhile isInner)
  else if (text.dropWhile isSpace).all isNameByte then none
  else some text.dropLast

/-- The argument after a name. Spaces within it stay. -/
def argument? : Bytes → Option Bytes
  | [] => none
  | b :: rest =>
    if !isSpace b || rest.all isSpace then none
    else some ((rest.dropWhile isSpace).takeWhile (· != 0x00))

/-- The interpreter that a script names. An empty name stands for the working directory. -/
def ofScript? (content : Bytes) : Option Interpreter :=
  match head content with
  | 0x23 :: 0x21 :: text => do
    let line := ((← line? text).reverse.dropWhile isSpace).reverse.dropWhile isSpace
    if line = [] then none
    let name := line.takeWhile isNameByte
    some {
      path := if name = [] then "." else Utf8.toStringLossy name
      argument := (argument? (line.dropWhile isNameByte)).map Utf8.toStringLossy }
  | _ => none

end Interpreter
end PipeShell
