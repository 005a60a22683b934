import PipeShell.Pipeline.Basic

/-!
Writing a pipeline as a line. A token is quoted when it is empty or holds a byte that would end it
outside quotes, so that reading the line gives the same tokens as long as none holds a quote.
-/
namespace PipeShell

def needsQuotes (token : String) : Bool :=
  token == "" || token.toList.any fun c =>
    c == ' ' || c == '\t' || c == '\n' || c == '\r' || c == '|' || c == '<'

def tokenText (token : String) : String :=
  if needsQuotes token then "\"" ++ token ++ "\"" else token

def Command.text (c : Command) : String :=
  String.intercalate " " ((c.name :: c.arguments).map tokenText)
    ++ match c.input with
      | some file => " < " ++ tokenText file
      | none => ""

def Pipeline.text (p : Pipeline) : String := String.intercalate " | " (p.map Command.text)

end PipeShell
