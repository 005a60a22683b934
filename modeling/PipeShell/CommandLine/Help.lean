import PipeShell.CommandLine.Options
import PipeShell.Text.Wrap

/-!
The text that explains the options.
-/
namespace PipeShell.Options

/-- The column at which the description of an option begins. -/
def descriptionColumn : Nat := 31

def helpWidth : Nat := 100

/-- An option with its description, whose lines stand under each other. -/
def helpEntry (option description : String) : List Char :=
  let margin := List.replicate descriptionColumn ' '
  let label := "  ".toList ++ option.toList
  label ++ margin.drop label.length
    ++ ((Text.wrap (helpWidth - descriptionColumn) description.toList).flatMap fun c =>
      if c == '\n' then c :: margin else [c])
    ++ ['\n']

/-- The help text, with the path of the settings file that is named from outside. It is shown
without the escape sequences that the path may hold. -/
def helpText (outside : Option String) : String :=
  let options := [
    ("-c, --client [<ADDR:PORT>]", "Run as a client connected to ADDR:PORT"),
    ("-s, --server [<ADDR:PORT>]", "Run as a server listening on ADDR:PORT"),
    ("-x, --threaded", "Serve each client on its own thread"),
    ("    --config <CONFIG>",
      "Path to configuration file [env: RSH_CONFIG=" ++ outside.getD "" ++ "]"),
    ("    --log-level <LOG_LEVEL>", "Log filter, e.g. `info` or `rsh=debug`"),
    ("-h, --help", "Print help")]
  String.ofList (Text.visible
    ("Remote pipeline shell\n\nUsage: rsh [OPTIONS]\n\nOptions:\n".toList
      ++ options.flatMap fun (option, description) => helpEntry option description))

end PipeShell.Options
