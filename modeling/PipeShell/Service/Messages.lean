/-!
What clients and the terminal are told besides the output of programs.
-/
namespace PipeShell.Message

def prompt : String := "rsh4> "
def tooLarge : String := "error: command too large\n"
def noCommand : String := "warning: no commands provided\n"
def exiting : String := "Client exiting...\n"
def stopping : String := "Server stopping...\n"

/-- A complaint of the program itself. -/
def complaint (text : String) : String := "rsh: " ++ text ++ "\n"

end PipeShell.Message
