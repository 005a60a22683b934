/-!
The options of the program. An option with a value takes it from its own word or from the next one,
and a word that begins with a dash, but is more than that, is never a value.
-/
namespace PipeShell

structure Options where
  /-- The server to call. An empty address stands for the default one. -/
  client : Option String := none
  /-- The address to listen on. An empty one stands for that of the settings. -/
  server : Option String := none
  threaded : Bool := false
  settingsPath : Option String := none
  logLevel : Option String := none
deriving DecidableEq, Repr

namespace Options

/-- Why there is nothing to do with the options. -/
inductive Stop
  | help
  | usage
deriving DecidableEq, Repr

inductive Flag
  | client
  | server
  | threaded
  | settingsPath
  | logLevel
  | help
deriving DecidableEq, Repr

def Flag.ofLetter? (c : Char) : Option Flag :=
  [('c', Flag.client), ('s', .server), ('x', .threaded), ('h', .help)].lookup c

def Flag.ofName? (name : String) : Option Flag :=
  [("client", Flag.client), ("server", .server), ("threaded", .threaded),
    ("config", .settingsPath), ("log-level", .logLevel), ("help", .help)].lookup name

/-- Sets an option to a value. None can be set twice. -/
def set (o : Options) (flag : Flag) (value : String) : Except Stop Options :=
  match flag with
  | .client => if o.client.isSome then .error .usage else .ok { o with client := some value }
  | .server => if o.server.isSome then .error .usage else .ok { o with server := some value }
  | .threaded => if o.threaded then .error .usage else .ok { o with threaded := true }
  | .settingsPath =>
    if o.settingsPath.isSome then .error .usage else .ok { o with settingsPath := some value }
  | .logLevel => if o.logLevel.isSome then .error .usage else .ok { o with logLevel := some value }
  | .help => .error .help

/-- Sets an option that has been named to the value of having none, where it may be left out. -/
def complete (o : Options) : (named : Option Flag) → Except Stop Options
  | none => .ok o
  | some .settingsPath => .error .usage
  | some .logLevel => .error .usage
  | some flag => o.set flag ""

def takesValue : Flag → Bool
  | .threaded => false
  | .help => false
  | _ => true

/-- Options with a long name, and those whose value is still to come. -/
abbrev Progress := Options × Option Flag

/-- Reads an option after the one named before it. -/
def name (p : Progress) (flag : Flag) (value : Option String) : Except Stop Progress := do
  let o ← p.1.complete p.2
  match value with
  | some value =>
    if takesValue flag then return (← o.set flag value, none) else .error .usage
  | none => if takesValue flag then return (o, some flag) else return (← o.set flag "", none)

/-- Reads options by letters. What follows one with a value is its value. -/
def letters (p : Progress) : List Char → Except Stop Progress
  | [] => .ok p
  | c :: cs =>
    match Flag.ofLetter? c with
    | none => .error .usage
    | some flag =>
      if takesValue flag then
        match cs with
        | [] => name p flag none
        | '=' :: value => name p flag (some (String.ofList value))
        | value => name p flag (some (String.ofList value))
      else do letters (← name p flag none) cs

/-- Reads an option by its long name, which ends at an equals sign. -/
def long (p : Progress) (word : List Char) : Except Stop Progress :=
  match Flag.ofName? (String.ofList (word.takeWhile (· != '='))) with
  | none => .error .usage
  | some flag =>
    name p flag (match word.dropWhile (· != '=') with
      | [] => none
      | _ :: value => some (String.ofList value))

/-- A word that is no option is the value of the one named before it. -/
def plainWord (p : Progress) (word : String) : Except Stop Progress := do
  match p.2 with
  | none => .error .usage
  | some flag => return (← p.1.set flag word, none)

/-- Reads the words in order. After two dashes there may be nothing. -/
def words (p : Progress) : List String → Except Stop Options
  | [] => p.1.complete p.2
  | word :: rest =>
    match word.toList with
    | ['-', '-'] => if rest == [] then p.1.complete p.2 else .error .usage
    | '-' :: '-' :: cs => do words (← long p cs) rest
    | ['-'] => do words (← plainWord p word) rest
    | '-' :: cs => do words (← letters p cs) rest
    | _ => do words (← plainWord p word) rest

/-- Reads the options of the program, which may name its settings file from outside as well. -/
def read (outside : Option String) (arguments : List String) : Except Stop Options := do
  let o ← words ({}, none) arguments
  if o.client.isSome && o.server.isSome then .error .usage
  return { o with settingsPath := o.settingsPath <|> outside }

end Options
end PipeShell
