import PipeShell.Files.Host
import PipeShell.Settings.Basic
import PipeShell.Yaml.Node

/-!
Settings from a document. Each part is a mapping in which any member may be left out and members
with other names count for nothing; no member may be given twice.
-/
namespace PipeShell.Settings

open Yaml (Node Scalar)

/-- The members of a mapping that have one of the names. Where nothing is written there are none. -/
def members (names : List String) : Node → Option (List (String × Node))
  | .mapping entries => do
    let all ← entries.mapM fun
      | (.scalar key, value) => some (key.text, value)
      | _ => none
    let named := all.filter (names.contains ·.1)
    if (named.map (·.1)).Nodup then some named else none
  | .scalar s => if s = .empty then some [] else none
  | .sequence _ => none

/-- What a member is read as, or the given value if it is left out. -/
def member {α : Type} (all : List (String × Node)) (name : String) (read : Node → Option α)
    (otherwise : α) : Option α :=
  match all.lookup name with
  | some value => read value
  | none => some otherwise

def text? : Node → Option String
  | .scalar s => some s.text
  | _ => none

/-- A text that may be written as absent. -/
def optionalText? : Node → Option (Option String)
  | .scalar s =>
    if s.isPlain && ["", "null", "Null", "NULL", "~"].contains s.text then some none
    else some (some s.text)
  | _ => none

def plainText? : Node → Option String
  | .scalar s => if s.isPlain then some s.text else none
  | _ => none

def flag? (value : Node) : Option Bool := do
  let word ← plainText? value
  if ["true", "True", "TRUE"].contains word then some true
  else if ["false", "False", "FALSE"].contains word then some false
  else none

/-- A number without a sign but for one plus, in decimal without leading zeros, or in another base
after a mark. -/
def number? (value : Node) : Option Nat := do
  let word := (← plainText? value).toList
  match if word.head? = some '+' then word.drop 1 else word with
  | '0' :: 'x' :: digits => Text.numeral? 16 digits
  | '0' :: 'o' :: digits => Text.numeral? 8 digits
  | '0' :: 'b' :: digits => Text.numeral? 2 digits
  | ['0'] => some 0
  | '0' :: _ => none
  | digits => Text.numeral? 10 digits

def port? (value : Node) : Option UInt16 := do
  let n ← number? value
  if n < 65536 then some n.toUInt16 else none

def server? (value : Node) : Option ServerSettings := do
  let all ← members ["host", "port", "threaded", "reuse_address"] value
  let base : ServerSettings := {}
  let host ← member all "host" text? base.host
  let port ← member all "port" port? base.port
  let threaded ← member all "threaded" flag? base.threaded
  let reuseAddress ← member all "reuse_address" flag? base.reuseAddress
  return { host, port, threaded, reuseAddress }

def home? (value : Node) : Option (Option String) := do
  member (← members ["home"] value) "home" optionalText? none

def logLevel? (value : Node) : Option String := do
  member (← members ["level"] value) "level" text? ({} : Settings).logLevel

def ofNode? (value : Node) : Option Settings := do
  let all ← members ["server", "shell", "logging"] value
  let base : Settings := {}
  let server ← member all "server" server? base.server
  let home ← member all "shell" home? base.home
  let logLevel ← member all "logging" logLevel? base.logLevel
  return { server, home, logLevel }

/-- The settings that a text gives. A text without a document leaves everything as it is. -/
def read (text : String) : Except SettingsError Settings :=
  if Text.trim text == "" then .ok {}
  else
    match (Node.read? text).bind fun document => document.elim (some {}) ofNode? with
    | some settings => .ok settings
    | none => .error .malformed

def load (host : Host) (path : String) : Except SettingsError Settings := do
  match host.readFile path with
  | .error cause => .error (.unreadable path cause)
  | .ok content =>
    match Utf8.toString? content with
    | none => .error (.unreadable path .invalidText)
    | some text => read text

end PipeShell.Settings
