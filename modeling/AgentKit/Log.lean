import AgentKit.Text.Lowercase
import AgentKit.Text.Quoted
/-!
# Diagnostics

What the program notes about its own work, apart from what it tells the user.  A record has a level, a
message and named fields; it is written if the level asked for reaches it.
-/

namespace AgentKit.Log

/-- How much a record matters, the most urgent first. -/
inductive Level where
  | panic
  | fatal
  | error
  | warning
  | info
  | debug
  | trace
  deriving DecidableEq, Repr

namespace Level

def name : Level → Bytes
  | .panic => "panic"
  | .fatal => "fatal"
  | .error => "error"
  | .warning => "warning"
  | .info => "info"
  | .debug => "debug"
  | .trace => "trace"

/-- The place of a level, the most urgent at 0. -/
def rank : Level → Nat
  | .panic => 0
  | .fatal => 1
  | .error => 2
  | .warning => 3
  | .info => 4
  | .debug => 5
  | .trace => 6

def all : List Level := [.panic, .fatal, .error, .warning, .info, .debug, .trace]

/-- The level with a name, in whatever case; a warning has a short name too. -/
def ofName? (t : Bytes) : Option Level :=
  let t := Bytes.lower t
  if t = "warn" then some .warning else all.find? (·.name = t)

end Level

/-- The value of a field. -/
inductive Value where
  | null
  | text (t : Bytes)
  | int (n : Int)
  | bool (b : Bool)
  | list (items : List Value)
  | map (entries : List (Bytes × Value))
  deriving Repr, Inhabited

/-- Named values; a name stands for one value only. -/
abbrev Fields := List (Bytes × Value)

/-- The fields with `name` standing for `v`. -/
def Fields.put (fs : Fields) (name : Bytes) (v : Value) : Fields :=
  fs.filter (·.1 ≠ name) ++ [(name, v)]

/-- The fields of both, those of `more` winning. -/
def Fields.putAll (fs more : Fields) : Fields := more.foldl (fun fs (k, v) => fs.put k v) fs

/-- One note. -/
structure Record where
  level : Level
  message : Bytes
  fields : Fields := []
  deriving Repr

/-- A note for those who look for the cause of something. -/
def Record.debug (message : Bytes) (fields : Fields) : Record := ⟨.debug, message, fields⟩

/-- How records are written. -/
inductive Format where
  | text
  | json
  deriving DecidableEq, Repr

/-- What is written, and how. -/
structure Settings where
  level : Level := .warning
  format : Format := .text
  deriving DecidableEq, Repr

/-- Why settings were refused. -/
inductive Fault where
  | unknownFormat (name : Bytes)
  | unknownLevel (name : Bytes)
  deriving DecidableEq, Repr

def Fault.message : Fault → Bytes
  | .unknownFormat name =>
    "unknown log format " ++ Quoted.text name ++ " (expected text or json)"
  | .unknownLevel name =>
    "invalid log level " ++ Quoted.text name ++ ": not a valid logrus Level: " ++ Quoted.text name

namespace Settings

/-- The settings with the level of a name. -/
def withLevel (s : Settings) (name : Bytes) : Except Fault Settings :=
  match Level.ofName? name with
  | some l => .ok { s with level := l }
  | none => .error (.unknownLevel name)

/-- The settings with a level and a format.  Without a level it stays; without a format it is text. -/
def configure (s : Settings) (level format : Bytes) : Except Fault Settings := do
  let chosen : Format ←
    if format.isEmpty ∨ format = "text" then .ok .text
    else if format = "json" then .ok .json
    else .error (.unknownFormat format)
  let s ← if level.isEmpty then .ok s else s.withLevel level
  return { s with format := chosen }

/-- Records of a level are written. -/
def shows (s : Settings) (l : Level) : Bool := l.rank ≤ s.level.rank

end Settings

end AgentKit.Log
