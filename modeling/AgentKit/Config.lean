import AgentKit.Failure
import AgentKit.Flags
import AgentKit.Exclusion
import AgentKit.Text.Lowercase
import AgentKit.Yaml.Decode
import AgentKit.Yaml.Print
/-!
# Settings

The settings come from flags and from a file.  A flag that is given wins over the file, and the file
over the default; this is decided for each setting on its own.  Setting names in the file may be
written in capitals, a setting without a value counts as not set, and names that are not known are
passed over.
-/

namespace AgentKit

/-- The settings of a run. -/
structure Config where
  /-- Patterns of entries that are neither copied nor counted. -/
  exclude : List Bytes := []
  color : Bytes := "auto"
  logLevel : Bytes := "warn"
  logFormat : Bytes := "text"
  /-- A directory that replaces the bundled kit. -/
  source : Bytes := []
  deriving DecidableEq, Repr

/-- Why there are no settings. -/
inductive ConfigFault where
  /-- The file could not be read. -/
  | unreadable (file : Bytes) (cause : Failure)
  /-- The file is no map of settings. -/
  | unparsable (file : Bytes) (cause : Yaml.Refusal)
  /-- Values that do not fit. -/
  | mismatches (reasons : List Bytes)
  | badColor (value : Bytes)
  | badLogFormat (value : Bytes)
  | badPattern (refusal : Bytes)
  deriving Repr

def ConfigFault.message : ConfigFault → Bytes
  | .unreadable file cause => "failed to read config file " ++ file ++ ": " ++ cause.message
  | .unparsable file cause =>
    "failed to read config file " ++ file ++ ": While parsing config: " ++ cause.message
  | .mismatches reasons =>
    "failed to decode configuration: " ++ Bytes.ofNat reasons.length ++ " error(s) decoding:\n\n" ++
      Bytes.joinWith "\n" (Bytes.sort (reasons.map fun r => "* " ++ r))
  | .badColor value => "invalid color " ++ Quoted.text value ++ " (expected auto, always or never)"
  | .badLogFormat value => "invalid log format " ++ Quoted.text value ++ " (expected text or json)"
  | .badPattern refusal => refusal

namespace Config

/-! ## 1. The flags -/

/-- The flags that give settings. -/
def flags : List Flag := [
  { name := "exclude", kind := .list, usage := "Skip kit entries matching this pattern (repeatable)" },
  { name := "color", kind := .text, initial := "auto", usage := "Color output: auto, always or never" },
  { name := "log-level", kind := .text, initial := "warn",
    usage := "Diagnostic log level (debug, info, warn, error)" },
  { name := "log-format", kind := .text, initial := "text",
    usage := "Diagnostic log format: text or json" },
  { name := "source", kind := .text, hidden := true,
    usage := "Install from this directory instead of the bundled kit" }]

/-- The value a flag gives.  A list counts as it reads after being written as a record: one empty text
is no text at all. -/
def flagValue : FlagValue → Yaml.Value
  | .text t => .text t
  | .list ts => .list (if ts = [[]] then [] else ts.map fun t => .text (Csv.plainLineEnds t))
  | .switch b => .bool b

/-! ## 2. The file -/

/-- Entries under their keys in lower case.  Of two keys that differ in case only, the one written in
capitals counts. -/
def lowerNames (entries : List (Bytes × Yaml.Value)) : List (Bytes × Yaml.Value) :=
  let capitals := (entries.filter fun e => Bytes.lower e.1 ≠ e.1).map fun e => (Bytes.lower e.1, e.2)
  capitals ++ entries.filter fun e => Bytes.lower e.1 = e.1 ∧ (capitals.lookup e.1).isNone

mutual

/-- A value with the keys of all maps in it in lower case. -/
def lowerKeys : Yaml.Value → Yaml.Value
  | .list items => .list (lowerItems items)
  | .map entries => .map (lowerNames (lowerValues entries))
  | v => v

def lowerItems : List Yaml.Value → List Yaml.Value
  | [] => []
  | v :: t => lowerKeys v :: lowerItems t

/-- Entries with the keys of all maps in their values in lower case. -/
def lowerValues : List (Bytes × Yaml.Value) → List (Bytes × Yaml.Value)
  | [] => []
  | (k, v) :: t => (k, lowerKeys v) :: lowerValues t

end

def lowerEntries (entries : List (Bytes × Yaml.Value)) : List (Bytes × Yaml.Value) :=
  lowerNames (lowerValues entries)

/-- The value a file gives a setting. -/
def fileValue? (file : List (Bytes × Yaml.Value)) (name : Bytes) : Option Yaml.Value :=
  match file.lookup name with
  | some .null | none => none
  | some v => some v

/-! ## 3. Values of settings -/

/-- The text a value stands for. -/
def textOf (name : Bytes) : Yaml.Value → Except Bytes Bytes
  | .null => .ok []
  | .text t => .ok t
  | .bool b => .ok (if b then "1" else "0")
  | .int n => .ok (Bytes.ofInt n)
  | .float d => .ok d.plain
  | v =>
    let kind : Bytes :=
      match v with
      | .list _ => "[]interface \x7b\x7d"
      | .map _ => "map[string]interface \x7b\x7d"
      | _ => "time.Time"
    .error ("'" ++ name ++ "' expected type 'string', got unconvertible type '" ++ kind ++
      "', value: '" ++ v.shown ++ "'")

/-- The texts of a list, or all that is wrong with them; the first has number `k`. -/
def textsFrom (name : Bytes) : Nat → List Yaml.Value → Except (List Bytes) (List Bytes)
  | _, [] => .ok []
  | k, v :: rest =>
    match textOf (name ++ "[" ++ Bytes.ofNat k ++ "]") v, textsFrom name (k + 1) rest with
    | .ok t, .ok ts => .ok (t :: ts)
    | .error e, .ok _ => .error [e]
    | .ok _, .error es => .error es
    | .error e, .error es => .error (e :: es)

/-- The texts a value stands for: those of a list, the parts between commas of a text, or the value
alone. -/
def textsOf (name : Bytes) : Yaml.Value → Except (List Bytes) (List Bytes)
  | .list items => textsFrom name 0 items
  | .text t => .ok (if t.isEmpty then [] else Bytes.splitOn (byte ',') t)
  | .map [] => .ok []
  | v => textsFrom name 0 [v]

/-! ## 4. Resolving -/

/-- The value of a setting: that of its flag, that of the file, or none. -/
def valueOf (args : Arguments) (file : List (Bytes × Yaml.Value)) (name : Bytes) :
    Option Yaml.Value :=
  match args.get? name with
  | some v => some (flagValue v)
  | none => fileValue? file name

/-- The text of a setting. -/
def textSetting (args : Arguments) (file : List (Bytes × Yaml.Value)) (name initial : Bytes) :
    Except Bytes Bytes :=
  match valueOf args file name with
  | some v => textOf name v
  | none => .ok initial

def listSetting (args : Arguments) (file : List (Bytes × Yaml.Value)) (name : Bytes) :
    Except (List Bytes) (List Bytes) :=
  match valueOf args file name with
  | some v => textsOf name v
  | none => .ok []

/-- The complaint of a setting, if there is one. -/
def complaint {α : Type} : Except Bytes α → List Bytes
  | .ok _ => []
  | .error e => [e]

/-- The settings, or all that is wrong with them. -/
def resolve (args : Arguments) (file : List (Bytes × Yaml.Value)) : Except ConfigFault Config :=
  let base : Config := {}
  let exclude := listSetting args file "exclude"
  let color := textSetting args file "color" base.color
  let logLevel := textSetting args file "log-level" base.logLevel
  let logFormat := textSetting args file "log-format" base.logFormat
  let source := textSetting args file "source" base.source
  match exclude, color, logLevel, logFormat, source with
  | .ok exclude, .ok color, .ok logLevel, .ok logFormat, .ok source =>
    .ok { exclude, color, logLevel, logFormat, source }
  | _, _, _, _, _ =>
    let listed := match exclude with
      | .ok _ => []
      | .error es => es
    .error (.mismatches (listed ++ complaint color ++ complaint logLevel ++ complaint logFormat ++
      complaint source))

/-- Values that would otherwise fail late. -/
def validate (c : Config) : Except ConfigFault Unit :=
  if c.color ∉ (["auto", "always", "never"] : List Bytes) then .error (.badColor c.color)
  else if c.logFormat ∉ (["text", "json"] : List Bytes) then .error (.badLogFormat c.logFormat)
  else
    match Exclusion.firstMalformed? c.exclude with
    | some p => .error (.badPattern (Exclusion.refusal p))
    | none => .ok ()

/-- A settings file: its name and what reading it gave. -/
structure File where
  name : Bytes
  content : Except Failure Bytes

/-- The entries of a settings file. -/
def File.entries (f : File) : Except ConfigFault (List (Bytes × Yaml.Value)) :=
  match f.content with
  | .error cause => .error (.unreadable f.name cause)
  | .ok t =>
    match Yaml.readMap t with
    | .error cause => .error (.unparsable f.name cause)
    | .ok entries => .ok (lowerEntries entries)

/-- The settings that flags and a file give. -/
def load (args : Arguments) (file : Option File) : Except ConfigFault Config := do
  let entries ← match file with
    | some f => f.entries
    | none => .ok []
  let c ← resolve args entries
  c.validate
  return c

/-! ## 5. Writing -/

/-- The settings as a document that can be read back. -/
def yaml (c : Config) : Bytes :=
  "exclude:" ++ Yaml.Print.items c.exclude ++ "color: " ++ Yaml.Print.scalar 4 c.color ++
    "log-level: " ++ Yaml.Print.scalar 4 c.logLevel ++ "log-format: " ++
    Yaml.Print.scalar 4 c.logFormat ++
    if c.source.isEmpty then ([] : Bytes) else ("source: " : Bytes) ++ Yaml.Print.scalar 4 c.source

end Config

end AgentKit
