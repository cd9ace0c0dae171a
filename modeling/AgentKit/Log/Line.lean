import AgentKit.Log
import AgentKit.Text.Json
/-!
# Lines of diagnostics

A record as a line of text, `time="…" level=… msg=… name=value …`, or as a JSON object on a line.  The
fields stand in the order of their names.  A field whose name the line needs for itself is set apart by
`fields.`.
-/

namespace AgentKit.Log

/-! ## 1. Values -/

namespace Value

/-- The entries in the order of their names. -/
def sorted {α : Type} (entries : List (Bytes × α)) : List (Bytes × α) :=
  sortBy (fun a b => Bytes.le a.1 b.1) entries

mutual

/-- A value as text. -/
def shown : Value → Bytes
  | .null => "<nil>"
  | .text t => t
  | .int n => Bytes.ofInt n
  | .bool b => if b then "true" else "false"
  | .list items => "[" ++ Bytes.joinWith " " (shownItems items) ++ "]"
  | .map entries =>
    "map[" ++ Bytes.joinWith " " ((sorted (shownEntries entries)).map (·.2)) ++ "]"

def shownItems : List Value → List Bytes
  | [] => []
  | v :: t => v.shown :: shownItems t

/-- Entries as text, each with its name for sorting. -/
def shownEntries : List (Bytes × Value) → List (Bytes × Bytes)
  | [] => []
  | (k, v) :: t => (k, k ++ ":" ++ v.shown) :: shownEntries t

end

/-- An object from its members. -/
def object (members : List (Bytes × Bytes)) : Bytes :=
  "\x7b" ++ Bytes.joinWith "," ((sorted members).map fun (k, v) => Json.text k ++ ":" ++ v) ++ "\x7d"

mutual

/-- A value in JSON. -/
def json : Value → Bytes
  | .null => "null"
  | .text t => Json.text t
  | .int n => Bytes.ofInt n
  | .bool b => if b then "true" else "false"
  | .list items => "[" ++ Bytes.joinWith "," (jsonItems items) ++ "]"
  | .map entries => object (jsonEntries entries)

def jsonItems : List Value → List Bytes
  | [] => []
  | v :: t => v.json :: jsonItems t

def jsonEntries : List (Bytes × Value) → List (Bytes × Bytes)
  | [] => []
  | (k, v) :: t => (k, v.json) :: jsonEntries t

end

end Value

/-! ## 2. Lines -/

/-- A character that a value of a text line may hold without quotes. -/
def isBare (b : UInt8) : Bool :=
  (byte 'a' ≤ b && b ≤ byte 'z') || (byte 'A' ≤ b && b ≤ byte 'Z') || (byte '0' ≤ b && b ≤ byte '9') ||
    ("-._/@^+" : Bytes).contains b

/-- A value of a text line, quoted where it has to be. -/
def bareOrQuoted (t : Bytes) : Bytes := if t.all isBare then t else Quoted.text t

/-- Sets apart the fields whose names are taken. -/
def setApart (taken : List Bytes) (fs : Fields) : Fields :=
  taken.foldl (fun fs name =>
    match fs.lookup name with
    | some v => Fields.put (fs.filter (·.1 ≠ name)) ("fields." ++ name) v
    | none => fs) fs

/-- A record as a line of text. -/
def textLine (time : Bytes) (r : Record) : Bytes :=
  let fields := Value.sorted (setApart ["time", "msg", "level", "logrus_error"] r.fields)
  let message : List (Bytes × Bytes) :=
    if r.message.isEmpty then [] else [("msg", r.message)]
  let head : List (Bytes × Bytes) := ("time", time) :: ("level", r.level.name) :: message
  let parts := head ++ fields.map fun (k, v) => (k, v.shown)
  Bytes.joinWith " " (parts.map fun (k, v) => k ++ "=" ++ bareOrQuoted v) ++ "\n"

/-- A record as an object on a line. -/
def jsonLine (time : Bytes) (r : Record) : Bytes :=
  let fields := setApart ["timestamp", "message", "logLevel", "logrus_error"] r.fields
  let own : List (Bytes × Bytes) :=
    [("timestamp", Json.text time), ("message", Json.text r.message),
      ("logLevel", Json.text r.level.name)]
  Value.object (own ++ Value.jsonEntries fields) ++ "\n"

/-- What is written of a record. -/
def Settings.line (s : Settings) (time : Bytes) (r : Record) : Bytes :=
  if !s.shows r.level then []
  else
    match s.format with
    | .text => textLine time r
    | .json => jsonLine time r

def Settings.lines (s : Settings) (time : Bytes) (rs : List Record) : Bytes :=
  rs.flatMap (s.line time)

end AgentKit.Log
