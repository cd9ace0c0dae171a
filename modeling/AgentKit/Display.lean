import AgentKit.Failure
import AgentKit.Table
import AgentKit.Text.Lowercase
import AgentKit.Text.Quoted
/-!
# What the user sees

Messages for the user: lines marked as good, doubtful or bad, plain lines, sections and tables.  Bad news
goes to the second stream and is never held back; all else goes to the first and is not shown to a user
who asked for quiet.
-/

namespace AgentKit

/-- When to use color. -/
inductive ColorMode where
  | auto
  | always
  | never
  deriving DecidableEq, Repr

namespace ColorMode

/-- The mode of a name, in whatever case. -/
def ofName? (t : Bytes) : Option ColorMode :=
  let t := Bytes.lower t
  if t ∈ (["", "auto"] : List Bytes) then some .auto
  else if t ∈ (["always", "force"] : List Bytes) then some .always
  else if t ∈ (["never", "off"] : List Bytes) then some .never
  else none

/-- The message that refuses a name. -/
def refusal (t : Bytes) : Bytes :=
  "invalid color mode " ++ Quoted.text t ++ " (expected auto, always or never)"

/-- Whether color is on once the mode has been asked for. -/
def apply (m : ColorMode) (on : Bool) : Bool :=
  match m with
  | .auto => on
  | .always => true
  | .never => false

end ColorMode

/-- A message for the user. -/
inductive Message where
  | success (text : Bytes)
  | warning (text : Bytes)
  | info (text : Bytes)
  | heading (title : Bytes)
  | table (headers : List Bytes) (rows : List (List Bytes))
  /-- Text as it is. -/
  | print (text : Bytes)
  /-- Bad news, and what it happened in. -/
  | error (text context : Bytes)
  deriving DecidableEq, Repr

/-- What goes to the two streams. -/
structure Output where
  out : Bytes := []
  err : Bytes := []
  deriving DecidableEq, Repr

def Output.append (a b : Output) : Output := ⟨a.out ++ b.out, a.err ++ b.err⟩

namespace Message

/-- A line in the color of a code, if color is on. -/
def painted (color : Bool) (code line : Bytes) : Bytes :=
  if color then ("\x1b[" : Bytes) ++ code ++ "m" ++ line ++ "\x1b[0m" else line

/-- The text with a newline at its end. -/
def closed (t : Bytes) : Bytes :=
  if t.isEmpty || t.getLast? = some (byte '\n') then t else t ++ "\n"

/-- What a message writes. -/
def output (color : Bool) : Message → Output
  | .success t => { out := painted color "32;1" ("✓ " ++ t ++ "\n") }
  | .warning t => { out := painted color "33;1" ("⚠ " ++ t ++ "\n") }
  | .info t => { out := t ++ "\n" }
  | .heading title =>
    { out := painted color "1" (title ++ "\n") ++
        painted color "1" (List.replicate (Utf8.length title) (byte '-') ++ "\n") }
  | .table headers rows => { out := Table.text headers rows }
  | .print t => { out := closed t }
  | .error t context =>
    let lead : Bytes := if context.isEmpty then [] else context ++ ": "
    { err := painted color "31;1" ("✗ " ++ lead ++ t ++ "\n") }

/-- The message is shown even to a user who asked for quiet. -/
def isUrgent : Message → Bool
  | .error .. => true
  | _ => false

end Message

/-- How messages are shown. -/
structure Display where
  color : Bool := false
  quiet : Bool := false
  deriving DecidableEq, Repr

namespace Display

/-- What the display writes of a message. -/
def write (p : Display) (m : Message) : Output :=
  if p.quiet && !m.isUrgent then {} else m.output p.color

def writeAll (p : Display) (ms : List Message) : Output :=
  ms.foldl (fun o m => o.append (p.write m)) {}

end Display

end AgentKit
