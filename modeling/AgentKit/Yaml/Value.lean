import AgentKit.Double
import AgentKit.Timestamp
import AgentKit.Text.Quoted
/-!
# Values

What a document stands for once tags and aliases are resolved.  The keys of a map are texts; a key
of another kind counts as the text that shows it.
-/

namespace AgentKit.Yaml

inductive Value where
  | null
  | bool (b : Bool)
  | int (n : Int)
  | float (d : Double)
  | text (t : Bytes)
  | time (t : Timestamp)
  | list (items : List Value)
  | map (entries : List (Bytes × Value))
  deriving Repr, Inhabited

namespace Value

/-- A truth value as a word. -/
def boolText (b : Bool) : Bytes := if b then "true" else "false"

/-! ## 1. Values in messages -/

mutual

/-- The value as messages show it: texts bare, maps by ascending key. -/
def shown : Value → Bytes
  | .null => "<nil>"
  | .bool b => boolText b
  | .int n => Bytes.ofInt n
  | .float d => d.general
  | .text t => t
  | .time t => t.text
  | .list items => "[" ++ Bytes.joinWith " " (shownItems items) ++ "]"
  | .map entries =>
    let parts := sortBy (fun a b => Bytes.le a.1 b.1) (shownEntries entries)
    "map[" ++ Bytes.joinWith " " (parts.map fun (k, v) => k ++ ":" ++ v) ++ "]"

def shownItems : List Value → List Bytes
  | [] => []
  | v :: t => v.shown :: shownItems t

/-- The entries with their values as messages show them. -/
def shownEntries : List (Bytes × Value) → List (Bytes × Bytes)
  | [] => []
  | (k, v) :: t => (k, v.shown) :: shownEntries t

end

mutual

/-- The value as a literal: texts quoted, collections with the type of their items. -/
def literal : Value → Bytes
  | .null => "interface \x7b\x7d(nil)"
  | .bool b => boolText b
  | .int n => Bytes.ofInt n
  | .float d => d.general
  | .text t => Quoted.text t
  | .time t => t.text
  | .list items => "[]interface \x7b\x7d\x7b" ++ Bytes.joinWith ", " (literalItems items) ++ "\x7d"
  | .map entries =>
    let parts := sortBy (fun a b => Bytes.le a.1 b.1) (literalEntries entries)
    "map[string]interface \x7b\x7d\x7b" ++
      Bytes.joinWith ", " (parts.map fun (k, v) => Quoted.text k ++ ":" ++ v) ++ "\x7d"

def literalItems : List Value → List Bytes
  | [] => []
  | v :: t => v.literal :: literalItems t

/-- The entries with their values as literals. -/
def literalEntries : List (Bytes × Value) → List (Bytes × Bytes)
  | [] => []
  | (k, v) :: t => (k, v.literal) :: literalEntries t

end

/-! ## 2. Keys -/

/-- The text that stands for a value used as a key. -/
def keyText : Value → Bytes
  | .null => []
  | .bool b => boolText b
  | .int n => Bytes.ofInt n
  | .float d => d.plain
  | .text t => t
  | .time t => t.text
  | .list _ | .map _ => []

/-- Two keys are the same. -/
def sameKey : Value → Value → Bool
  | .null, .null => true
  | .bool a, .bool b => a == b
  | .int a, .int b => a == b
  | .float a, .float b => a == b && a != .nan
  | .text a, .text b => a == b
  | .time a, .time b => a == b
  | _, _ => false

/-- The value is a list or a map. -/
def isCollection : Value → Bool
  | .list _ | .map _ => true
  | _ => false

end Value

end AgentKit.Yaml
