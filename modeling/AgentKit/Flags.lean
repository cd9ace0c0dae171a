import AgentKit.Csv
import AgentKit.Text.Quoted
/-!
# Flags

Options of a command line: `--name value`, `--name=value`, and for some a letter, `-n value`,
`-nvalue`, `-n=value`.  Switches need no value, and their letters may be joined.  Other arguments may
stand anywhere; behind `--` all arguments are such.
-/

namespace AgentKit

/-- What a flag takes. -/
inductive FlagKind where
  /-- Any text. -/
  | text
  /-- A record of texts; a flag that is given again adds to them. -/
  | list
  /-- Yes or no, yes if nothing is said. -/
  | switch
  deriving DecidableEq, Repr

/-- A flag that a command knows. -/
structure Flag where
  name : Bytes
  letter : Option UInt8 := none
  kind : FlagKind
  /-- The text it has when it is not given. -/
  initial : Bytes := []
  usage : Bytes := []
  hidden : Bool := false
  deriving DecidableEq, Repr

inductive FlagValue where
  | text (t : Bytes)
  | list (ts : List Bytes)
  | switch (b : Bool)
  deriving DecidableEq, Repr

/-- Why a command line was refused. -/
inductive FlagFault where
  | unknown (name : Bytes)
  | unknownLetter (letter : UInt8) (cluster : Bytes)
  | needsValue (arg : Bytes)
  | letterNeedsValue (letter : UInt8) (cluster : Bytes)
  | badForm (arg : Bytes)
  | badValue (value flag reason : Bytes)
  | helpWanted
  deriving DecidableEq, Repr

def FlagFault.message : FlagFault → Bytes
  | .unknown name => "unknown flag: --" ++ name
  | .unknownLetter c cluster =>
    "unknown shorthand flag: " ++ Quoted.char (Char.ofNat c.toNat) ++ " in -" ++ cluster
  | .needsValue arg => "flag needs an argument: " ++ arg
  | .letterNeedsValue c cluster =>
    "flag needs an argument: " ++ Quoted.char (Char.ofNat c.toNat) ++ " in -" ++ cluster
  | .badForm arg => "bad flag syntax: " ++ arg
  | .badValue value flag reason =>
    "invalid argument " ++ Quoted.text value ++ " for " ++ Quoted.text flag ++ " flag: " ++ reason
  | .helpWanted => "pflag: help requested"

/-- The flags that were given, and the other arguments. -/
structure Arguments where
  given : List (Bytes × FlagValue) := []
  rest : List Bytes := []
  deriving DecidableEq, Repr

namespace Arguments

/-- The value of a flag that was given. -/
def get? (a : Arguments) (name : Bytes) : Option FlagValue := a.given.lookup name

def has (a : Arguments) (name : Bytes) : Bool := (a.get? name).isSome

/-- The text of a flag, or `initial` if it was not given. -/
def text (a : Arguments) (name initial : Bytes) : Bytes :=
  match a.get? name with
  | some (.text t) => t
  | _ => initial

/-- The switch was turned on. -/
def switch (a : Arguments) (name : Bytes) : Bool := a.get? name == some (.switch true)

/-- The arguments with a flag's value replaced. -/
def put (a : Arguments) (name : Bytes) (v : FlagValue) : Arguments :=
  { a with given := (name, v) :: a.given.filter (·.1 ≠ name) }

end Arguments

namespace Flag

/-- The flag as messages name it. -/
def shown (f : Flag) : Bytes :=
  match f.letter with
  | some c => byte '-' :: c :: (", --" ++ f.name)
  | none => "--" ++ f.name

/-- Yes or no, as a text says it. -/
def truth? (t : Bytes) : Option Bool :=
  if t ∈ (["1", "t", "T", "TRUE", "true", "True"] : List Bytes) then some true
  else if t ∈ (["0", "f", "F", "FALSE", "false", "False"] : List Bytes) then some false
  else none

/-- Gives a flag the value a text stands for. -/
def assign (f : Flag) (value : Bytes) (a : Arguments) : Except FlagFault Arguments :=
  match f.kind with
  | .text => .ok (a.put f.name (.text value))
  | .switch =>
    match truth? value with
    | some b => .ok (a.put f.name (.switch b))
    | none =>
      .error (.badValue value f.shown
        ("strconv.ParseBool: parsing " ++ Quoted.text value ++ ": invalid syntax"))
  | .list =>
    match Csv.read value with
    | .ok ts =>
      match a.get? f.name with
      | some (.list before) => .ok (a.put f.name (.list (before ++ ts)))
      | _ => .ok (a.put f.name (.list ts))
    | .error e => .error (.badValue value f.shown e.message)

/-- Reads an argument of the form `--name` or `--name=value`; the answer holds the arguments behind
it. -/
def long (flags : List Flag) (arg : Bytes) (more : List Bytes) (a : Arguments) :
    Except FlagFault (Arguments × List Bytes) :=
  let body := arg.drop 2
  if body.head? = some (byte '-') ∨ body.head? = some (byte '=') then .error (.badForm arg)
  else
    let name := body.takeWhile (· ≠ byte '=')
    match flags.find? (·.name = name) with
    | none => .error (if name = "help" then .helpWanted else .unknown name)
    | some f =>
      match Bytes.cut (byte '=') body, f.kind, more with
      | some (_, value), _, _ => (f.assign value a).map (·, more)
      | none, .switch, _ => (f.assign "true" a).map (·, more)
      | none, _, value :: more => (f.assign value a).map (·, more)
      | none, _, [] => .error (.needsValue arg)

/-- Reads letters behind a dash; the answer holds the arguments behind them. -/
def letters (flags : List Flag) (more : List Bytes) :
    Bytes → Arguments → Except FlagFault (Arguments × List Bytes)
  | [], a => .ok (a, more)
  | c :: t, a =>
    if ("test." : Bytes).isPrefixOf (c :: t) then .ok (a, more)
    else
      match flags.find? (·.letter = some c) with
      | none => .error (if c = byte 'h' then .helpWanted else .unknownLetter c (c :: t))
      | some f =>
        match t, f.kind, more with
        | 0x3D :: v :: value, _, _ => (f.assign (v :: value) a).map (·, more)
        | _, .switch, _ => do letters flags more t (← f.assign "true" a)
        | v :: value, _, _ => (f.assign (v :: value) a).map (·, more)
        | [], _, value :: rest => (f.assign value a).map (·, rest)
        | [], _, [] => .error (.letterNeedsValue c (c :: t))

/-- Reads arguments from left to right. -/
def parseFrom (flags : List Flag) : Nat → Arguments → List Bytes → Except FlagFault Arguments
  | 0, a, _ => .ok a
  | _ + 1, a, [] => .ok a
  | fuel + 1, a, arg :: more =>
    match arg with
    | 0x2D :: 0x2D :: [] => .ok { a with rest := a.rest ++ more }
    | 0x2D :: 0x2D :: _ => do
      let (a, more) ← long flags arg more a
      parseFrom flags fuel a more
    | 0x2D :: c :: t => do
      let (a, more) ← letters flags more (c :: t) a
      parseFrom flags fuel a more
    | _ => parseFrom flags fuel { a with rest := a.rest ++ [arg] } more

def parse (flags : List Flag) (args : List Bytes) : Except FlagFault Arguments :=
  parseFrom flags args.length {} args

end Flag

end AgentKit
