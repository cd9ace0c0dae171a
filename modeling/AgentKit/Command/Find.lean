import AgentKit.Command
/-!
# Finding the command

The command is the first argument that is neither a flag nor a flag's value.  It may stand behind flags,
and which of those take a value has to be known before the command is: a flag is taken to have one unless
it is known as a switch or comes with `=`.
-/

namespace AgentKit.Command

/-- The argument is a flag whose value is the next argument. -/
def takesNext (flags : List Flag) (arg : Bytes) : Bool :=
  if arg.contains (byte '=') then false
  else
    match arg with
    | 0x2D :: 0x2D :: long => !(flags.any fun f => f.name = long && f.kind = .switch)
    | [0x2D, letter] => !(flags.any fun f => f.letter = some letter && f.kind = .switch)
    | _ => false

def dashed (arg : Bytes) : Bool := arg.head? = some (byte '-')

/-- The arguments that are neither flags nor their values, up to `--`.  A flag that could have the last
argument as its value ends them. -/
def words (flags : List Flag) : List Bytes → List Bytes
  | [] => []
  | arg :: rest =>
    if arg = "--" then []
    else if takesNext flags arg then
      match rest with
      | _ :: next :: rest => words flags (next :: rest)
      | _ => []
    else if arg.isEmpty || dashed arg then words flags rest
    else arg :: words flags rest

/-- The arguments without the first `word` that is neither a flag nor a flag's value. -/
def without (flags : List Flag) (word : Bytes) : List Bytes → List Bytes
  | [] => []
  | arg :: rest =>
    if arg = "--" then arg :: rest
    else if takesNext flags arg then
      match rest with
      | value :: rest => arg :: value :: without flags word rest
      | [] => [arg]
    else if arg = word then rest
    else arg :: without flags word rest

/-! ## 1. Suggestions -/

/-- One more row of the table of distances: from `above`, which starts with `corner`, the distances for
one more byte `b` of the first text; `left` is the distance before them. -/
def distanceRow (b : UInt8) : Nat → Nat → List Nat → Bytes → List Nat
  | corner, left, up :: above, c :: t =>
    let here := if b = c then corner else min corner (min up left) + 1
    here :: distanceRow b up here above t
  | _, _, _, _ => []

/-- The number of bytes that have to be put in, taken out or replaced to get from one text to the
other. -/
def distance (s t : Bytes) : Nat :=
  let rows := s.foldl (fun (row : List Nat) b =>
    let first := row.headD 0
    (first + 1) :: distanceRow b first (first + 1) row.tail t) (List.range (t.length + 1))
  rows.getLastD 0

/-- The largest distance at which a name is suggested. -/
def suggestionReach : Nat := 2

/-- The name is suggested for what was typed. -/
def suggests (typed name : Bytes) : Bool :=
  let typed := Bytes.lower typed
  distance typed name ≤ suggestionReach || typed.isPrefixOf name

def suggestions (typed : Bytes) : List Bytes :=
  (workers.map name ++ [name .completion]).filter (suggests typed)

/-! ## 2. The command -/

/-- Why there is no command. -/
structure Unknown where
  typed : Bytes
  suggestions : List Bytes
  deriving DecidableEq, Repr

def Unknown.message (u : Unknown) : Bytes :=
  let line (n : Bytes) : Bytes := "\t" ++ n ++ "\n"
  let hint : Bytes :=
    if u.suggestions.isEmpty then []
    else ("\n\nDid you mean this?\n" : Bytes) ++ u.suggestions.flatMap line
  "unknown command " ++ Quoted.text u.typed ++ " for " ++ Quoted.text program ++ hint

/-- The command for a shell that the arguments behind `completion` name, if they name one. -/
def findScript (args : List Bytes) : Command × List Bytes :=
  match words commonFlags args with
  | [] => (.completion, args)
  | typed :: _ =>
    match shells.find? (·.name = typed) with
    | some shell => (.script shell, without commonFlags typed args)
    | none => (.completion, args)

/-- The command among those that are known that arguments name, and the arguments without its name. -/
def findAmong (known : List Command) (args : List Bytes) : Except Unknown (Command × List Bytes) :=
  match words commonFlags args with
  | [] => .ok (.root, args)
  | typed :: _ =>
    match known.find? (·.name = typed) with
    | some .completion => .ok (findScript (without commonFlags typed args))
    | some c => .ok (c, without commonFlags typed args)
    | none => .error ⟨typed, suggestions typed⟩

/-- The command that is run for arguments. -/
def find (args : List Bytes) : Except Unknown (Command × List Bytes) := findAmong (named ++ requests) args

/-- The command that help is given on.  Requests are not known to it. -/
def findTopic (args : List Bytes) : Except Unknown (Command × List Bytes) := findAmong named args

end AgentKit.Command
