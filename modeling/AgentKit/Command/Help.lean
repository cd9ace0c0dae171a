import AgentKit.Command
/-!
# Help

What a command says about itself: what it does, how it is called, and its flags in columns.
-/

namespace AgentKit.Command

/-! ## 1. Flags -/

/-- What a flag's value is called. -/
def valueName : FlagKind → Bytes
  | .text => " string"
  | .list => " strings"
  | .switch => []

/-- A flag as it is typed. -/
def flagLead (f : Flag) : Bytes :=
  let letter : Bytes :=
    match f.letter with
    | some c => "  -" ++ c :: ", "
    | none => "      "
  letter ++ "--" ++ f.name ++ valueName f.kind

/-- What a flag does, and what it is when it is not given. -/
def flagUsage (f : Flag) : Bytes :=
  if f.initial.isEmpty then f.usage
  else f.usage ++ " (default " ++ Quoted.text f.initial ++ ")"

/-- Text with spaces to a width. -/
def padded (width : Nat) (t : Bytes) : Bytes := t ++ List.replicate (width - t.length) (byte ' ')

/-- Flags in the order of their names, one on a line. -/
def flagLines (flags : List Flag) : List Bytes :=
  let seen := sortBy (fun a b => Bytes.le a.name b.name) (flags.filter (!·.hidden))
  let width := (seen.map fun f => (flagLead f).length).foldl max 0
  seen.map fun f => padded (width + 3) (flagLead f) ++ flagUsage f

/-! ## 2. Usage -/

/-- A list under a title. -/
def titled (title : Bytes) (lines : List Bytes) : Bytes :=
  "\n\n" ++ title ++ ":\n" ++ Bytes.joinWith "\n" lines

/-- How a command is called. -/
def callLine (c : Command) : Bytes :=
  match c with
  | .root => program ++ " [command]"
  | .help => c.path ++ " [command] [flags]"
  | _ => c.path ++ " [flags]"

/-- The width of the names in the list of commands. -/
def nameWidth : Nat := 12

/-- The list of commands, by name. -/
def commandLines : List Bytes :=
  let sorted := sortBy (fun a b => Bytes.le a.name b.name) named
  sorted.map fun c => "  " ++ padded nameWidth c.name ++ c.short

/-- How a command is used. -/
def usage (c : Command) : Bytes :=
  let examples : Bytes :=
    match c.example? with
    | some t => titled "Examples" [t]
    | none => []
  if c = .root then
    "Usage:\n  " ++ c.callLine ++ examples ++ titled "Available Commands" commandLines ++
      titled "Flags" (flagLines c.flags) ++
      "\n\nUse \"agkit [command] --help\" for more information about a command.\n"
  else
    "Usage:\n  " ++ c.callLine ++ examples ++ titled "Flags" (flagLines (c.helpFlag :: c.ownFlags)) ++
      titled "Global Flags" (flagLines commonFlags) ++ "\n"

/-- What a command says about itself. -/
def helpText (c : Command) : Bytes := c.long ++ "\n\n" ++ c.usage

end AgentKit.Command
