import AgentKit.Config
/-!
# Commands

What the program can be told to do, with the flags that each command knows and the words that explain
it.
-/

namespace AgentKit

/-- A shell that can complete what is typed. -/
inductive Shell where
  | bash
  | fish
  | powershell
  | zsh
  deriving DecidableEq, Repr

/-- A command; the root stands for the program itself.  The last four come with every command line of this
kind, and three of them are there for shells. -/
inductive Command where
  | root
  | init
  | update
  | status
  | diff
  | config
  | version
  | help
  /-- Tells which shells there are scripts for. -/
  | completion
  /-- Prints the script that teaches a shell to complete. -/
  | script (shell : Shell)
  /-- Answers a shell that asks what could be typed next, with descriptions or without. -/
  | request (described : Bool)
  deriving DecidableEq, Repr

def Shell.name : Shell → Bytes
  | .bash => "bash"
  | .fish => "fish"
  | .powershell => "powershell"
  | .zsh => "zsh"

namespace Command

def program : Bytes := "agkit"

def name : Command → Bytes
  | .root => program
  | .init => "init"
  | .update => "update"
  | .status => "status"
  | .diff => "diff"
  | .config => "config"
  | .version => "version"
  | .help => "help"
  | .completion => "completion"
  | .script shell => shell.name
  | .request true => "__complete"
  | .request false => "__completeNoDesc"

/-- What is typed to reach a command. -/
def path (c : Command) : Bytes :=
  match c with
  | .root => program
  | .script _ => program ++ " " ++ name .completion ++ " " ++ c.name
  | _ => program ++ " " ++ c.name

/-- The commands that do the program's work. -/
def workers : List Command := [.init, .update, .status, .diff, .config, .version]

/-- The commands that are listed. -/
def named : List Command := workers ++ [.completion, .help]

def shells : List Shell := [.bash, .fish, .powershell, .zsh]

/-- The commands that only scripts call.  They are not listed, and no help is given on them. -/
def requests : List Command := [.request true, .request false]

/-- There is something to do for the command, beyond explaining it. -/
def runs : Command → Bool
  | .root | .completion => false
  | _ => true

/-! ## 1. Flags -/

def helpFlag (c : Command) : Flag :=
  { name := "help", letter := some (byte 'h'), kind := .switch, usage := "help for " ++ c.name }

def pathFlag (usage : Bytes) : Flag :=
  { name := "path", letter := some (byte 'p'), kind := .text, initial := ".", usage := usage }

/-- The flags of the commands that install. -/
def installFlags : List Flag := [
  { name := "force", letter := some (byte 'f'), kind := .switch,
    usage := "Overwrite an existing .agent/ directory" },
  pathFlag "Project directory to install into",
  { name := "quiet", letter := some (byte 'q'), kind := .switch, usage := "Only print errors" },
  { name := "dry-run", kind := .switch,
    usage := "Show what would be copied without writing anything" }]

/-- The flags that only this command has. -/
def ownFlags : Command → List Flag
  | .init | .update => installFlags
  | .status => [pathFlag "Project directory to inspect"]
  | .diff => [
      pathFlag "Project directory to compare",
      { name := "patch", kind := .switch, usage := "Print a unified diff for each changed file" }]
  | .script _ => [
      { name := "no-descriptions", kind := .switch, usage := "disable completion descriptions" }]
  | _ => []

/-- The flags that all commands have. -/
def commonFlags : List Flag :=
  { name := "config", kind := .text, usage := "Path to a YAML config file" } :: Config.flags

def flags (c : Command) : List Flag := c.ownFlags ++ c.helpFlag :: commonFlags

/-! ## 2. Words -/

/-- A few words on a command that is listed. -/
def short : Command → Bytes
  | .root | .init => "Install the agent kit into a project"
  | .update => "Reinstall the agent kit, overwriting an existing copy"
  | .status => "Show whether the agent kit is installed"
  | .diff => "Compare the installed kit with the bundled kit"
  | .config => "Print the effective configuration"
  | .version => "Print the version information"
  | .help => "Help about any command"
  | .completion => "Generate the autocompletion script for the specified shell"
  | .script _ | .request _ => []

/-- What a command does.  Those for shells explain themselves in their own words. -/
def long : Command → Bytes
  | .root =>
    "agkit copies the bundled .agent/ directory (agents, workflows, skills and\n" ++
    "helper scripts for AI coding assistants) into a project.\n\n" ++
    "The kit is copied verbatim. A project that already contains .agent/ is left\n" ++
    "untouched unless --force is given."
  | .init =>
    "Copy the bundled .agent/ directory into a project.\n\n" ++
    "The project directory must already exist. If it already contains .agent/,\n" ++
    "nothing is written and a warning is printed; use --force to overwrite."
  | .update =>
    "Copy the bundled .agent/ directory into a project, overwriting files that\n" ++
    "already exist. Equivalent to 'agkit init --force'.\n\n" ++
    "Files that exist only in the project's .agent/ are kept."
  | .status =>
    "Report whether a project contains .agent/ and, if so, how many files each\n" ++
    "of its top-level directories holds. Files directly inside .agent/ are listed\n" ++
    "under \".\". This command always exits with status 0."
  | .diff =>
    "Compare a project's .agent/ directory with the bundled kit, file by file.\n\n" ++
    "Reports files missing from the project, files whose content differs and files\n" ++
    "that exist only in the project. With --patch, a unified diff from the\n" ++
    "installed content to the bundled content is printed for each changed file."
  | .config =>
    "Print the settings agkit resolved from the command line and the file given\n" ++
    "with --config, as YAML. The output can be saved and passed back with --config."
  | .version => "Print the version information of agkit in JSON format."
  | .help =>
    "Help provides help for any command in the application.\n" ++
    "Simply type agkit help [path to command] for full details."
  | .completion | .script _ | .request _ => []

/-- How a command is used, for instance. -/
def example? : Command → Option Bytes
  | .root => some (
    "  agkit init                     # install into the current directory\n" ++
    "  agkit init --path ../my-app    # install into another project\n" ++
    "  agkit init --dry-run           # show what would be copied\n" ++
    "  agkit update                   # overwrite an existing install\n" ++
    "  agkit status                   # show what is installed")
  | .init => some (
    "  agkit init\n" ++
    "  agkit init --path ../my-app\n" ++
    "  agkit init --dry-run\n" ++
    "  agkit init --force --quiet")
  | .update => some (
    "  agkit update\n" ++
    "  agkit update --path ../my-app --dry-run")
  | .status => some (
    "  agkit status\n" ++
    "  agkit status --path ../my-app")
  | .diff => some (
    "  agkit diff\n" ++
    "  agkit diff --path ../my-app --patch")
  | _ => none

end Command

end AgentKit
