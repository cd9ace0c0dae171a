import AgentKit.Command.Find
import AgentKit.Command.Help
import AgentKit.Install
import AgentKit.Log.Line
import AgentKit.Version
/-!
# Running a command

From arguments to what is printed, what is on disk and how the program exits.  Every command first
settles the settings, which may fail; only a look at the status goes on without them.
-/

namespace AgentKit

/-- What a shell is told that asks for completions. -/
structure Answer where
  out : Bytes := []
  err : Bytes := []
  /-- Lines for whoever looks for mistakes in a script. -/
  notes : List Bytes := []

/-- The words of the commands that come with the command line.  Nothing the program does depends on them. -/
structure Library where
  /-- What is said of completion, and of the script for a shell. -/
  about : Option Shell → Bytes := fun _ => []
  /-- The script for a shell, with descriptions or without. -/
  script : Shell → Bool → Bytes := fun _ _ => []
  /-- The answer to a request, with descriptions or without. -/
  answer : Bool → List Bytes → Answer := fun _ _ => {}
  /-- What is said if there is no help on a topic. -/
  noTopic : List Bytes → Bytes := fun _ => []

/-- What a run starts from. -/
structure Environment where
  disk : Disk
  /-- Colors are not wanted, whatever is asked for. -/
  noColor : Bool := false
  /-- The time that diagnostics are stamped with. -/
  time : Bytes
  version : Version
  library : Library := {}
  /-- The file that the variable for it names, which the notes of answers go to; empty if it is not set. -/
  debugFile : Bytes := []

/-- What a run ends with. -/
structure Ending where
  exit : Nat := 0
  output : Output := {}
  disk : Disk
  deriving DecidableEq, Repr

namespace Command

/-- Why a run failed. -/
inductive Fault where
  | unknown (u : Unknown)
  /-- An argument that the command does not take. -/
  | unexpected (c : Command) (arg : Bytes)
  /-- No argument for a command that needs one. -/
  | missing
  | flags (f : FlagFault)
  | config (f : ConfigFault)
  | log (f : Log.Fault)
  | failed (f : Failure)

def Fault.message : Fault → Bytes
  | .unknown u => u.message
  | .unexpected c arg => "unknown command " ++ Quoted.text arg ++ " for " ++ Quoted.text c.path
  | .missing => "requires at least 1 arg(s), only received 0"
  | .flags f => f.message
  | .config f => f.message
  | .log f => f.message
  | .failed f => f.message

/-- What a command did. -/
structure Report where
  disk : Disk
  shown : List Message := []
  /-- Text that is printed whatever the display. -/
  printed : Bytes := []
  /-- Text that goes to the second stream whatever the display. -/
  noted : Bytes := []
  color : ColorMode := .auto
  quiet : Bool := false
  settings : Log.Settings := {}
  log : List Log.Record := []
  fault : Option Fault := none

/-- How the program ends with a report.  Color is off to begin with, and diagnostics come before the
error. -/
def Report.ending (env : Environment) (r : Report) : Ending :=
  let display : Display := { color := r.color.apply false && !env.noColor, quiet := r.quiet }
  let shown := (display.writeAll r.shown).append { out := r.printed, err := r.noted }
  let logged : Output := { err := r.settings.lines env.time r.log }
  match r.fault with
  | none => { output := logged.append shown, disk := r.disk }
  | some f =>
    { exit := 1, output := (logged.append shown).append (display.write (.error f.message [])),
      disk := r.disk }

/-! ## 1. Settings -/

/-- What a command works with. -/
structure Setup where
  config : Config := {}
  settings : Log.Settings := {}
  /-- What the user has to know about the settings. -/
  warnings : List Message := []

/-- The settings file that was asked for. -/
def configFile (d : Disk) (a : Arguments) : Option Config.File :=
  let name := a.text "config" []
  if name.isEmpty then none else some ⟨name, d.read name⟩

/-- The settings that flags and file give. -/
def strictSetup (d : Disk) (a : Arguments) : Except Fault Setup := do
  let config ← (Config.load a (configFile d a)).mapError Fault.config
  let settings ← (Log.Settings.configure {} config.logLevel config.logFormat).mapError Fault.log
  return { config, settings }

/-- The settings for a command.  The status is shown with the defaults if there are none. -/
def setup (c : Command) (d : Disk) (a : Arguments) : Except Fault Setup :=
  match strictSetup d a with
  | .ok s => .ok s
  | .error f =>
    if c = .status then .ok { warnings := [.warning ("Ignoring configuration: " ++ f.message)] }
    else .error f

/-- The kit that settings ask for. -/
def kitSource (config : Config) (d : Disk) : Source :=
  if config.source.isEmpty then .bundled else .directory d config.source

/-- The color mode that settings ask for. -/
def colorMode (config : Config) : ColorMode := (ColorMode.ofName? config.color).getD .auto

/-! ## 2. Commands -/

/-- A failed install; what is wrong with the source is for the user to mend. -/
def installFault (f : Failure) : Failure :=
  if f.isSourceNotFound then .during "the kit is missing; reinstall agkit" f else f

/-- What the user is told after files have been copied. -/
def nextStep (r : Install.Result) : List Message :=
  match r.action with
  | .installed | .updated => [.info "Run 'agkit status' to see what was installed."]
  | _ => []

/-- Installs; `always` forces without being asked to. -/
def runInstall (s : Setup) (a : Arguments) (always : Bool) (d : Disk) : Report :=
  let path := a.text "path" "."
  let force := a.switch "force" || always
  let dryRun := a.switch "dry-run"
  let start : Log.Record := .debug "installing kit"
    [("path", .text path), ("force", .bool force), ("dry_run", .bool dryRun)]
  let job : Install :=
    { source := kitSource s.config d, force, dryRun, exclude := s.config.exclude }
  let o := job.run path d
  let base : Report :=
    { disk := o.disk, shown := o.shown, color := colorMode s.config, quiet := a.switch "quiet"
      log := start :: o.log }
  match o.result with
  | .error f => { base with fault := some (.failed (installFault f)) }
  | .ok r => { base with shown := o.shown ++ nextStep r }

/-- The lines that tell how a kit has drifted. -/
def driftMessages (drift : Drift) (patch : Bool) : List Message :=
  if drift.clean then
    [.success ("Installed kit matches the bundled kit (" ++ Bytes.ofNat drift.unchanged ++ " files)")]
  else
    let restore : List Message :=
      if drift.missing.isEmpty && drift.modified.isEmpty then []
      else [.info "Run 'agkit update' to restore the bundled files."]
    drift.missing.map (fun f => .info ("  - " ++ f ++ " (missing)")) ++
      drift.modified.map (fun f => .info ("  ~ " ++ f.path ++ " (modified)")) ++
      drift.extra.map (fun f => .info ("  + " ++ f ++ " (not in kit)")) ++
      [.warning (Bytes.ofNat drift.missing.length ++ " missing, " ++
        Bytes.ofNat drift.modified.length ++ " modified, " ++
        Bytes.ofNat drift.extra.length ++ " extra, " ++ Bytes.ofNat drift.unchanged ++
        " unchanged")] ++
      (if patch then drift.modified.map (fun f => .print f.patch) else []) ++ restore

def runDiff (s : Setup) (a : Arguments) (d : Disk) : Report :=
  let patch := a.switch "patch"
  let o := Install.diff (kitSource s.config d) s.config.exclude (a.text "path" ".") patch d
  { disk := d
    shown := match o.drift with
      | some drift => driftMessages drift patch
      | none => []
    color := colorMode s.config
    log := o.log
    fault := o.failure.map .failed }

/-- The lines that tell what is installed. -/
def statusMessages (st : Status) : List Message :=
  if !st.installed then
    [.heading "Agent kit status", .warning ("Not installed: " ++ st.path ++ " does not exist"),
      .info "Run 'agkit init' to install the kit."]
  else
    let head : List Message := [.heading "Agent kit status", .success ("Installed at " ++ st.path)]
    match st.failure with
    | some f =>
      head ++ [.warning ("Could not count files in " ++ Kit.marker ++ ": " ++ f.message)]
    | none =>
      head ++
        [.table ["DIRECTORY", "FILES"] (st.subdirs.map fun c => [c.name, Bytes.ofInt c.files.toInt]),
          .info ("Total: " ++ Bytes.ofInt st.total.toInt ++ " files")]

/-- Looks at what is installed. -/
def runStatus (s : Setup) (a : Arguments) (d : Disk) : Report :=
  let st := Status.look (a.text "path" ".") s.config.exclude d
  { disk := d, shown := s.warnings ++ statusMessages st, color := colorMode s.config, log := st.log }

/-- What a command says about itself. -/
def explanation (library : Library) (c : Command) : Bytes :=
  match c with
  | .completion => library.about none
  | .script shell => library.about (some shell)
  | _ => c.helpText

/-- Explains the command that arguments name.  It is no failure if there is none. -/
def runHelp (library : Library) (a : Arguments) (d : Disk) : Report :=
  match findTopic a.rest with
  | .ok (c, _) => { disk := d, printed := c.explanation library }
  | .error _ => { disk := d, noted := library.noTopic a.rest }

/-- The mode of a file that is made for notes. -/
def debugFileMode : Nat := 0o644

/-- Answers a request, and puts the notes down if there is a file for them. -/
def runRequest (env : Environment) (described : Bool) (a : Arguments) : Report :=
  let answer := env.library.answer described a.rest
  let disk :=
    if env.debugFile.isEmpty then env.disk
    else answer.notes.foldl (fun d t => d.append env.debugFile debugFileMode t) env.disk
  { disk, printed := answer.out, noted := answer.err }

/-- Does what a command is for. -/
def work (c : Command) (env : Environment) (s : Setup) (a : Arguments) : Report :=
  match c with
  | .init => runInstall s a false env.disk
  | .update => runInstall s a true env.disk
  | .status => runStatus s a env.disk
  | .diff => runDiff s a env.disk
  | .config => { disk := env.disk, shown := [.print s.config.yaml], color := colorMode s.config }
  | .version => { disk := env.disk, printed := env.version.json ++ "\n" }
  | .help => runHelp env.library a env.disk
  | .script shell =>
    { disk := env.disk, printed := env.library.script shell (!a.switch "no-descriptions") }
  | .request described => runRequest env described a
  | .root | .completion => { disk := env.disk, printed := c.explanation env.library }

/-- Runs a command with its settings, noting which command it is in all diagnostics. -/
def start (c : Command) (env : Environment) (a : Arguments) : Report :=
  match setup c env.disk a with
  | .error f => { disk := env.disk, fault := some f }
  | .ok s =>
    let r := c.work env s a
    let loaded : Log.Record := .debug "configuration loaded" [("config", .text (a.text "config" []))]
    let signed := (loaded :: r.log).map fun l =>
      { l with fields := Log.Fields.putAll [("command", .text c.name)] l.fields }
    { r with settings := s.settings, log := signed }

/-- The arguments as a command reads them.  A request keeps them all: they are what was typed so far for
some other command. -/
def read (c : Command) (args : List Bytes) : Except FlagFault Arguments :=
  match c with
  | .request _ => .ok { rest := args }
  | _ => Flag.parse c.flags args

/-- What is wrong with the arguments that are no flags, if anything is. -/
def argumentFault? (c : Command) (words : List Bytes) : Option Fault :=
  match c, words with
  | .help, _ => none
  | .request _, [] => some .missing
  | .request _, _ :: _ => none
  | _, [] => none
  | _, arg :: _ => some (.unexpected c arg)

/-- The report on arguments. -/
def report (env : Environment) (args : List Bytes) : Report :=
  match find args with
  | .error u => { disk := env.disk, fault := some (.unknown u) }
  | .ok (c, rest) =>
    match c.read rest with
    | .error f => { disk := env.disk, fault := some (.flags f) }
    | .ok a =>
      if a.switch "help" || !c.runs then { disk := env.disk, printed := c.explanation env.library }
      else
        match c.argumentFault? a.rest with
        | some f => { disk := env.disk, fault := some f }
        | none => c.start env a

def run (env : Environment) (args : List Bytes) : Ending := (report env args).ending env

end Command

end AgentKit
