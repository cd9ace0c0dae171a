import AgentKit.Command.Run
import Std.Time.DateTime.Timestamp
/-!
# The program

Reads the part of the disk that a run can ask about, runs the command, prints, and makes on disk the
changes that the run made.  Permission bits cannot be asked for here, so what can be read counts as
writable, and scripts of a kit on disk count as plain files.  The commands for shells have no words here.
-/

namespace AgentKit.Program

/-! ## 1. Text -/

/-- The text for the system, which knows UTF-8 only. -/
def systemText (t : Bytes) : String := String.ofList (Utf8.chars t)

/-- Writes bytes to a stream. -/
def writeBytes (s : IO.FS.Stream) (t : Bytes) : IO Unit := do
  s.write ⟨t.toArray⟩
  s.flush

/-- The current time, for diagnostics. -/
def timeText : IO Bytes := do
  let now ← Std.Time.Timestamp.now
  return (Timestamp.ofNanoseconds now.toNanosecondsSinceUnixEpoch.val.toNat).stamp

/-! ## 2. Reading the disk -/

/-- Adds the directories on the way to a place, as far as they exist. -/
def loadParents (d : Disk) (p : Place) : IO Disk :=
  (List.range p.length).foldlM (fun d i => do
    let parent : Place := p.take i
    if (d.get? parent).isSome then return d
    else if ← ((← IO.currentDir) / systemText parent.text).isDir then return d.put parent (.dir 0o755)
    else return d) d

/-- The answer of an action, if it does not fail. -/
def attempt {α : Type} (act : IO α) : IO (Option α) :=
  tryCatch (some <$> act) fun _ => pure none

/-- Adds what is at a place and, down to `depth`, what is below it.  What cannot be read is there but
unreadable. -/
def load (d : Disk) (p : Place) : Nat → IO Disk
  | 0 => return d
  | depth + 1 => do
    let path := (← IO.currentDir) / systemText p.text
    match ← attempt path.symlinkMetadata with
    | none => return d
    | some there =>
      match there.type with
      | .dir =>
        match ← attempt path.readDir with
        | none => return d.put p (.dir 0o300)
        | some items =>
          items.foldlM (fun d e => load d (p ++ [Bytes.ofString e.fileName]) depth)
            (d.put p (.dir 0o755))
      | .symlink =>
        match ← attempt (IO.FS.realPath path) with
        | none => return d.put p (.link "missing")
        | some target => if ← target.isDir then return d.put p (.link "/") else readInto d p
      | _ => readInto d p
where
  /-- Adds the file at a place. -/
  readInto (d : Disk) (p : Place) : IO Disk := do
    let path := (← IO.currentDir) / systemText p.text
    match ← attempt (IO.FS.readBinFile path) with
    | some c => return d.put p (.file 0o644 c.toList)
    | none => return d.put p (.file 0o200 [])

/-- The place that a path names, links aside. -/
def placeOf (here : Place) (path : Bytes) : Place :=
  Path.names (if Path.isAbsolute path then Path.clean path else Path.below here.text path)

/-- Adds what is at a path, down to `depth`. -/
def loadPath (d : Disk) (path : Bytes) (depth : Nat) : IO Disk := do
  let p := placeOf d.here path
  load (← loadParents d p) p depth

/-- The part of the disk that a command can ask about: the file for notes, the project and the kit in it, the
settings file and the source that it or a flag names. -/
def gather (here : Place) (debugFile : Bytes) (args : List Bytes) : IO Disk := do
  let start := (← loadParents { here } here).put here (.dir 0o755)
  let start ← if debugFile.isEmpty then pure start else loadPath start debugFile 1
  match Command.find args with
  | .error _ => return start
  | .ok (c, rest) =>
    match c.read rest with
    | .error _ => return start
    | .ok a =>
      let project := a.text "path" "."
      let d ← loadPath start project 1
      let d ← loadPath d (Project.kitPath project) Disk.pathLimit
      let d ← loadPath d (a.text "config" []) 1
      match Command.strictSetup d a with
      | .error _ => return d
      | .ok s =>
        if s.config.source.isEmpty then return d
        else loadPath d s.config.source Disk.pathLimit

/-! ## 3. Changing the disk -/

/-- The rights that a mode gives. -/
def rights (mode : Nat) : IO.FileRight :=
  let three (m : Nat) : IO.AccessRight :=
    { read := m / 4 % 2 = 1, write := m / 2 % 2 = 1, execution := m % 2 = 1 }
  { user := three (mode / 64), group := three (mode / 8), other := three mode }

/-- Makes an entry that a run made. -/
def make (p : Place) (before : Option Entry) : Entry → IO Unit
  | .dir _ => do IO.FS.createDirAll ((← IO.currentDir) / systemText p.text)
  | .file mode content => do
    let path := (← IO.currentDir) / systemText p.text
    IO.FS.writeBinFile path ⟨content.toArray⟩
    if before.isNone then IO.setAccessRights path (rights mode)
  | .link _ => pure ()

/-- Makes all changes between two disks. -/
def apply (before after : Disk) : IO Unit :=
  after.entries.forM fun (p, e) =>
    if before.get? p = some e then pure () else make p (before.get? p) e

/-! ## 4. Running -/

/-- Runs the program on arguments and gives its exit code. -/
def run (args : List Bytes) : IO UInt32 := do
  let here := Path.names (Bytes.ofString (← IO.currentDir).toString)
  let debugFile := Bytes.ofString ((← IO.getEnv "BASH_COMP_DEBUG_FILE").getD "")
  let disk ← gather here debugFile args
  let noColor := ((← IO.getEnv "NO_COLOR").getD "") ≠ ""
  let env : Environment :=
    { disk, noColor, time := ← timeText, version := { toolchain := "unknown" }, debugFile }
  let e := Command.run env args
  apply disk e.disk
  writeBytes (← IO.getStderr) e.output.err
  writeBytes (← IO.getStdout) e.output.out
  return e.exit.toUInt32

end AgentKit.Program

/-- Runs the program on the arguments of the command line. -/
def main (args : List String) : IO UInt32 :=
  AgentKit.Program.run (args.map AgentKit.Bytes.ofString)
