import AgentKit.Log
import AgentKit.Tree.Walk
/-!
# Copying a tree

Copies what a walk visits into a directory on disk, or, on a dry run, only tells what it would copy.
Directories are made as they are visited.  A file that is there is overwritten and keeps its mode; a file
that may not be written is replaced.  What was copied before a failure stays.
-/

namespace AgentKit.Copy

/-- The mode of new directories. -/
def directoryMode : Nat := 0o755

/-- The mode of a new file: whoever may run the one it is copied from may run it. -/
def fileMode (source : Info) : Nat := if executable source.mode then 0o755 else 0o644

/-- Opens the file to write to.  If it may not be written it is removed and made anew. -/
def openTarget (d : Disk) (path : Bytes) (mode : Nat) : Disk × Except Failure Disk.Writing :=
  match d.openForWriting path mode with
  | .ok (d, w) => (d, .ok w)
  | .error e =>
    let refused := Disk.failed "open" path e
    if e = .denied then
      match d.remove path with
      | .error _ => (d, refused)
      | .ok d =>
        match d.openForWriting path mode with
        | .ok (d, w) => (d, .ok w)
        | .error e => (d, Disk.failed "open" path e)
    else (d, refused)

/-- The bytes that are written from an open file.  Opening a file for writing empties it, and if it is
the file that is read, nothing is left to read. -/
def delivered (r : Reading) (w : Disk.Writing) : Bytes :=
  if !w.fresh && r.place = some w.place then [] else r.content

/-- Copies one file. -/
def file (t : Tree) (d : Disk) (name target : Bytes) : Disk × Option Failure :=
  match t.openFile d name with
  | .error f => (d, some f)
  | .ok r =>
    match r.info with
    | .error f => (d, some f)
    | .ok info =>
      match openTarget d target (fileMode info) with
      | (d, .error f) => (d, some f)
      | (d, .ok w) => (d.fill w (delivered r w), r.failure)

/-- What a copy has come to. -/
structure State where
  disk : Disk
  count : Nat := 0
  log : List Log.Record := []

/-- The note on a file. -/
def note (message dest rel : Bytes) : Log.Record :=
  .debug message [("destination", .text dest), ("file", .text rel)]

/-- Copies what is visited into `dest`. -/
def visit (t : Tree) (dest : Bytes) (dryRun : Bool) (x : Visit) (s : State) :
    State × Option Failure :=
  let target := Path.below dest x.rel
  if x.isDir then
    if dryRun then (s, none)
    else
      match s.disk.makeDirectories target directoryMode with
      | (d, failure) =>
        ({ s with disk := d }, failure.map (.during ("failed to create directory " ++ target)))
  else if dryRun then
    ({ s with count := s.count + 1, log := s.log ++ [note "would copy file" dest x.rel] }, none)
  else
    match file t s.disk x.name target with
    | (d, some f) =>
      ({ s with disk := d, count := s.count + 1 }, some (.during ("failed to copy " ++ x.rel) f))
    | (d, none) =>
      ({ disk := d, count := s.count + 1, log := s.log ++ [note "copied file" dest x.rel] }, none)

/-- Copies what a walk visits into `dest`.  The answer counts the files, also with a failure. -/
def run (w : Walk.Scope) (dest : Bytes) (dryRun : Bool) (d : Disk) : State × Option Failure :=
  match Walk.checkPatterns w.exclude with
  | .error f => ({ disk := d }, some f)
  | .ok _ =>
    let start := if dryRun then (d, none) else d.makeDirectories dest directoryMode
    match start with
    | (d, some f) => ({ disk := d }, some (.during ("failed to create " ++ dest) f))
    | (d, none) => Walk.run w { disk := State.disk, visit := visit w.tree dest dryRun } { disk := d }

end AgentKit.Copy
