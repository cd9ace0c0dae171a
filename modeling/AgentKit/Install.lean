import AgentKit.Display
import AgentKit.Source
import AgentKit.Tree.Compare
import AgentKit.Tree.Copy
import AgentKit.Tree.Count
/-!
# Installing, comparing, looking

Puts a kit into a project, holds an installed kit against its source, and tells what is installed.  The
project has to exist; the kit is the directory `.agent` in it.  A project that has one already is left
alone unless the install is forced.
-/

namespace AgentKit

/-! ## 1. Projects -/

namespace Project

/-- The path of the kit in the project at `root`. -/
def kitPath (root : Bytes) : Bytes := Path.below root Kit.marker

/-- The absolute path of a project, which has to be a directory. -/
def resolve (d : Disk) (dir : Bytes) : Except Failure Bytes :=
  match d.absolute dir with
  | .error f => .error (.targetNotFound dir (some f))
  | .ok root =>
    match d.stat root with
    | .error f => .error (.targetNotFound root (some f))
    | .ok info =>
      if info.isDir then .ok root else .error (.targetNotFound root (some Source.notDirectory))

end Project

/-! ## 2. Installing -/

/-- What an install came to. -/
inductive Action where
  | installed
  | updated
  | skipped
  | dryRun
  deriving DecidableEq, Repr

def Action.name : Action → Bytes
  | .installed => "installed"
  | .updated => "updated"
  | .skipped => "skipped"
  | .dryRun => "dry-run"

/-- What to install, and how. -/
structure Install where
  source : Source
  force : Bool := false
  dryRun : Bool := false
  exclude : List Bytes := []

namespace Install

/-- A finished install. -/
structure Result where
  action : Action
  /-- The number of files that were, or would be, copied. -/
  files : Nat := 0
  /-- The path of the kit in the project. -/
  destination : Bytes
  deriving DecidableEq, Repr

/-- What an install leaves behind. -/
structure Outcome where
  disk : Disk
  result : Except Failure Result
  shown : List Message := []
  log : List Log.Record := []

/-- What the user is told about an install. -/
def Result.message (r : Result) : Message :=
  match r.action with
  | .dryRun => .info ("Dry run: would copy " ++ Bytes.ofNat r.files ++ " files to " ++ r.destination)
  | .updated => .success ("Updated " ++ Bytes.ofNat r.files ++ " files in " ++ r.destination)
  | _ => .success ("Installed " ++ Bytes.ofNat r.files ++ " files to " ++ r.destination)

/-- What the user is told about a kit that is already there. -/
def alreadyThere (root : Bytes) : Message :=
  .warning (Kit.marker ++ " already exists in " ++ root ++
    ", nothing to do (use --force to overwrite)")

/-- The fields of all notes on an install. -/
def fields (i : Install) (dest : Bytes) : Log.Fields :=
  [("destination", .text dest), ("source", .text i.source.label)]

/-- What an install is, if it succeeds. -/
def action (i : Install) (present : Bool) : Action :=
  if i.dryRun then .dryRun else if present then .updated else .installed

/-- Copies the kit into the project at `root`; `present` tells whether one is there. -/
def copy (i : Install) (t : Tree) (root : Bytes) (present : Bool) (d : Disk) : Outcome :=
  let dest := Project.kitPath root
  match Copy.run ⟨t, i.source.root, i.exclude⟩ dest i.dryRun d with
  | (s, some f) =>
    { disk := s.disk
      result := .error (.during ("failed to install " ++ i.source.label ++ " into " ++ root) f)
      log := s.log }
  | (s, none) =>
    let r : Result := { action := i.action present, files := s.count, destination := dest }
    let more : Log.Fields := [("files", .int r.files), ("action", .text r.action.name)]
    let finished : Log.Record := .debug "install finished" (i.fields dest ++ more)
    { disk := s.disk, result := .ok r, shown := [r.message], log := s.log ++ [finished] }

/-- Installs the kit into a project. -/
def run (i : Install) (project : Bytes) (d : Disk) : Outcome :=
  match i.source.check d with
  | .error f => { disk := d, result := .error f }
  | .ok t =>
    match Project.resolve d project with
    | .error f => { disk := d, result := .error f }
    | .ok root =>
      let dest := Project.kitPath root
      let present := d.isDirectory dest
      if present && !i.force then
        { disk := d
          result := .ok { action := .skipped, destination := dest }
          shown := [alreadyThere root]
          log := [.debug "kit already installed, skipping" (i.fields dest)] }
      else i.copy t root present d

/-! ## 3. Comparing -/

/-- Compares the kit in a project with the source.  Where there is none all files are missing. -/
def diff (source : Source) (exclude : List Bytes) (project : Bytes) (patch : Bool) (d : Disk) :
    Compare.Outcome :=
  match source.check d with
  | .error f => { failure := some f }
  | .ok t =>
    match Project.resolve d project with
    | .error f => { failure := some f }
    | .ok root => Compare.run ⟨t, source.root, exclude⟩ (Project.kitPath root) patch d

end Install

/-! ## 4. Looking -/

/-- What is known of the kit in a project. -/
structure Status where
  installed : Bool := false
  path : Bytes
  subdirs : List SubdirCount := []
  total : Int64 := 0
  /-- Why the files could not be counted. -/
  failure : Option Failure := none
  log : List Log.Record := []

/-- Looks at the kit in a project.  Problems are part of the answer. -/
def Status.look (project : Bytes) (exclude : List Bytes) (d : Disk) : Status :=
  let path := Project.kitPath (d.absoluteOr project)
  if !d.isDirectory path then { path }
  else
    match Count.bySubdir ⟨.onDisk path, ".", exclude⟩ d with
    | .error f =>
      let note : Log.Record := .debug "failed to count installed kit"
        [("error", .text f.message), ("path", .text path)]
      { installed := true, path, failure := some f, log := [note] }
    | .ok counts => { installed := true, path, subdirs := counts, total := Count.total counts }

end AgentKit
