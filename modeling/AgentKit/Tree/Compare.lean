import AgentKit.Log
import AgentKit.Patch.Unified
import AgentKit.Tree.Walk
/-!
# Comparing a tree with a directory

Holds each file that a walk visits against the file of the same name in a directory on disk, and looks
for files that only the directory has.  A file that cannot be read on either side is a failure of its
own; it does not end the comparison.
-/

namespace AgentKit

/-- A file with different content. -/
structure Modified where
  path : Bytes
  /-- The change from the installed to the kit content, if it was asked for. -/
  patch : Bytes := []
  deriving DecidableEq, Repr

/-- How a directory differs from a tree. -/
structure Drift where
  missing : List Bytes := []
  modified : List Modified := []
  extra : List Bytes := []
  unchanged : Nat := 0
  deriving DecidableEq, Repr

def Drift.clean (d : Drift) : Bool := d.missing.isEmpty && d.modified.isEmpty && d.extra.isEmpty

namespace Compare

/-- What a comparison has come to. -/
structure State where
  drift : Drift := {}
  seen : List Bytes := []
  failures : List Failure := []

/-- How one file compares. -/
inductive Finding where
  | missing
  | unchanged
  | modified (installed kit : Bytes)
  | failed (f : Failure)

/-- Holds the file `x` of the tree against its counterpart in `dest`. -/
def finding (t : Tree) (d : Disk) (dest : Bytes) (x : Visit) : Finding :=
  match t.read d x.name with
  | .error f => .failed (.during ("failed to read source " ++ x.rel) f)
  | .ok kit =>
    match d.read (Path.below dest x.rel) with
    | .error f =>
      if f.isAbsence then .missing else .failed (.during ("failed to read installed " ++ x.rel) f)
    | .ok installed => if kit = installed then .unchanged else .modified installed kit

/-- The change to a file. -/
def patchOf (rel installed kit : Bytes) : Bytes :=
  Patch.unified ("installed/" ++ rel) ("kit/" ++ rel) installed kit

/-- Enters a finding. -/
def enter (rel : Bytes) (patch : Bool) (s : State) : Finding → State
  | .missing => { s with drift.missing := s.drift.missing ++ [rel] }
  | .unchanged => { s with drift.unchanged := s.drift.unchanged + 1 }
  | .modified installed kit =>
    let change := if patch then patchOf rel installed kit else []
    { s with drift.modified := s.drift.modified ++ [⟨rel, change⟩] }
  | .failed f => { s with failures := s.failures ++ [f] }

/-- Enters what a walk through the tree visits. -/
def see (t : Tree) (d : Disk) (dest : Bytes) (patch : Bool) (x : Visit) (s : State) : State :=
  if x.isDir then s
  else enter x.rel patch { s with seen := s.seen ++ [x.rel] } (finding t d dest x)

/-- Enters what a walk through the directory visits. -/
def seeInstalled (x : Visit) (s : State) : State :=
  if x.isDir || s.seen.contains x.rel then s
  else { s with drift.extra := s.drift.extra ++ [x.rel] }

/-- Looks for files that only the directory has. -/
def lookForExtra (exclude : List Bytes) (dest : Bytes) (d : Disk) (s : State) : State :=
  if !d.isDirectory dest then s
  else
    match Walk.run ⟨.onDisk dest, ".", exclude⟩ (Walk.observer d seeInstalled) s with
    | (s, none) => s
    | (s, some f) => { s with failures := s.failures ++ [f] }

/-- The drift with its parts in ascending order. -/
def inOrder (d : Drift) : Drift :=
  { d with
    missing := Bytes.sort d.missing
    modified := sortBy (fun a b => Bytes.le a.path b.path) d.modified
    extra := Bytes.sort d.extra }

/-- The note on a comparison. -/
def note (dest : Bytes) (d : Drift) : Log.Record :=
  .debug "compared trees" [("destination", .text dest), ("missing", .int d.missing.length),
    ("modified", .int d.modified.length), ("extra", .int d.extra.length)]

/-- What a comparison gives.  With failures there may still be a drift. -/
structure Outcome where
  drift : Option Drift := none
  failure : Option Failure := none
  log : List Log.Record := []

/-- Compares what a walk visits with the directory `dest`. -/
def run (w : Walk.Scope) (dest : Bytes) (patch : Bool) (d : Disk) : Outcome :=
  match Walk.checkPatterns w.exclude with
  | .error f => { failure := some f }
  | .ok _ =>
    match Walk.run w (Walk.observer d (see w.tree d dest patch)) {} with
    | (_, some f) => { failure := some f }
    | (s, none) =>
      let s := lookForExtra w.exclude dest d s
      let drift := inOrder s.drift
      { drift := some drift
        failure := if s.failures.isEmpty then none else some (.several s.failures)
        log := [note dest drift] }

end Compare

end AgentKit
