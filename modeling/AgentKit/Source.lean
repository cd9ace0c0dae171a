import AgentKit.Kit
/-!
# Sources

Where a kit is installed from: the bundled kit, or a directory that takes its place.
-/

namespace AgentKit

/-- A kit to install: the part of a tree below `root`. -/
structure Source where
  tree : Option Tree
  root : Bytes := "."
  /-- How messages call the source. -/
  label : Bytes

namespace Source

/-- The kit that comes with the program. -/
def bundled : Source := { tree := some Kit.tree, root := Kit.marker, label := "bundled kit" }

/-- The kit in a directory. -/
def directory (d : Disk) (dir : Bytes) : Source :=
  let dir := d.absoluteOr dir
  { tree := some (.onDisk dir), label := dir }

/-- The cause when there is a file in the place of a directory. -/
def notDirectory : Failure := .other "not a directory"

/-- The tree of a source whose root is a directory. -/
def check (s : Source) (d : Disk) : Except Failure Tree :=
  match s.tree with
  | none => .error (.sourceNotFound s.label none)
  | some t =>
    match t.stat d s.root with
    | .error f =>
      .error (.sourceNotFound s.label (some (if f.isNotDirectory then notDirectory else f)))
    | .ok info =>
      if info.isDir then .ok t else .error (.sourceNotFound s.label (some notDirectory))

end Source

end AgentKit
