import AgentKit.Tree.Walk
/-!
# Counting files

How many files a walk visits, in all and by the top-level directory they are in.
-/

namespace AgentKit

/-- The number of files below one top-level directory; those beside the directories have the name
`.`. -/
structure SubdirCount where
  name : Bytes
  files : Int64
  deriving DecidableEq, Repr

namespace Count

/-- Counts a visit. -/
def see (x : Visit) (n : Nat) : Nat := if x.isDir then n else n + 1

/-- The number of files, also of those before a failure. -/
def files (w : Walk.Scope) (d : Disk) : Nat × Option Failure :=
  match Walk.checkPatterns w.exclude with
  | .error f => (0, some f)
  | .ok _ => Walk.run w (Walk.observer d see) 0

/-- The name for the files beside the top-level directories. -/
def besides : Bytes := "."

/-- Adds `n` files to a directory's count. -/
def add (name : Bytes) (n : Int64) : List SubdirCount → List SubdirCount
  | [] => [⟨name, n⟩]
  | c :: rest => if c.name = name then ⟨c.name, c.files + n⟩ :: rest else c :: add name n rest

/-- Counts a visit for its top-level directory.  A directory counts from when it is visited. -/
def seeBySubdir (x : Visit) (counts : List SubdirCount) : List SubdirCount :=
  match Bytes.cut (byte '/') x.rel, x.isDir with
  | some _, true => counts
  | none, true => add x.rel 0 counts
  | some (top, _), false => add top 1 counts
  | none, false => add besides 1 counts

/-- Counts in the order of their names. -/
def sorted (counts : List SubdirCount) : List SubdirCount :=
  sortBy (fun a b => Bytes.le a.name b.name) counts

/-- The number of files by top-level directory. -/
def bySubdir (w : Walk.Scope) (d : Disk) : Except Failure (List SubdirCount) := do
  Walk.checkPatterns w.exclude
  match Walk.run w (Walk.observer d seeBySubdir) [] with
  | (_, some f) => throw f
  | (counts, none) => return sorted counts

/-- The sum of counts, in 64 bits as the counts are. -/
def total (counts : List SubdirCount) : Int64 := (counts.map (·.files)).sum

end Count

end AgentKit
