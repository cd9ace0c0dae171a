import AgentKit.Exclusion
import AgentKit.Tree
/-!
# Walking a tree

A walk visits what is below the root of a tree: a directory before what is in it, and the items of a
directory in the order of their names.  What is excluded is not visited, nor what is behind it.  A link
to a file is visited as a file; a link to a directory is passed over.  A walk ends at the first thing
that cannot be read, and where a visit fails.

What a visit does may change the disk, so the state that visits pass on knows the disk, and every
listing is made when the walk comes to it.
-/

namespace AgentKit

/-- What a walk comes to. -/
structure Visit where
  /-- The name inside the tree. -/
  name : Bytes
  /-- The name seen from where the walk started. -/
  rel : Bytes
  isDir : Bool
  deriving DecidableEq, Repr

/-- What visits do: how they change the state they pass on, and whether they fail. -/
structure Visitor (σ : Type) where
  disk : σ → Disk
  visit : Visit → σ → σ × Option Failure

namespace Walk

variable {σ : Type}

/-- Goes on with `next` unless there was a failure. -/
def andThen (done : σ × Option Failure) (next : σ → σ × Option Failure) : σ × Option Failure :=
  match done with
  | (s, none) => next s
  | (s, some f) => (s, some f)

/-- A thing that could not be read. -/
def unreadable (name : Bytes) (cause : Failure) : Failure := .during ("failed to read " ++ name) cause

/-- Where a walk is made. -/
structure Scope where
  tree : Tree
  root : Bytes
  exclude : List Bytes := []

/-- Comes to one item; `enter` walks what is in a directory. -/
def item (w : Scope) (v : Visitor σ) (enter : Bytes → σ → σ × Option Failure) (name : Bytes)
    (kind : Kind) (s : σ) : σ × Option Failure :=
  let rel := Path.relativeTo w.root name
  if Exclusion.excludes w.exclude rel then (s, none)
  else
    match kind with
    | .file => v.visit ⟨name, rel, false⟩ s
    | .dir => andThen (v.visit ⟨name, rel, true⟩ s) (enter name)
    | .link =>
      match w.tree.stat (v.disk s) name with
      | .error cause => (s, some (unreadable name cause))
      | .ok info => if info.isDir then (s, none) else v.visit ⟨name, rel, false⟩ s

/-- Comes to the items of a directory one after the other. -/
def items (w : Scope) (v : Visitor σ) (enter : Bytes → σ → σ × Option Failure) (dir : Bytes) :
    List Listed → σ → σ × Option Failure
  | [], s => (s, none)
  | l :: rest, s =>
    andThen (item w v enter (Path.child dir l.name) l.kind s) (items w v enter dir rest)

/-- Walks what is in a directory, down to a given depth. -/
def directory (w : Scope) (v : Visitor σ) : Nat → Bytes → σ → σ × Option Failure
  | 0, _, s => (s, none)
  | depth + 1, dir, s =>
    match w.tree.list (v.disk s) dir with
    | .error cause => (s, some (unreadable dir cause))
    | .ok listed => items w v (directory w v depth) dir listed s

/-- Walks a tree.  A root that is a file has nothing below it. -/
def run (w : Scope) (v : Visitor σ) (s : σ) : σ × Option Failure :=
  match w.tree.stat (v.disk s) w.root with
  | .error cause => (s, some (unreadable w.root cause))
  | .ok info => if info.isDir then directory w v w.tree.depth w.root s else (s, none)

/-- A visitor that only looks: the disk stays as it is and no visit fails. -/
def observer (d : Disk) (see : Visit → σ → σ) : Visitor σ :=
  { disk := fun _ => d, visit := fun x s => (see x s, none) }

/-- What a walk visits, in order, and the failure it ends with. -/
def visits (w : Scope) (d : Disk) : List Visit × Option Failure :=
  run w (observer d fun x seen => seen ++ [x]) []

/-- Refuses patterns that cannot be read. -/
def checkPatterns (patterns : List Bytes) : Except Failure Unit :=
  match Exclusion.firstMalformed? patterns with
  | some p => .error (.other (Exclusion.refusal p))
  | none => .ok ()

end Walk

end AgentKit
