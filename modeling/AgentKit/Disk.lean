import AgentKit.Failure
import AgentKit.Path
/-!
# The disk

What is on disk, as far as the program can tell: files and directories with their permission bits, and
symbolic links.  A place is the list of names that leads to it from the root, without links, so that
two places are the same exactly when they are equal.  The root is always there.

A disk here is simpler than a real one, and what is proved about disks is proved about disks without
the following.

* **Hard links.**  A file stands at one place, and what is written there shows nowhere else.  On a real
  disk a file in a project may share its content with one outside of it.
* **A umask.**  What is made has the mode that was asked for, with no bits taken off.
* **Other users, and the superuser.**  Everything belongs to whoever runs the program: the owner's bits
  are the only ones that are asked, and they bind it.  The superuser would be let in everywhere.
* **Writes that fail.**  There is always room, and a file that has been opened for writing takes
  whatever is written to it.  What can fail is to find, to open, to make and to remove.
* **Anyone else.**  Nothing changes the disk but the program.
* Devices, pipes and sockets, times, owners, and the mode bits above the permissions.
-/

namespace AgentKit

/-- The names that lead from the root to a place. -/
abbrev Place := List Bytes

/-- What can be at a place. -/
inductive Entry where
  | file (mode : Nat) (content : Bytes)
  | dir (mode : Nat)
  | link (target : Bytes)
  deriving DecidableEq, Repr

/-- The kind of an entry, as a listing tells it. -/
inductive Kind where
  | file
  | dir
  | link
  deriving DecidableEq, Repr

def Entry.kind : Entry → Kind
  | .file .. => .file
  | .dir _ => .dir
  | .link _ => .link

/-- What is on disk, and the place relative paths start from. -/
structure Disk where
  entries : List (Place × Entry) := []
  here : Place := []
  deriving DecidableEq, Repr

/-- The path of a place. -/
def Place.text (p : Place) : Bytes := byte '/' :: Path.join p

/-! ## 1. Permissions -/

/-- The owner may read. -/
def readable (mode : Nat) : Bool := mode / 0o400 % 2 = 1

def writable (mode : Nat) : Bool := mode / 0o200 % 2 = 1

/-- The owner may run a file, or look things up in a directory. -/
def searchable (mode : Nat) : Bool := mode / 0o100 % 2 = 1

/-- Someone may run the file. -/
def executable (mode : Nat) : Bool := mode / 0o100 % 2 = 1 || mode / 0o10 % 2 = 1 || mode % 2 = 1

namespace Disk

/-! ## 2. Entries -/

def rootMode : Nat := 0o755

/-- What is at a place. -/
def get? (d : Disk) (p : Place) : Option Entry :=
  if p = [] then some (.dir rootMode) else d.entries.lookup p

/-- Entries with `e` at `p`. -/
def putIn (p : Place) (e : Entry) : List (Place × Entry) → List (Place × Entry)
  | [] => [(p, e)]
  | (q, f) :: t => if q = p then (q, e) :: t else (q, f) :: putIn p e t

/-- The disk with `e` at `p`. -/
def put (d : Disk) (p : Place) (e : Entry) : Disk := { d with entries := putIn p e d.entries }

/-- The disk with nothing at `p`. -/
def erase (d : Disk) (p : Place) : Disk := { d with entries := d.entries.filter (·.1 ≠ p) }

/-- The name of `q` inside `p`, if it is directly there. -/
def childName? (p q : Place) : Option Bytes :=
  match q.getLast? with
  | some n => if q.dropLast = p then some n else none
  | none => none

/-- The names directly inside a place, in ascending order. -/
def children (d : Disk) (p : Place) : List Bytes :=
  Bytes.sort ((d.entries.filterMap fun e => childName? p e.1).eraseDups)

/-! ## 3. Following paths -/

/-- The names of a path, a slash at the end counting as a dot. -/
def hops (t : Bytes) : List Bytes :=
  if Path.hasTrailingSlash t then Path.names t ++ [("." : Bytes)] else Path.names t

/-- Follows names from a directory.  Each step needs permission to look things up.  The last name
need not exist.  A link on the way is handed to `onLink` together with the names behind it, and so is
a link at the end if `follow` holds. -/
def followNames (d : Disk) (follow : Bool) (onLink : Place → List Bytes → Except Errno Place) :
    Place → List Bytes → Except Errno Place
  | p, [] => .ok p
  | p, name :: rest =>
    match d.get? p with
    | some (.dir mode) =>
      if !searchable mode then .error .denied
      else if name = "." then followNames d follow onLink p rest
      else if name = ".." then followNames d follow onLink p.dropLast rest
      else if name.length > 255 then .error .nameTooLong
      else
        match d.get? (p ++ [name]), rest with
        | none, [] => .ok (p ++ [name])
        | none, _ => .error .notFound
        | some (.link target), _ =>
          if rest.isEmpty && !follow then .ok (p ++ [name])
          else onLink (if Path.isAbsolute target then [] else p) (hops target ++ rest)
        | some (.file ..), [] => .ok (p ++ [name])
        | some (.file ..), _ => .error .notDirectory
        | some (.dir _), _ => followNames d follow onLink (p ++ [name]) rest
    | some _ => .error .notDirectory
    | none => .error .notFound

/-- Follows names over at most `links` links. -/
def followWithin (d : Disk) (follow : Bool) : Nat → Place → List Bytes → Except Errno Place
  | 0 => followNames d follow fun _ _ => .error .linkLoop
  | links + 1 => followNames d follow (followWithin d follow links)

/-- The most links that one path may lead over. -/
def maxLinks : Nat := 40

/-- The length from which on a path is too long. -/
def pathLimit : Nat := 4096

/-- The place that a path leads to; nothing need be there.  Of a slash at the end only the names
count here. -/
def locate (d : Disk) (follow : Bool) (path : Bytes) : Except Errno Place :=
  if path.contains 0 then .error .invalid
  else if path.isEmpty then .error .notFound
  else if path.length ≥ pathLimit then .error .nameTooLong
  else
    followWithin d (follow || Path.hasTrailingSlash path) maxLinks
      (if Path.isAbsolute path then [] else d.here) (Path.names path)

/-- The place that a path leads to and what is there. -/
def find (d : Disk) (follow : Bool) (path : Bytes) : Except Errno (Place × Entry) := do
  let p ← d.locate follow path
  match d.get? p with
  | none => throw .notFound
  | some e =>
    if Path.hasTrailingSlash path && e.kind ≠ .dir then throw .notDirectory
    return (p, e)

end Disk

end AgentKit
