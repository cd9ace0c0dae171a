import AgentKit.Disk
/-!
# Operations on the disk

What the operating system offers, with the permissions it asks for and the reasons it gives.  An
operation that fails leaves the disk as it is.
-/

namespace AgentKit

/-- What is known of a file or directory without reading it. -/
structure Info where
  isDir : Bool
  mode : Nat
  deriving DecidableEq, Repr

/-- What is known of an entry that is no link. -/
def Entry.info : Entry → Info
  | .file mode _ => ⟨false, mode⟩
  | .dir mode => ⟨true, mode⟩
  | .link _ => ⟨false, 0o777⟩

namespace Disk

def failed {α : Type} (operation path : Bytes) (e : Errno) : Except Failure α :=
  .error (.onPath operation path (.errno e))

/-- Gives a reason its operation and path. -/
def explain {α : Type} (operation path : Bytes) : Except Errno α → Except Failure α
  | .ok a => .ok a
  | .error e => failed operation path e

/-! ## 1. Looking -/

/-- What a path leads to. -/
def statusOf (d : Disk) (path : Bytes) : Except Errno Info := do
  let (_, e) ← d.find true path
  return e.info

def stat (d : Disk) (path : Bytes) : Except Failure Info := explain "stat" path (d.statusOf path)

/-- The absolute path for a path, which for a relative one takes a look at where it starts. -/
def absolute (d : Disk) (path : Bytes) : Except Failure Bytes := do
  if Path.isAbsolute path then return Path.clean path
  let _ ← d.stat "."
  return Path.below d.here.text path

/-- The absolute path for a path, or the path itself if there is none. -/
def absoluteOr (d : Disk) (path : Bytes) : Bytes :=
  match d.absolute path with
  | .ok full => full
  | .error _ => path

def isDirectory (d : Disk) (path : Bytes) : Bool :=
  match d.statusOf path with
  | .ok i => i.isDir
  | .error _ => false

/-- Opens a file or directory for reading. -/
def openedAt (d : Disk) (path : Bytes) : Except Errno (Place × Entry) := do
  let (p, e) ← d.find true path
  if !readable e.info.mode then throw .denied
  return (p, e)

/-- The names and kinds of what is in the directory at a place. -/
def listing (d : Disk) (p : Place) : List (Bytes × Kind) :=
  (d.children p).filterMap fun n => (d.get? (p ++ [n])).map fun e => (n, e.kind)

/-- The content of a file. -/
def read (d : Disk) (path : Bytes) : Except Failure Bytes := do
  let (_, e) ← explain "open" path (d.openedAt path)
  match e with
  | .file _ content => return content
  | _ => failed "read" path .isDirectory

/-! ## 2. Changing -/

/-- The directory at a place lets entries be made and removed. -/
def allowsChange (d : Disk) (p : Place) : Bool :=
  match d.get? p with
  | some (.dir mode) => writable mode && searchable mode
  | _ => false

/-- A file open for writing, empty. -/
structure Writing where
  place : Place
  /-- The file has just been made. -/
  fresh : Bool

/-- Opens a file for writing and empties it.  A file that is not there is made with mode `mode`. -/
def openForWriting (d : Disk) (path : Bytes) (mode : Nat) : Except Errno (Disk × Writing) := do
  let p ← d.locate true path
  if Path.hasTrailingSlash path then throw .isDirectory
  match d.get? p with
  | some (.dir _) => throw .isDirectory
  | some (.file m _) =>
    if !writable m then throw .denied
    return (d.put p (.file m []), ⟨p, false⟩)
  | some (.link _) => throw .linkLoop
  | none =>
    if !d.allowsChange p.dropLast then throw .denied
    return (d.put p (.file mode []), ⟨p, true⟩)

/-- Fills a file that was opened for writing. -/
def fill (d : Disk) (w : Writing) (content : Bytes) : Disk :=
  match d.get? w.place with
  | some (.file m _) => d.put w.place (.file m content)
  | _ => d

/-- Adds to the end of a file, which is made with mode `mode` if it is not there.  Nothing is said of a file
that cannot be opened. -/
def append (d : Disk) (path : Bytes) (mode : Nat) (t : Bytes) : Disk :=
  match d.openForWriting path mode with
  | .error _ => d
  | .ok (opened, w) =>
    match d.get? w.place with
    | some (.file _ content) => opened.fill w (content ++ t)
    | _ => opened.fill w t

/-- Makes the directory `name` in `parent`. -/
def makeDirectoryIn (d : Disk) (parent : Place) (name : Bytes) (mode : Nat) : Except Errno Disk :=
  match d.get? parent with
  | some (.dir m) =>
    if !searchable m then .error .denied
    else if name = "." ∨ name = ".." then .error .fileExists
    else if name.length > 255 then .error .nameTooLong
    else if (d.get? (parent ++ [name])).isSome then .error .fileExists
    else if !d.allowsChange parent then .error .denied
    else .ok (d.put (parent ++ [name]) (.dir mode))
  | some _ => .error .notDirectory
  | none => .error .notFound

def makeDirectory (d : Disk) (path : Bytes) (mode : Nat) : Except Errno Disk :=
  let names := Path.names path
  if path.contains 0 then .error .invalid
  else if path.isEmpty then .error .notFound
  else if path.length ≥ pathLimit then .error .nameTooLong
  else
    -- The path up to its last name, which is looked up without following it.
    let start := if Path.isAbsolute path then [] else d.here
    match followWithin d true maxLinks start names.dropLast, names.getLast? with
    | .error e, _ => .error e
    | .ok _, none => .error .fileExists
    | .ok parent, some name => d.makeDirectoryIn parent name mode

/-- Removes a file, a link or an empty directory. -/
def remove (d : Disk) (path : Bytes) : Except Errno Disk := do
  let (p, e) ← d.find false path
  if !d.allowsChange p.dropLast then throw .denied
  match e with
  | .dir _ => if (d.children p).isEmpty then return d.erase p else throw .notEmpty
  | _ => return d.erase p

/-! ## 3. Directories along a path -/

/-- The path without its last name, if there is something before it. -/
def parentPath? (path : Bytes) : Option Bytes :=
  let trimmed := (path.reverse.dropWhile (· = byte '/')).reverse
  let stem := (trimmed.reverse.dropWhile (· ≠ byte '/')).reverse
  if stem.length > 1 then some stem.dropLast else none

/-- Makes the last directory of a path whose parent has been made.  A path that ends in a dot may
fail although the directory is there. -/
def makeLast (d : Disk) (path : Bytes) (mode : Nat) : Except Failure Disk :=
  match d.makeDirectory path mode with
  | .ok d => .ok d
  | .error e =>
    match d.find false path with
    | .ok (_, .dir _) => .ok d
    | _ => failed "mkdir" path e

/-- Makes a directory and those on the way to it.  What is made before a failure stays. -/
def makeDirectoriesWithin (mode : Nat) : Nat → Disk → Bytes → Disk × Option Failure
  | 0, d, path => (d, some (.onPath "mkdir" path (.errno .notFound)))
  | fuel + 1, d, path =>
    match d.statusOf path with
    | .ok i => if i.isDir then (d, none) else (d, some (.onPath "mkdir" path (.errno .notDirectory)))
    | .error _ =>
      let before :=
        match parentPath? path with
        | some parent => makeDirectoriesWithin mode fuel d parent
        | none => (d, none)
      match before with
      | (d, some f) => (d, some f)
      | (d, none) =>
        match d.makeLast path mode with
        | .ok d => (d, none)
        | .error f => (d, some f)

def makeDirectories (d : Disk) (path : Bytes) (mode : Nat) : Disk × Option Failure :=
  makeDirectoriesWithin mode (path.length + 1) d path

end Disk

end AgentKit
