import AgentKit.Disk.Call
/-!
# Trees to read from

A tree of files that can be opened, listed and read by slash-separated names: a directory on disk, or
entries held in memory.  Trees may be **faulty**, which is how the program meets media that fail half
way: single calls on single names fail with a given cause.
-/

namespace AgentKit

/-- A call that can fail in a faulty tree. -/
inductive TreeCall where
  | opening
  | status
  /-- Reading fails once `after` bytes have come. -/
  | reading (after : Nat)
  | listing
  deriving DecidableEq, Repr

/-- A call on a name that fails. -/
structure Fault where
  name : Bytes
  call : TreeCall
  cause : Failure

/-- A tree in memory: what stands under which name, and the calls that fail.  The directories on the
way to a name need not be listed. -/
structure Memory where
  entries : List (Bytes × Entry) := []
  faults : List Fault := []

/-- A tree to read from. -/
inductive Tree where
  | onDisk (dir : Bytes)
  | inMemory (m : Memory)
  /-- Another tree on which some calls fail. -/
  | faulty (faults : List Fault) (t : Tree)

/-- An item of a directory. -/
structure Listed where
  name : Bytes
  kind : Kind
  deriving DecidableEq, Repr

/-- A file open for reading: what is known of it, the bytes that come out of it and the failure behind
them. -/
structure Reading where
  info : Except Failure Info
  content : Bytes
  failure : Option Failure := none
  /-- Where the file is, if it is on disk. -/
  place : Option Place := none

/-! ## 1. Names -/

/-- The name of an item of `dir`. -/
def Path.child (dir name : Bytes) : Bytes := if dir = "." then name else dir ++ "/" ++ name

/-- The name of the item of `dir` on the way to `path`, or `path` itself. -/
def Path.childToward? (dir path : Bytes) : Option Bytes :=
  let rest? : Option Bytes :=
    if dir = "." then some path
    else if (dir ++ "/").isPrefixOf path then some (path.drop (dir.length + 1))
    else none
  match rest? with
  | some rest => if path = "." then none else some (rest.takeWhile (· ≠ byte '/'))
  | none => none

/-! ## 2. Faults -/

namespace Fault

/-- The cause for which a call on a name fails, if it does. -/
def cause? (faults : List Fault) (name : Bytes) (call : TreeCall) : Option Failure :=
  (faults.find? fun f => f.name = name && f.call = call).map (·.cause)

/-- The point at which reading a name fails, and the cause. -/
def reading? (faults : List Fault) (name : Bytes) : Option (Nat × Failure) :=
  faults.findSome? fun f =>
    match f.call with
    | .reading after => if f.name = name then some (after, f.cause) else none
    | _ => none

/-- What a call on a name answers, unless it fails. -/
def orElse {α : Type} (faults : List Fault) (operation name : Bytes) (call : TreeCall)
    (answer : Except Failure α) : Except Failure α :=
  match cause? faults name call with
  | some cause => .error (.onPath operation name cause)
  | none => answer

/-- The bytes that come out of a name and the failure behind them, unless reading fails before. -/
def cut (faults : List Fault) (name : Bytes) (delivery : Bytes × Option Failure) :
    Bytes × Option Failure :=
  match reading? faults name with
  | some (after, cause) => (delivery.1.take after, some (.onPath "read" name cause))
  | none => delivery

end Fault

/-! ## 3. Trees in memory -/

namespace Memory

/-- The mode of directories that are not listed. -/
def impliedMode : Nat := 0o555

/-- What stands under a name. -/
def get? (m : Memory) (name : Bytes) : Option Entry :=
  match m.entries.lookup name with
  | some e => some e
  | none =>
    if name = "." || m.entries.any fun e => (name ++ "/").isPrefixOf e.1 then some (.dir impliedMode)
    else none

/-- Opens a name. -/
def opened (m : Memory) (name : Bytes) : Except Failure Entry :=
  Fault.orElse m.faults "open" name .opening <|
    match m.get? name with
    | some e => .ok e
    | none => .error (.onPath "open" name .absent)

/-- What is known of an open name. -/
def infoOf (m : Memory) (name : Bytes) (e : Entry) : Except Failure Info :=
  Fault.orElse m.faults "stat" name .status (.ok e.info)

/-- The names of what is directly inside a directory, in ascending order. -/
def children (m : Memory) (dir : Bytes) : List Bytes :=
  Bytes.sort ((m.entries.filterMap fun e => Path.childToward? dir e.1).eraseDups)

/-- The items of a directory. -/
def items (m : Memory) (dir : Bytes) : List Listed :=
  (m.children dir).filterMap fun n => (m.get? (Path.child dir n)).map fun e => ⟨n, e.kind⟩

/-- Opens a directory and lists it. -/
def list (m : Memory) (dir : Bytes) : Except Failure (List Listed) := do
  let e ← m.opened dir
  Fault.orElse m.faults "readdir" dir .listing <|
    match e with
    | .dir _ => .ok (m.items dir)
    | _ => .error (.onPath "readdir" dir (.other "not implemented"))

/-- The bytes that come out of an open name and the failure behind them. -/
def delivery (m : Memory) (name : Bytes) (e : Entry) : Bytes × Option Failure :=
  match e with
  | .file _ content => Fault.cut m.faults name (content, none)
  | _ => ([], some (.onPath "read" (name ++ "/") (.errno .isDirectory)))

/-- The names on the longest way into the tree, and one more. -/
def depth (m : Memory) : Nat :=
  (m.entries.map fun e => (Bytes.splitOn (byte '/') e.1).length).foldl max 0 + 1

end Memory

/-! ## 4. Calls -/

namespace Tree

/-- The path on disk of a name in the directory `dir`. -/
def pathOf (dir name : Bytes) : Except Failure Bytes :=
  if dir.isEmpty then .error (.other "os: DirFS with empty root")
  else if !Path.isTreeName name || name.contains 0 then .error .improper
  else if Path.hasTrailingSlash dir then .ok (dir ++ name)
  else .ok (dir ++ "/" ++ name)

/-- Does `operation` with the path of a name; failures give the name.  A name without a path is
refused before that, as a failure of the call `call`. -/
def onPathOf {α : Type} (dir call operation name : Bytes) (act : Bytes → Except Errno α) :
    Except Failure α :=
  match pathOf dir name with
  | .error cause => .error (.onPath call name cause)
  | .ok path => Disk.explain operation name (act path)

/-- What a name stands for. -/
def stat (t : Tree) (d : Disk) (name : Bytes) : Except Failure Info :=
  match t with
  | .onDisk dir => onPathOf dir "stat" "stat" name d.statusOf
  | .inMemory m => do m.infoOf name (← m.opened name)
  | .faulty faults t => Fault.orElse faults "stat" name .status (t.stat d name)

/-- The items of a directory, in the order of their names. -/
def list (t : Tree) (d : Disk) (name : Bytes) : Except Failure (List Listed) :=
  match t with
  | .onDisk dir => do
    let (p, _) ← onPathOf dir "readdir" "open" name d.openedAt
    return (d.listing p).map fun (n, k) => ⟨n, k⟩
  | .inMemory m => m.list name
  | .faulty faults t =>
    Fault.orElse faults "open" name .opening <|
      Fault.orElse faults "readdir" name .listing (t.list d name)

/-- Opens a file in the directory `dir` for the call `call`. -/
def openIn (dir call : Bytes) (d : Disk) (name : Bytes) : Except Failure Reading := do
  let (p, e) ← onPathOf dir call "open" name d.openedAt
  match e with
  | .file _ content => return { info := .ok e.info, content, place := some p }
  | _ =>
    let failure := Failure.onPath "read" name (.errno .isDirectory)
    return { info := .ok e.info, content := [], failure := some failure }

/-- Opens a file for reading. -/
def openFile (t : Tree) (d : Disk) (name : Bytes) : Except Failure Reading :=
  match t with
  | .onDisk dir => openIn dir "open" d name
  | .inMemory m => do
    let e ← m.opened name
    let (content, failure) := m.delivery name e
    return { info := m.infoOf name e, content, failure }
  | .faulty faults t =>
    Fault.orElse faults "open" name .opening <|
      (t.openFile d name).map fun r =>
        let (content, failure) := Fault.cut faults name (r.content, r.failure)
        { r with info := Fault.orElse faults "stat" name .status r.info, content, failure }

/-- Opens a file to read it to its end, which on disk is a call of its own. -/
def openWhole (t : Tree) (d : Disk) (name : Bytes) : Except Failure Reading :=
  match t with
  | .onDisk dir => openIn dir "readfile" d name
  | t => t.openFile d name

/-- The content of a file. -/
def read (t : Tree) (d : Disk) (name : Bytes) : Except Failure Bytes := do
  let r ← t.openWhole d name
  match r.failure with
  | some f => throw f
  | none => return r.content

/-- More levels than the tree can have: a path on disk has fewer names than it may have bytes. -/
def depth : Tree → Nat
  | .onDisk _ => Disk.pathLimit
  | .inMemory m => m.depth
  | .faulty _ t => t.depth

end Tree

end AgentKit
