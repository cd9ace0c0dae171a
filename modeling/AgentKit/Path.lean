import AgentKit.Text.Utf8
/-!
# Path names

A path is a text of names between slashes.  Here it is handled as text only: what it leads to is the
business of `Disk`.
-/

namespace AgentKit.Path

/-- The names between slashes, without empty ones. -/
def names (t : Bytes) : List Bytes := (Bytes.splitOn (byte '/') t).filter (!·.isEmpty)

def isAbsolute (t : Bytes) : Bool := t.head? = some (byte '/')

def hasTrailingSlash (t : Bytes) : Bool := t.getLast? = some (byte '/')

/-- Names with a slash between neighbours. -/
def join (ns : List Bytes) : Bytes := Bytes.joinWith "/" ns

/-- Takes one name after those in `before`, the last of which comes first: a dot stays, two dots go
back.  Above the root there is nothing; above a relative path there may be. -/
def cleanStep (absolute : Bool) (before : List Bytes) (name : Bytes) : List Bytes :=
  if name = "." then before
  else if name = ".." then
    match before with
    | [] => if absolute then [] else [name]
    | n :: rest => if n = ".." then name :: before else rest
  else name :: before

/-- The names of a path after all dots have been taken. -/
def cleanNames (t : Bytes) : List Bytes :=
  ((names t).foldl (cleanStep (isAbsolute t)) []).reverse

/-- The shortest path that means the same as text. -/
def clean (t : Bytes) : Bytes :=
  let body := join (cleanNames t)
  if isAbsolute t then byte '/' :: body
  else if body.isEmpty then "."
  else body

/-- The path of `name` below `dir`. -/
def below (dir name : Bytes) : Bytes :=
  if dir.isEmpty then (if name.isEmpty then [] else clean name)
  else if name.isEmpty then clean dir
  else clean (dir ++ "/" ++ name)

/-- The path of something in a tree, seen from the tree's root at `root`. -/
def relativeTo (root path : Bytes) : Bytes :=
  if root = "." then path else Bytes.dropStart (root ++ "/") path

def last (t : Bytes) : Bytes := Bytes.afterLast (byte '/') t

/-- The ending of the last name, from its last dot on. -/
def ending (t : Bytes) : Bytes :=
  let name := last t
  if name.contains (byte '.') then byte '.' :: Bytes.afterLast (byte '.') name else []

/-- The path may name something inside a tree: well-formed UTF-8 that is a dot alone, or names
between single slashes none of which is empty or made of dots.  Files on disk may have other names,
and are then out of a tree's reach. -/
def isTreeName (t : Bytes) : Bool :=
  Utf8.isValid t &&
    (t = "." || (Bytes.splitOn (byte '/') t).all fun n => !n.isEmpty && n ≠ "." && n ≠ "..")

end AgentKit.Path
