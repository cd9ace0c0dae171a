import AgentKit.Glob.Match
import AgentKit.Text.Quoted
/-!
# Exclusions

A list of patterns that names entries to leave out of a tree.  A pattern is matched against the
path relative to the tree's root; one without a slash also against the last part of the path.
-/

namespace AgentKit.Exclusion

/-- The first pattern that cannot be read. -/
def firstMalformed? (patterns : List Bytes) : Option Bytes :=
  patterns.find? fun p => !Glob.wellFormed p

/-- The message that refuses a pattern. -/
def refusal (pattern : Bytes) : Bytes :=
  "invalid exclude pattern " ++ Quoted.text pattern

/-- Whether a pattern matches; a malformed one does not. -/
def hits (pattern name : Bytes) : Bool :=
  match Glob.matches? pattern name with
  | .ok b => b
  | .error _ => false

/-- Whether one pattern leaves out the entry at the relative path `rel`. -/
def covers (rel pattern : Bytes) : Bool :=
  hits pattern rel ||
    (!pattern.contains (byte '/') && hits pattern (Bytes.afterLast (byte '/') rel))

/-- Whether the patterns leave out the entry at the relative path `rel`. -/
def excludes (patterns : List Bytes) (rel : Bytes) : Bool := patterns.any (covers rel)

/-- Whether the patterns leave out the entry at `rel` or a directory on the way to it. -/
def hides (patterns : List Bytes) (rel : Bytes) : Bool :=
  let names := Bytes.splitOn (byte '/') rel
  (List.range names.length).any fun i =>
    excludes patterns (Bytes.joinWith "/" (names.take (i + 1)))

end AgentKit.Exclusion
