import AgentKit.Text.Bytes
/-!
# Well-formed patterns

A pattern is a path with wildcards: `*`, `?`, `**`, classes in square brackets, alternatives in
curly brackets and a backslash before a byte that stands for itself.  `wellFormed` reads a pattern
once from left to right.  It refuses a backslash at the end, a class that is empty or not closed,
and curly brackets that do not pair up.  Inside a class every byte but the closing bracket and the
backslash is plain, so curly brackets there are not counted.
-/

namespace AgentKit.Glob

/-- What the reader expects next. -/
inductive Reading where
  /-- Outside a class. -/
  | plain
  /-- Behind a backslash outside a class. -/
  | escaped
  /-- Behind the bracket that opens a class. -/
  | classOpen
  /-- Behind the bracket and the sign that negates the class. -/
  | classFirst
  /-- Inside a class that has a member. -/
  | classRest
  /-- Behind a backslash inside a class. -/
  | classEscaped
  deriving DecidableEq, Repr

/-- The reading after a byte that may be a member of a class. -/
def Reading.member (b : UInt8) : Reading :=
  if b = byte '\\' then .classEscaped else .classRest

/-- Whether the rest of a pattern is well formed, with `depth` curly brackets open. -/
def wellFormedFrom : Reading → Nat → Bytes → Bool
  | .plain, depth, [] => depth = 0
  | _, _, [] => false
  | .plain, depth, b :: t =>
    if b = byte '\\' then wellFormedFrom .escaped depth t
    else if b = byte '[' then wellFormedFrom .classOpen depth t
    else if b = 0x7B then wellFormedFrom .plain (depth + 1) t
    else if b = 0x7D then
      match depth with
      | 0 => false
      | depth + 1 => wellFormedFrom .plain depth t
    else wellFormedFrom .plain depth t
  | .escaped, depth, _ :: t => wellFormedFrom .plain depth t
  | .classOpen, depth, b :: t =>
    if b = byte '^' ∨ b = byte '!' then wellFormedFrom .classFirst depth t
    else if b = byte ']' then false
    else wellFormedFrom (Reading.member b) depth t
  | .classFirst, depth, b :: t =>
    if b = byte ']' then false else wellFormedFrom (Reading.member b) depth t
  | .classRest, depth, b :: t =>
    if b = byte ']' then wellFormedFrom .plain depth t
    else wellFormedFrom (Reading.member b) depth t
  | .classEscaped, depth, _ :: t => wellFormedFrom .classRest depth t

/-- The pattern can be read to its end. -/
def wellFormed (pattern : Bytes) : Bool := wellFormedFrom .plain 0 pattern

end AgentKit.Glob
