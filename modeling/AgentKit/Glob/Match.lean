import AgentKit.Text.Utf8
import AgentKit.Glob.WellFormed
/-!
# Matching a path against a pattern

The matcher moves a cursor through the pattern and the name together and remembers two places to
resume from: the last `*`, which may take one more character of its path segment, and the last
`**`, which may take one more segment.  Alternatives in curly brackets are tried in turn, each
spliced into the pattern in place of the brackets.

A pattern that breaks off is found out only where the matcher looks: in a class or an alternative
it enters, and in the part of the pattern behind the place where a match finally fails.  The answer
is then `Malformed` and not a refusal.

The loop runs on fuel.  Every step moves on in the pattern, in the name, or to a later place to
resume from, so `budget` steps are enough: more of them change no answer (`matches?_eq`).
-/

namespace AgentKit.Glob

/-- The pattern breaks off or closes what it did not open. -/
structure Malformed where
  deriving DecidableEq, Repr

/-- A place to resume from: offsets in the pattern and in the name. -/
structure Resume where
  pattern : Nat
  name : Nat
  deriving DecidableEq, Repr

/-- How far the matcher has come. -/
structure Cursor where
  pattern : Nat := 0
  name : Nat := 0
  /-- The pattern stands at the start of a path segment. -/
  segmentStart : Bool := true
  /-- Behind the last `*`. -/
  star : Option Resume := none
  /-- Behind the last `**`. -/
  deep : Option Resume := none
  deriving DecidableEq, Repr

/-! ## 1. Alternatives -/

/-- The offset of the bracket that closes the alternatives which `t` is inside of, `depth`
brackets deep. -/
def closing : Nat → Bytes → Option Nat
  | _, [] => none
  | depth, [b] => if b = 0x7D ∧ depth = 0 then some 0 else none
  | depth, b :: c :: t =>
    if b = byte '\\' then (closing depth t).map (· + 2)
    else if b = 0x7B then (closing (depth + 1) (c :: t)).map (· + 1)
    else if b = 0x7D then
      match depth with
      | 0 => some 0
      | depth + 1 => (closing depth (c :: t)).map (· + 1)
    else (closing depth (c :: t)).map (· + 1)

/-- The bytes between brackets, cut at the commas that belong to them. -/
def alternatives : Nat → Bytes → List Bytes
  | _, [] => [[]]
  | depth, [b] => if b = byte ',' ∧ depth = 0 then [[], []] else [[b]]
  | depth, b :: c :: t =>
    let keep (front : Bytes) : List Bytes → List Bytes
      | [] => [front]
      | p :: ps => (front ++ p) :: ps
    if b = byte '\\' then keep [b, c] (alternatives depth t)
    else if b = 0x7B then keep [b] (alternatives (depth + 1) (c :: t))
    else if b = 0x7D then keep [b] (alternatives (depth - 1) (c :: t))
    else if b = byte ',' ∧ depth = 0 then [] :: alternatives depth (c :: t)
    else keep [b] (alternatives depth (c :: t))

/-- The answers in turn, up to the first that is not a refusal. -/
def firstMatch {α : Type} (f : α → Except Malformed Bool) : List α → Except Malformed Bool
  | [] => .ok false
  | a :: rest =>
    match f a with
    | .ok false => firstMatch f rest
    | answer => answer

/-! ## 2. The end of the name -/

/-- The patterns of wildcards only that match nothing at all.  A directory's name matches the
pattern for everything below it. -/
def blankPatterns : List Bytes := ["", "*", "**", "/**", "**/", "/**/"]

/-- Whether the rest of a pattern matches the empty text. -/
def matchesNothing : Nat → Bytes → Except Malformed Bool
  | 0, _ => .ok false
  | fuel + 1, pattern =>
    if blankPatterns.contains pattern then .ok true
    else
      match pattern with
      | 0x7B :: inside =>
        match closing 0 inside with
        | none => .error ⟨⟩
        | some n =>
          firstMatch (fun alt => matchesNothing fuel (alt ++ inside.drop (n + 1)))
            (alternatives 0 (inside.take n))
      | _ => if wellFormed pattern then .ok false else .error ⟨⟩

/-! ## 3. Classes -/

/-- The largest character; as the last member read it stands for "none that can open a range". -/
def noMember : Nat := 0x10FFFF

/-- Reads the members of a class from offset `pos` until one of them holds `c`, the class ends or
the pattern does.  The answer is the offset reached and whether a member holds `c`. -/
def members (pattern : Bytes) (c : Char) : Nat → Nat → Nat → Nat × Bool
  | 0, _, pos => (pos, false)
  | fuel + 1, last, pos =>
    match pattern[pos]? with
    | none => (pos, false)
    | some b =>
      if b = byte ']' then (pos, false)
      else
        let (m, w) := Utf8.decodeFirst (pattern.drop pos)
        let next := pos + w
        match pattern[next]? with
        | some e =>
          if last < noMember ∧ m = '-' ∧ e ≠ byte ']' then
            let next := if e = byte '\\' then next + 1 else next
            let (hi, w) := Utf8.decodeFirst (pattern.drop next)
            if last ≤ c.toNat ∧ c ≤ hi then (next + w, true)
            else members pattern c fuel noMember (next + w)
          else
            let (m, next) :=
              if m = '\\' then
                let (m, w) := Utf8.decodeFirst (pattern.drop next)
                (m, next + w)
              else (m, next)
            if m = c then (next, true) else members pattern c fuel m.toNat next
        | none =>
          let m := if m = '\\' then '�' else m
          if m = c then (next, true) else members pattern c fuel m.toNat next

/-- The number of bytes through the bracket that closes a class. -/
def classEnd : Bytes → Option Nat
  | [] => none
  | [b] => if b = byte ']' then some 1 else none
  | b :: c :: t =>
    if b = byte '\\' then (classEnd t).map (· + 2)
    else if b = byte ']' then some 1
    else (classEnd (c :: t)).map (· + 1)

/-! ## 4. The cursor -/

/-- What the byte under the cursor leads to. -/
inductive Step where
  /-- The cursor moves. -/
  | move (next : Cursor)
  /-- No match here; the rest of the pattern begins at this offset. -/
  | refuse (pattern : Nat)
  /-- These patterns are tried in turn from the cursor's place. -/
  | branch (patterns : List Bytes)
  /-- The answer is known. -/
  | answer (result : Except Malformed Bool)

/-- A class, whose members start behind the cursor's bracket. -/
def stepClass (pattern name : Bytes) (c : Cursor) : Step :=
  match pattern[c.pattern + 1]? with
  | none => .answer (.error ⟨⟩)
  | some sign =>
    let negate := sign = byte '!' ∨ sign = byte '^'
    let start := if negate then c.pattern + 2 else c.pattern + 1
    if pattern[start]?.all (· = byte ']') then .answer (.error ⟨⟩)
    else
      let (shown, w) := Utf8.decodeFirst (name.drop c.name)
      let (reached, held) := members pattern shown pattern.length noMember start
      if held = decide negate then
        if reached ≥ pattern.length then .answer (.error ⟨⟩) else .refuse reached
      else
        match classEnd (pattern.drop reached) with
        | none => .answer (.error ⟨⟩)
        | some n =>
          .move { c with pattern := reached + n, name := c.name + w, segmentStart := false }

/-- A character that stands for itself, at offset `pos` of the pattern. -/
def stepPlain (pattern name : Bytes) (c : Cursor) (pos : Nat) : Step :=
  let (p, pw) := Utf8.decodeFirst (pattern.drop pos)
  let (n, nw) := Utf8.decodeFirst (name.drop c.name)
  if p = n then
    .move { c with pattern := pos + pw, name := c.name + nw, segmentStart := p = '/' }
  else if 0 < pos ∧ pattern[pos - 1]? = some (byte '\\') then .refuse (pos - 1)
  else .refuse pos

/-- A single star behind which the pattern goes on at `behind`. -/
def stepStar (c : Cursor) (behind : Nat) : Step :=
  .move { c with pattern := behind, segmentStart := false, star := some ⟨behind, c.name⟩ }

/-- One step at a cursor that stands inside the name. -/
def step (pattern name : Bytes) (c : Cursor) : Step :=
  match pattern[c.pattern]? with
  | none => .refuse c.pattern
  | some b =>
    if b = byte '*' then
      if pattern[c.pattern + 1]? = some (byte '*') then
        let behind := c.pattern + 2
        if c.segmentStart then
          match pattern[behind]? with
          | none => .answer (.ok true)
          | some e =>
            if e = byte '/' then
              .move { c with pattern := behind + 1, star := none, deep := some ⟨behind + 1, c.name⟩ }
            else stepStar c behind
        else stepStar c behind
      else stepStar c (c.pattern + 1)
    else if b = byte '?' then
      let (n, w) := Utf8.decodeFirst (name.drop c.name)
      if n = '/' then .refuse c.pattern
      else .move { c with pattern := c.pattern + 1, name := c.name + w, segmentStart := false }
    else if b = byte '[' then stepClass pattern name c
    else if b = 0x7B then
      let inside := pattern.drop (c.pattern + 1)
      match closing 0 inside with
      | none => .answer (.error ⟨⟩)
      | some n =>
        .branch ((alternatives 0 (inside.take n)).map fun alt =>
          pattern.take c.pattern ++ alt ++ inside.drop (n + 1))
    else if b = byte '\\' then
      if c.pattern + 1 < pattern.length then stepPlain pattern name c (c.pattern + 1)
      else .answer (.error ⟨⟩)
    else stepPlain pattern name c c.pattern

/-- The offset behind the next slash of `t`. -/
def behindSlash (t : Bytes) : Option Nat :=
  (t.findIdx? (· = byte '/')).map (· + 1)

/-- The cursor after the last `*` has taken one more character, or else the last `**` one more
segment. -/
def resume? (name : Bytes) (c : Cursor) : Option Cursor :=
  let deeper : Option Cursor :=
    c.deep.bind fun d =>
      (behindSlash (name.drop d.name)).map fun n =>
        { c with
          pattern := d.pattern, name := d.name + n, segmentStart := true
          deep := some ⟨d.pattern, d.name + n⟩ }
  match c.star with
  | none => deeper
  | some s =>
    let (n, w) := Utf8.decodeFirst (name.drop s.name)
    if n = '/' then deeper
    else some { c with
      pattern := s.pattern, name := s.name + w, segmentStart := false
      star := some ⟨s.pattern, s.name + w⟩ }

/-! ## 5. The loop -/

/-- The answer from a cursor on. -/
def matchFrom : Nat → Bytes → Bytes → Cursor → Except Malformed Bool
  | 0, _, _, _ => .ok false
  | fuel + 1, pattern, name, c =>
    if name.length ≤ c.name then
      let rest := pattern.drop c.pattern
      matchesNothing (rest.length + 1) rest
    else
      match step pattern name c with
      | .move c => matchFrom fuel pattern name c
      | .answer result => result
      | .branch patterns =>
        firstMatch (fun p => matchFrom fuel p name { c with segmentStart := true }) patterns
      | .refuse rest =>
        match resume? name c with
        | some c => matchFrom fuel pattern name c
        | none =>
          if rest < pattern.length ∧ wellFormed (pattern.drop rest) = false then .error ⟨⟩
          else .ok false

/-- Steps enough for a pattern of `p` bytes and a name of `n`. -/
def budget (p n : Nat) : Nat := (p + 2) * (p + 2) * (p + 2) * (n + 2) * (n + 2) * (p + n + 3)

/-- Whether a pattern matches the whole of a name. -/
def matches? (pattern name : Bytes) : Except Malformed Bool :=
  matchFrom (budget pattern.length name.length) pattern name {}

end AgentKit.Glob
