import AgentKit.Yaml.Token
/-!
# Scalars

The text of a scalar in each of its styles.  Plain and quoted scalars may run over several lines;
a single line end between two lines counts as a space, and of several line ends the first is
dropped.  Block scalars keep their lines, or fold them in the same way.
-/

namespace AgentKit.Yaml

/-! ## 1. White space inside a scalar -/

/-- White space between two runs of characters. -/
structure Gap where
  /-- Blanks on the line of the first run. -/
  blanks : List Char := []
  /-- The first line end. -/
  first : List Char := []
  /-- Further line ends. -/
  more : List Char := []
  /-- A line end was passed. -/
  broken : Bool := false

/-- Line ends as they count in a value. -/
def foldBreaks (first more : List Char) : List Char :=
  match first with
  | '\n' :: _ => if more.isEmpty then [' '] else more
  | _ => first ++ more

/-- The white space as it counts in a value. -/
def Gap.text (g : Gap) : List Char := if g.broken then foldBreaks g.first g.more else g.blanks

/-- The gap after one more blank or line end. -/
def Gap.take (g : Gap) (c : Cursor) : Gap × Cursor :=
  if isBlank c.head then
    (if g.broken then g else { g with blanks := g.blanks ++ c.head.toList }, c.skip)
  else if g.broken then ({ g with more := g.more ++ c.lineText }, c.skipLine)
  else ({ g with blanks := [], first := c.lineText, broken := true }, c.skipLine)

/-! ## 2. Plain scalars -/

/-- A sign that ends a plain scalar. -/
def endsPlain (inFlow : Bool) (c : Cursor) : Bool :=
  (c.sees ':' && isBlankOrEnd (c.peek 1)) ||
    (inFlow && c.head.any fun ch => ch ∈ [',', '?', '[', ']', '\x7b', '\x7d'])

/-- A run of characters without white space. -/
def plainRun (inFlow : Bool) : Nat → Cursor → Except Fault (List Char × Cursor)
  | 0, c => .ok ([], c)
  | fuel + 1, c =>
    match c.head with
    | none => .ok ([], c)
    | some ch =>
      if isBlankOrEnd (some ch) || endsPlain inFlow c then .ok ([], c)
      else do
        c.skip.need 2
        let (run, c) ← plainRun inFlow fuel c.skip
        return (ch :: run, c)

/-- The white space behind a run.  A tab must not stand in for indentation. -/
def plainGap (indent : Int) (start : Mark) : Nat → Gap → Cursor → Except Fault (Gap × Cursor)
  | 0, g, c => .ok (g, c)
  | fuel + 1, g, c =>
    if isBlank c.head || isBreak c.head then
      if g.broken && c.mark.column < indent && c.sees '\t' then
        .error (.scanning .plainTab start c.mark)
      else
        let (g, c) := g.take c
        plainGap indent start fuel g c
    else .ok (g, c)

/-- The runs of a plain scalar, `gap` standing before the next one.  The answer tells whether a
line end was passed behind the last run. -/
def plainRuns (inFlow : Bool) (indent : Int) (start : Mark) :
    Nat → Gap → Cursor → Except Fault (List Char × Bool × Cursor)
  | 0, g, c => .ok ([], g.broken, c)
  | fuel + 1, g, c => do
    c.need 4
    if c.atDocumentMark || c.sees '#' then return ([], g.broken, c)
    let (run, c) ← plainRun inFlow c.rest.length c
    let text := if run.isEmpty then [] else g.text ++ run
    let g := if run.isEmpty then g else {}
    if !(isBlank c.head || isBreak c.head) then return (text, g.broken, c)
    let (g, c) ← plainGap indent start c.rest.length g c
    if !inFlow && c.mark.column < indent then return (text, g.broken, c)
    let (rest, broken, c) ← plainRuns inFlow indent start fuel g c
    return (text ++ rest, broken, c)

/-- A plain scalar; `indent` is the least column of its further lines. -/
def plainScalar (inFlow : Bool) (indent : Int) (c : Cursor) :
    Except Fault (List Char × Bool × Cursor) :=
  plainRuns inFlow indent c.mark (c.rest.length + 1) {} c

/-! ## 3. Quoted scalars -/

/-- The characters that a letter behind a backslash stands for. -/
def escapes : List (Char × Char) := [
  ('0', '\x00'), ('a', '\x07'), ('b', '\x08'), ('t', '\t'), ('\t', '\t'), ('n', '\n'),
  ('v', '\x0b'), ('f', '\x0c'), ('r', '\r'), ('e', '\x1b'), (' ', ' '), ('"', '"'),
  ('\x27', '\x27'), ('\\', '\\'), ('N', '\u0085'), ('_', '\u00a0'), ('L', '\u2028'),
  ('P', '\u2029')]

/-- The number of hexadecimal digits behind a letter. -/
def escapeDigits (ch : Char) : Option Nat :=
  if ch = 'x' then some 2 else if ch = 'u' then some 4 else if ch = 'U' then some 8 else none

/-- The character that an escape stands for; the cursor is at the backslash. -/
def escaped (start : Mark) (c : Cursor) : Except Fault (Char × Cursor) :=
  match c.peek 1 with
  | none => .error (.scanning .unknownEscape start c.mark)
  | some letter =>
    match escapes.lookup letter, escapeDigits letter with
    | some ch, _ => .ok (ch, c.skip.skip)
    | none, some n => do
      let c := c.skip.skip
      c.need n
      let digits := c.rest.take n
      if digits.length < n then throw (.scanning .hexDigits start c.mark)
      match hexNumber? digits with
      | none => throw (.scanning .hexDigits start c.mark)
      | some code =>
        if (0xD800 ≤ code ∧ code ≤ 0xDFFF) ∨ code > 0x10FFFF then
          throw (.scanning .invalidEscapeCode start c.mark)
        return (Char.ofNat code, c.skipN n)
    | none, none => .error (.scanning .unknownEscape start c.mark)

/-- A run of characters without white space.  The answer tells whether an escaped line end closed
it. -/
def quotedRun (single : Bool) (start : Mark) :
    Nat → Cursor → Except Fault (List Char × Bool × Cursor)
  | 0, c => .ok ([], false, c)
  | fuel + 1, c =>
    let keep (ch : Char) (c : Cursor) : Except Fault (List Char × Bool × Cursor) := do
      c.need 2
      let (run, broken, c) ← quotedRun single start fuel c
      return (ch :: run, broken, c)
    match c.head with
    | none => .ok ([], false, c)
    | some ch =>
      if isBlankOrEnd (some ch) then .ok ([], false, c)
      else if single && ch = '\x27' then
        if c.peek 1 = some '\x27' then keep ch c.skip.skip else .ok ([], false, c)
      else if !single && ch = '"' then .ok ([], false, c)
      else if !single && ch = '\\' then
        if isBreak (c.peek 1) then do
          c.need 3
          return ([], true, c.skip.skipLine)
        else do
          let (ch, c) ← escaped start c
          keep ch c
      else keep ch c.skip

/-- The white space behind a run. -/
def quotedGap : Nat → Gap → Cursor → Gap × Cursor
  | 0, g, c => (g, c)
  | fuel + 1, g, c =>
    if isBlank c.head || isBreak c.head then
      let (g, c) := g.take c
      quotedGap fuel g c
    else (g, c)

/-- The runs of a quoted scalar up to the closing quote. -/
def quotedRuns (single : Bool) (start : Mark) : Nat → Cursor → Except Fault (List Char × Cursor)
  | 0, c => .error (.scanning .unexpectedEnd start c.mark)
  | fuel + 1, c => do
    c.need 4
    if c.atDocumentMark then throw (.scanning .documentIndicator start c.mark)
    if c.head.isNone then throw (.scanning .unexpectedEnd start c.mark)
    let (run, broken, c) ← quotedRun single start c.rest.length c
    c.need 1
    if c.sees (if single then '\x27' else '"') then return (run, c.skip)
    let (g, c) := quotedGap c.rest.length { broken := broken } c
    let (rest, c) ← quotedRuns single start fuel c
    return (run ++ g.text ++ rest, c)

/-- A quoted scalar; the cursor is at the opening quote. -/
def quotedScalar (single : Bool) (c : Cursor) : Except Fault (List Char × Cursor) :=
  quotedRuns single c.mark (c.rest.length + 1) c.skip

/-! ## 4. Block scalars -/

/-- What becomes of the line ends behind a block scalar. -/
inductive Chomping where
  | strip
  | clip
  | keep
  deriving DecidableEq, Repr

/-- The chomping that a sign asks for. -/
def chompingOf (c : Cursor) : Option Chomping :=
  if c.sees '+' then some .keep else if c.sees '-' then some .strip else none

/-- The indentation that a digit asks for. -/
def incrementOf (start : Mark) (c : Cursor) : Except Fault (Option Nat) :=
  match c.head with
  | some ch =>
    if ch = '0' then .error (.scanning .zeroIndentation start c.mark)
    else if ch.isDigit then .ok (some (ch.toNat - 48))
    else .ok none
  | none => .ok none

/-- The two signs behind the indicator of a block scalar, in either order. -/
def blockHeader (start : Mark) (c : Cursor) : Except Fault (Chomping × Nat × Cursor) := do
  match chompingOf c with
  | some chomp =>
    let c := c.skip
    match ← incrementOf start c with
    | some n => return (chomp, n, c.skip)
    | none => return (chomp, 0, c)
  | none =>
    match ← incrementOf start c with
    | some n =>
      let c := c.skip
      match chompingOf c with
      | some chomp => return (chomp, n, c.skip)
      | none => return (.clip, n, c)
    | none => return (.clip, 0, c)

/-- The line ends and the indentation before the next line.  With no indentation known (`indent`
is 0) all spaces are taken, and the answer gives the largest column reached. -/
def blockBreaks (start : Mark) (indent : Nat) :
    Nat → Nat → Cursor → Except Fault (List Char × Nat × Cursor)
  | 0, widest, c => .ok ([], widest, c)
  | fuel + 1, widest, c => do
    let spaces := (c.rest.takeWhile (· = ' ')).length
    let c := c.skipN (if indent = 0 then spaces else min spaces (indent - c.mark.column))
    c.need 1
    let widest := max widest c.mark.column
    if (indent = 0 || c.mark.column < indent) && c.sees '\t' then
      throw (.scanning .blockScalarTab start c.mark)
    if !isBreak c.head then return ([], widest, c)
    let (more, widest, c') ← blockBreaks start indent fuel widest c.skipLine
    return (c.lineText ++ more, widest, c')

/-- The lines of a block scalar.  `first` is the line end behind the line before, `more` the empty
lines after it, and `blankBefore` tells whether that line started with a blank. -/
def blockLines (start : Mark) (literal : Bool) (chomp : Chomping) (indent : Nat) :
    Nat → List Char → List Char → Bool → Cursor → Except Fault (List Char × Cursor)
  | 0, _, _, _, c => .ok ([], c)
  | fuel + 1, first, more, blankBefore, c =>
    if c.mark.column = indent && c.head.isSome then do
      let blank := isBlank c.head
      let joint :=
        match literal || blankBefore || blank, first with
        | false, '\n' :: _ => if more.isEmpty then [' '] else []
        | _, _ => first
      let line := c.rest.takeWhile fun ch => !isBreakChar ch
      let c := c.skipToBreak
      c.need 2
      let (breaks, _, c') ← blockBreaks start indent (c.rest.length + 1) 0 c.skipLine
      let (rest, c') ← blockLines start literal chomp indent fuel c.lineText breaks blank c'
      return (joint ++ more ++ line ++ rest, c')
    else
      let tail :=
        match chomp with
        | .strip => []
        | .clip => first
        | .keep => first ++ more
      .ok (tail, c)

/-- A block scalar inside a collection at column `parent`; the cursor is at the indicator. -/
def blockScalar (literal : Bool) (parent : Int) (c : Cursor) : Except Fault (List Char × Cursor) := do
  let start := c.mark
  let (chomp, increment, c) ← blockHeader start c.skip
  let c := c.skipWhile isBlank
  let c := if c.sees '#' then c.skipToBreak else c
  c.need 1
  if !isBreakOrEnd c.head then throw (.scanning .blockScalarTail start c.mark)
  let c := if isBreak c.head then c.skipLine else c
  let given := if increment = 0 then 0 else if parent ≥ 0 then parent.toNat + increment else increment
  let (breaks, widest, c) ← blockBreaks start given (c.rest.length + 1) 0 c
  let indent := if given = 0 then max (max widest (parent + 1).toNat) 1 else given
  blockLines start literal chomp indent (c.rest.length + 1) [] breaks false c

end AgentKit.Yaml
