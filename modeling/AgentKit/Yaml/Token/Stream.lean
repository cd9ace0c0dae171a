import AgentKit.Yaml.Token.Scalar
import AgentKit.Yaml.Token.Property
/-!
# The stream of tokens

A key of a mapping is known as one only by the colon behind it.  The stream therefore holds tokens
back while the first of them may still turn out to start a key, and it always reads two tokens
ahead.  A fault in the text shows only to a reader that asks for a token which the stream cannot
hand out any more, so `tokens` gives the tokens handed out before a fault together with the fault.
-/

namespace AgentKit.Yaml

/-- A place where a key may have started. -/
structure PossibleKey where
  /-- Nothing but a key can stand here. -/
  required : Bool
  /-- The number of its first token. -/
  number : Nat
  mark : Mark

/-- A key stands on one line and has at most 1024 characters. -/
def PossibleKey.valid (k : PossibleKey) (now : Mark) : Except Fault Bool :=
  if k.mark.line < now.line || k.mark.index + 1024 < now.index then
    if k.required then .error (.scanning .noSimpleKey k.mark now) else .ok false
  else .ok true

/-- Tokens read but not yet handed out, and what decides how the text goes on. -/
structure TokenStream where
  cursor : Cursor
  /-- The column of the innermost block collection; -1 outside all. -/
  indent : Int := -1
  /-- The columns of the block collections around it. -/
  indents : List Int := []
  /-- A key may start here. -/
  keyAllowed : Bool := true
  /-- The place where a key may have started in the innermost flow collection. -/
  key : Option PossibleKey := none
  /-- The same for all that is around it. -/
  outer : List (Option PossibleKey) := []
  queue : List Token := []
  /-- The number of tokens handed out. -/
  taken : Nat := 0

namespace TokenStream

/-- The most levels of flow collections, and of block collections. -/
def maxDepth : Nat := 10000

/-- The text is inside a flow collection. -/
def inFlow (s : TokenStream) : Bool := !s.outer.isEmpty

def mark (s : TokenStream) : Mark := s.cursor.mark

/-- Adds a token at the end. -/
def push (s : TokenStream) (kind : TokenKind) (start : Mark) (c : Cursor) : TokenStream :=
  { s with queue := s.queue ++ [⟨kind, start⟩], cursor := c }

/-- Adds a token of one character. -/
def pushSign (s : TokenStream) (kind : TokenKind) : TokenStream := s.push kind s.mark s.cursor.skip

/-- A fault at the present place. -/
def fault (s : TokenStream) (p : Problem) : Fault := .scanning p s.mark s.mark

/-! ## 1. Possible keys -/

/-- Gives up the possible key, which fails if there had to be one. -/
def dropKey (s : TokenStream) : Except Fault TokenStream :=
  match s.key with
  | some k =>
    if k.required then .error (.scanning .noSimpleKey k.mark s.mark) else .ok { s with key := none }
  | none => .ok s

/-- Notes that a key may start here. -/
def saveKey (s : TokenStream) : Except Fault TokenStream :=
  if s.keyAllowed then do
    let required := !s.inFlow && s.indent == s.mark.column
    let s ← s.dropKey
    return { s with key := some ⟨required, s.taken + s.queue.length, s.mark⟩ }
  else .ok s

/-! ## 2. Block collections -/

/-- Opens a block collection at `column` if that is further right than the innermost one.  Its
start goes to place `number` of the tokens. -/
def roll (s : TokenStream) (column : Nat) (number : Nat) (kind : TokenKind) (start : Mark) :
    Except Fault TokenStream :=
  if !s.inFlow && s.indent < column then
    if s.indents.length ≥ maxDepth then
      .error (.scanning .indentTooDeep ((s.key.map (·.mark)).getD {}) s.mark)
    else
      .ok { s with
        indents := s.indent :: s.indents
        indent := column
        queue := s.queue.insertIdx (number - s.taken) ⟨kind, start⟩ }
  else .ok s

/-- Opens a block collection here if needed. -/
def rollHere (s : TokenStream) (kind : TokenKind) : Except Fault TokenStream :=
  s.roll s.mark.column (s.taken + s.queue.length) kind s.mark

/-- Closes the block collections whose column is right of `column`. -/
def closeBlocks (column : Int) (place : Mark) : List Int → Int → List Token → Int × List Int × List Token
  | [], indent, queue => (indent, [], queue)
  | outer :: rest, indent, queue =>
    if indent > column then closeBlocks column place rest outer (queue ++ [⟨.blockEnd, place⟩])
    else (indent, outer :: rest, queue)

/-- Closes the block collections whose column is right of `column`, outside flow collections. -/
def unroll (s : TokenStream) (column : Int) : TokenStream :=
  if s.inFlow then s
  else
    let (indent, indents, queue) := closeBlocks column s.mark s.indents s.indent s.queue
    { s with indent, indents, queue }

/-! ## 3. White space and comments -/

/-- The number of characters between a line end and a comment that follows, when there is nothing
else between. -/
def commentAhead : Nat → List Char → Option Nat
  | 0, _ => none
  | _, [] => none
  | fuel + 1, ch :: t =>
    if ch = '#' then some 0
    else if ch = ' ' ∨ ch = '\t' ∨ ch = '\n' ∨ ch = '\r' then (commentAhead fuel t).map (· + 1)
    else none

/-- Moves over `n` characters of white space. -/
def skipWhite : Nat → Cursor → Cursor
  | 0, c => c
  | n + 1, c =>
    match c.rest with
    | '\r' :: '\n' :: _ => skipWhite (n - 1) c.skipLine
    | _ => skipWhite n (if isBreak c.head then c.skipLine else c.skip)

/-- Moves over a comment and the comments on the lines behind it. -/
def skipComments : Nat → Cursor → Except Fault Cursor
  | 0, c => .ok c
  | fuel + 1, c => do
    let c := c.skipToBreak
    c.need 1
    match c.rest with
    | ch :: t =>
      if ch.toNat < 128 then
        match commentAhead 511 t with
        | some n => skipComments fuel (skipWhite (n + 1) c)
        | none => return c
      else return c
    | [] => return c

/-- Moves over a comment on the line of the token that was just read. -/
def skipLineComment (c : Cursor) : Except Fault Cursor :=
  let blanks := (c.rest.takeWhile fun ch => isBlank (some ch)).length
  if c.newlines = 0 ∧ blanks < 512 ∧ c.peek blanks = some '#' then do
    let c := (c.skipN blanks).skipToBreak
    c.need 1
    return c
  else .ok c

/-- Moves to the next token.  A tab stands before a token only where no key may start. -/
def toNextToken : Nat → TokenStream → Except Fault TokenStream
  | 0, s => .ok s
  | fuel + 1, s => do
    let c := s.cursor
    c.need 1
    let c := if c.mark.column = 0 ∧ c.sees '\ufeff' then c.skip else c
    let tabs := s.inFlow || !s.keyAllowed
    let c := c.skipWhile fun ch => ch = some ' ' || (tabs && ch = some '\t')
    c.need 1
    let c ← if c.sees '#' then skipComments (c.rest.length + 1) c else .ok c
    if isBreak c.head then
      c.need 2
      toNextToken fuel { s with cursor := c.skipLine, keyAllowed := s.keyAllowed || !s.inFlow }
    else return { s with cursor := c }

/-! ## 4. Reading one token -/

/-- Reads the end of the text, which counts as a line of its own. -/
def fetchEnd (s : TokenStream) : Except Fault TokenStream := do
  let c := s.cursor
  let m := if c.mark.column = 0 then c.mark else ⟨c.mark.index, c.mark.line + 1, 0⟩
  let s := { s with cursor := { c with mark := m } }
  let s ← (s.unroll (-1)).dropKey
  return { s with keyAllowed := false }.push .streamEnd m s.cursor

/-- Reads a directive. -/
def fetchDirective (s : TokenStream) : Except Fault TokenStream := do
  let s ← (s.unroll (-1)).dropKey
  let (kind, c) ← directive s.cursor
  return { s with keyAllowed := false }.push kind s.mark c

/-- Reads the sign at the start or end of a document. -/
def fetchDocumentMark (s : TokenStream) (kind : TokenKind) : Except Fault TokenStream := do
  let s ← (s.unroll (-1)).dropKey
  return { s with keyAllowed := false }.push kind s.mark (s.cursor.skipN 3)

/-- Reads the start of a flow collection. -/
def fetchFlowStart (s : TokenStream) (kind : TokenKind) : Except Fault TokenStream := do
  let s ← s.saveKey
  if s.outer.length ≥ maxDepth then throw (.scanning .flowTooDeep {} s.mark)
  return { s with outer := s.key :: s.outer, key := none, keyAllowed := true }.pushSign kind

def fetchFlowEnd (s : TokenStream) (kind : TokenKind) : Except Fault TokenStream := do
  let s ← s.dropKey
  let s :=
    match s.outer with
    | k :: rest => { s with key := k, outer := rest }
    | [] => s
  return { s with keyAllowed := false }.pushSign kind

/-- Reads the comma between entries of a flow collection. -/
def fetchFlowEntry (s : TokenStream) : Except Fault TokenStream := do
  let s ← s.dropKey
  return { s with keyAllowed := true }.pushSign .flowEntry

/-- Reads the dash before an entry of a block sequence. -/
def fetchBlockEntry (s : TokenStream) : Except Fault TokenStream := do
  if !s.inFlow && !s.keyAllowed then throw (s.fault .blockEntryNotAllowed)
  let s ← s.rollHere .blockSequenceStart
  let s ← s.dropKey
  return { s with keyAllowed := true }.pushSign .blockEntry

/-- Reads the question mark before a key. -/
def fetchKey (s : TokenStream) : Except Fault TokenStream := do
  if !s.inFlow && !s.keyAllowed then throw (s.fault .keyNotAllowed)
  let s ← s.rollHere .blockMappingStart
  let s ← s.dropKey
  return { s with keyAllowed := !s.inFlow }.pushSign .key

/-- The possible key, if a colon here would make it one. -/
def validKey (s : TokenStream) : Except Fault (Option PossibleKey) :=
  match s.key with
  | some k => return if ← k.valid s.mark then some k else none
  | none => .ok none

/-- Reads the colon before a value.  If a key may have started, it has. -/
def fetchValue (s : TokenStream) : Except Fault TokenStream := do
  match ← s.validKey with
  | some k =>
    let s := { s with queue := s.queue.insertIdx (k.number - s.taken) ⟨.key, k.mark⟩ }
    let s ← s.roll k.mark.column k.number .blockMappingStart k.mark
    return { s with key := none, keyAllowed := false }.pushSign .value
  | none =>
    if !s.inFlow && !s.keyAllowed then throw (s.fault .valueNotAllowed)
    let s ← s.rollHere .blockMappingStart
    return { s with keyAllowed := !s.inFlow }.pushSign .value

/-- Reads a token that may start a key. -/
def fetchKeyPart (s : TokenStream) (read : Cursor → Except Fault (TokenKind × Cursor)) :
    Except Fault TokenStream := do
  let s ← s.saveKey
  let (kind, c) ← read s.cursor
  return { s with keyAllowed := false }.push kind s.mark c

def fetchBlockScalar (s : TokenStream) (literal : Bool) : Except Fault TokenStream := do
  let s ← s.dropKey
  let (text, c) ← blockScalar literal s.indent s.cursor
  let kind := TokenKind.scalar text (if literal then .literal else .folded)
  return { s with keyAllowed := true }.push kind s.mark c

/-- Reads a plain scalar.  A key may follow on the next line. -/
def fetchPlain (s : TokenStream) : Except Fault TokenStream := do
  let s ← s.saveKey
  let (text, broken, c) ← plainScalar s.inFlow (s.indent + 1) s.cursor
  return { s with keyAllowed := broken }.push (.scalar text .plain) s.mark c

/-- A plain scalar can start with the characters ahead. -/
def startsPlain (inFlow : Bool) (c : Cursor) : Bool :=
  match c.head with
  | none => false
  | some ch =>
    !(isBlankOrEnd (some ch) ||
      ch ∈ ['-', '?', ':', ',', '[', ']', '\x7b', '\x7d', '#', '&', '*', '!', '|', '>', '\x27', '"',
        '%', '@', '\x60']) ||
    (ch = '-' && !isBlank (c.peek 1)) ||
    (!inFlow && (ch = '?' || ch = ':') && !isBlankOrEnd (c.peek 1))

/-- Reads a token other than the end, a directive or a document mark. -/
def fetchContent (s : TokenStream) (ch : Char) : Except Fault TokenStream :=
  let c := s.cursor
  let apart := isBlankOrEnd (c.peek 1)
  if ch = '[' then s.fetchFlowStart .flowSequenceStart
  else if ch = '\x7b' then s.fetchFlowStart .flowMappingStart
  else if ch = ']' then s.fetchFlowEnd .flowSequenceEnd
  else if ch = '\x7d' then s.fetchFlowEnd .flowMappingEnd
  else if ch = ',' then s.fetchFlowEntry
  else if ch = '-' && apart then s.fetchBlockEntry
  else if ch = '?' && (s.inFlow || apart) then s.fetchKey
  else if ch = ':' && (s.inFlow || apart) then s.fetchValue
  else if ch = '*' then s.fetchKeyPart fun c => do
    let (name, c) ← anchorName c
    return (.alias name, c)
  else if ch = '&' then s.fetchKeyPart fun c => do
    let (name, c) ← anchorName c
    return (.anchor name, c)
  else if ch = '!' then s.fetchKeyPart tagToken
  else if ch = '|' && !s.inFlow then s.fetchBlockScalar true
  else if ch = '>' && !s.inFlow then s.fetchBlockScalar false
  else if ch = '\x27' then s.fetchKeyPart fun c => do
    let (text, c) ← quotedScalar true c
    return (.scalar text .singleQuoted, c)
  else if ch = '"' then s.fetchKeyPart fun c => do
    let (text, c) ← quotedScalar false c
    return (.scalar text .doubleQuoted, c)
  else if startsPlain s.inFlow c then s.fetchPlain
  else .error (s.fault .noToken)

/-- Reads the next token, and tells whether it was the last. -/
def fetch (s : TokenStream) : Except Fault (TokenStream × Bool) := do
  let s ← s.toNextToken (s.cursor.rest.length + 1)
  let s := s.unroll s.mark.column
  let c := s.cursor
  c.need 4
  match c.head with
  | none => return (← s.fetchEnd, true)
  | some ch =>
    if c.mark.column = 0 && ch = '%' then return (← s.fetchDirective, false)
    else if c.atDocumentMark then
      return (← s.fetchDocumentMark (if ch = '-' then .documentStart else .documentEnd), false)
    else
      let s ← s.fetchContent ch
      if s.queue.getLast?.any (·.kind = .blockEntry) then return (s, false)
      return ({ s with cursor := ← skipLineComment s.cursor }, false)

/-! ## 5. Handing out tokens -/

/-- The first token in the queue may still turn out to start a key. -/
def headMayBeKey (s : TokenStream) : Except Fault Bool :=
  match (s.key :: s.outer).findSome? fun k => k.filter (·.number = s.taken) with
  | some k => k.valid s.mark
  | none => .ok false

/-- Hands out tokens while at least `least` are in the queue and the first cannot start a key. -/
def deliver (least : Nat) : Nat → TokenStream → List Token × Except Fault TokenStream
  | 0, s => ([], .ok s)
  | fuel + 1, s =>
    match s.queue with
    | [] => ([], .ok s)
    | t :: rest =>
      if s.queue.length < least then ([], .ok s)
      else
        match s.headMayBeKey with
        | .error f => ([], .error f)
        | .ok true => ([], .ok s)
        | .ok false =>
          let (ts, after) := deliver least fuel { s with queue := rest, taken := s.taken + 1 }
          (t :: ts, after)

/-- Reads and hands out tokens until the text ends or a fault shows. -/
def run : Nat → TokenStream → List Token × Option Fault
  | 0, s => (s.queue, none)
  | fuel + 1, s =>
    match s.fetch with
    | .error f => ([], some f)
    | .ok (s, last) =>
      match deliver (if last then 1 else 3) s.queue.length s with
      | (ts, .error f) => (ts, some f)
      | (ts, .ok s) =>
        if last then (ts, none)
        else
          let (more, fault) := run fuel s
          (ts ++ more, fault)

end TokenStream

/-- The tokens of a text up to the first fault. -/
def tokens (i : Input) : List Token × Option Fault :=
  TokenStream.run (i.chars.length + 2) { cursor := Cursor.ofInput i }

end AgentKit.Yaml
