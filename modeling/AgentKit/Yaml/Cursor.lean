import AgentKit.Yaml.Input
/-!
# A place in the characters of a text

The cursor holds the characters that are still to be read and the place they stand at.  Behind the
last character the text ends; `none` stands for that end.
-/

namespace AgentKit.Yaml

/-! ## 1. Kinds of characters -/

def isBlank : Option Char → Bool
  | some c => c = ' ' || c = '\t'
  | none => false

/-- The character ends a line. -/
def isBreakChar (c : Char) : Bool :=
  c = '\n' || c = '\r' || c.toNat = 0x85 || c.toNat = 0x2028 || c.toNat = 0x2029

/-- The end of a line. -/
def isBreak : Option Char → Bool
  | some c => isBreakChar c
  | none => false

/-- The end of a line or of the text. -/
def isBreakOrEnd (c : Option Char) : Bool := c.isNone || isBreak c

/-- A space, a tab, the end of a line or of the text. -/
def isBlankOrEnd (c : Option Char) : Bool := isBlank c || isBreakOrEnd c

/-- A character of a name. -/
def isWord : Option Char → Bool
  | some c => c.isAlphanum || c = '_' || c = '-'
  | none => false

def isDigit : Option Char → Bool
  | some c => c.isDigit
  | none => false

/-- The value of a hexadecimal digit. -/
def hexValue? (c : Char) : Option Nat :=
  if c.isDigit then some (c.toNat - 48)
  else if 'a' ≤ c ∧ c ≤ 'f' then some (c.toNat - 87)
  else if 'A' ≤ c ∧ c ≤ 'F' then some (c.toNat - 55)
  else none

/-- The value of hexadecimal digits. -/
def hexNumber? (cs : List Char) : Option Nat :=
  cs.foldlM (fun n ch => (hexValue? ch).map (n * 16 + ·)) 0

/-! ## 2. The cursor -/

/-- A place in a text. -/
structure Cursor where
  rest : List Char
  mark : Mark := {}
  /-- The number of line ends since the last character that is not blank. -/
  newlines : Nat := 0
  /-- The bad byte behind the characters, if there is one. -/
  bad : Option (Problem × Nat) := none

namespace Cursor

/-- The start of a text. -/
def ofInput (i : Input) : Cursor := { rest := i.chars, bad := i.bad }

/-- The character `k` places ahead. -/
def peek (c : Cursor) (k : Nat) : Option Char := c.rest[k]?

def head (c : Cursor) : Option Char := c.rest.head?

def sees (c : Cursor) (ch : Char) : Bool := c.head = some ch

/-- Fails if the next `n` characters reach into a block with a bad byte. -/
def need (c : Cursor) (n : Nat) : Except Fault Unit :=
  match c.bad with
  | some (p, limit) => if limit < c.mark.index + n then .error (.decoding p) else .ok ()
  | none => .ok ()

/-- Moves over one character. -/
def skip (c : Cursor) : Cursor :=
  match c.rest with
  | [] => c
  | ch :: t =>
    { c with
      rest := t
      mark := { c.mark with index := c.mark.index + 1, column := c.mark.column + 1 }
      newlines := if isBlank (some ch) then c.newlines else 0 }

def skipN : Nat → Cursor → Cursor
  | 0, c => c
  | n + 1, c => skipN n c.skip

/-- Moves over the end of a line, which a carriage return and a newline make together. -/
def skipLine (c : Cursor) : Cursor :=
  let move (n : Nat) (t : List Char) : Cursor :=
    { c with
      rest := t
      mark := ⟨c.mark.index + n, c.mark.line + 1, 0⟩
      newlines := c.newlines + 1 }
  match c.rest with
  | '\r' :: '\n' :: t => move 2 t
  | ch :: t => if isBreakChar ch then move 1 t else c
  | [] => c

/-- The end of a line as it stands in a value: a newline, except for the two separators of
Unicode. -/
def lineText (c : Cursor) : List Char :=
  match c.rest with
  | ch :: _ =>
    if ch = '\r' ∨ ch = '\n' ∨ ch.toNat = 0x85 then ['\n'] else if isBreakChar ch then [ch] else []
  | [] => []

/-- Moves over the characters while `p` holds. -/
def skipWhile (p : Option Char → Bool) (c : Cursor) : Cursor :=
  skipN (c.rest.takeWhile fun ch => p (some ch)).length c

/-- Moves to the end of the line. -/
def skipToBreak (c : Cursor) : Cursor := c.skipWhile fun ch => !isBreakOrEnd ch

/-- A document starts or ends here. -/
def atDocumentMark (c : Cursor) : Bool :=
  c.mark.column = 0 && isBlankOrEnd (c.peek 3) &&
    (c.rest.take 3 = ['-', '-', '-'] || c.rest.take 3 = ['.', '.', '.'])

end Cursor

end AgentKit.Yaml
