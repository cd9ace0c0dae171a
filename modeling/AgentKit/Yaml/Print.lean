import AgentKit.Yaml.Resolve
/-!
# Writing texts as YAML

A text is written plain where it reads back as that text.  Otherwise it is put in quotes, or, if it has
several lines, written as a block.  Lines are never folded.  Bytes that are not UTF-8 are written in
base 64.
-/

namespace AgentKit.Yaml.Print

/-! ## 1. Which styles a text allows -/

/-- The character can stand in a document as it is. -/
def isPrintable (c : Char) : Bool :=
  let n := c.toNat
  n == 0x0A || (0x20 ≤ n && n ≤ 0x7E) || (0xA0 ≤ n && n < 0x10000 && n != 0xFEFF && n < 0xFFFE)

/-- What matters about a text. -/
structure Traits where
  /-- It could be taken for something else in a block. -/
  indicators : Bool := false
  breaks : Bool := false
  /-- A tab. -/
  tab : Bool := false
  /-- A character that cannot stand as it is. -/
  special : Bool := false
  /-- A space or a line end at either end. -/
  ragged : Bool := false
  trailingSpace : Bool := false
  breakThenSpace : Bool := false
  spaceThenBreak : Bool := false

/-- A character that starts something else than a plain text. -/
def isStartIndicator (c : Char) (blankNext : Bool) : Bool :=
  c ∈ ['#', ',', '[', ']', '\x7b', '\x7d', '&', '*', '!', '|', '>', '\x27', '"', '%', '@', '\x60'] ||
    (c ∈ ['?', ':', '-'] && blankNext)

/-- A character that ends a plain text. -/
def isInnerIndicator (c : Char) (blankBefore blankNext : Bool) : Bool :=
  (c = ':' && blankNext) || (c = '#' && blankBefore)

/-- Gathers the traits of the characters behind `before`. -/
def traitsFrom (before : Option Char) : List Char → Traits → Traits
  | [], r => r
  | c :: t, r =>
    let blankNext := t.isEmpty || isBlank t.head?
    let indicator :=
      match before with
      | none => isStartIndicator c blankNext
      | some b => isInnerIndicator c (isBlankOrEnd (some b) || b.toNat == 0) blankNext
    let edge := before.isNone || t.isEmpty
    let space := c = ' '
    let brk := isBreakChar c
    traitsFrom (some c) t
      { indicators := r.indicators || indicator
        breaks := r.breaks || brk
        tab := r.tab || c = '\t'
        special := r.special || (c ≠ '\t' && !isPrintable c)
        ragged := r.ragged || (edge && (space || brk))
        trailingSpace := r.trailingSpace || (space && t.isEmpty)
        breakThenSpace := r.breakThenSpace || (space && before.any isBreakChar)
        spaceThenBreak := r.spaceThenBreak || (brk && before = some ' ') }

def traits (cs : List Char) : Traits :=
  let start := cs.take 3
  traitsFrom none cs
    { indicators := start = ['-', '-', '-'] || start = ['.', '.', '.'] }

/-- The text can be written plain. -/
def Traits.plain (r : Traits) : Bool :=
  !(r.indicators || r.breaks || r.tab || r.special || r.ragged || r.spaceThenBreak)

def Traits.single (r : Traits) : Bool :=
  !(r.tab || r.special || r.breakThenSpace || r.spaceThenBreak)

def Traits.block (r : Traits) : Bool :=
  !(r.special || r.trailingSpace || r.spaceThenBreak)

/-! ## 2. Texts that look like something else -/

/-- A number in base 60, such as a time of day. -/
def looksSexagesimal (t : Bytes) : Bool :=
  let u := if t.head? = some (byte '-') ∨ t.head? = some (byte '+') then t.drop 1 else t
  let whole := u.takeWhile (· ≠ byte '.')
  let fraction := u.drop (whole.length + 1)
  match Bytes.splitOn (byte ':') whole with
  | head :: group :: groups =>
    head.head?.any Timestamp.isDigit && head.all isDigitOrUnderscore &&
      fraction.all isDigitOrUnderscore &&
      (group :: groups).all fun g =>
        match g with
        | [a] => Timestamp.isDigit a
        | [a, b] => byte '0' ≤ a && a ≤ byte '5' && Timestamp.isDigit b
        | _ => false
  | _ => false

/-- A word that older readers take for a truth value. -/
def looksBoolean (t : Bytes) : Bool :=
  t ∈ (["y", "Y", "yes", "Yes", "YES", "on", "On", "ON", "n", "N", "no", "No", "NO", "off", "Off",
    "OFF"] : List Bytes)

/-- A plain text would be read as something else. -/
def looksOther (t : Bytes) : Bool :=
  (plainValue [] t).1 ≠ "!!str" || looksSexagesimal t || looksBoolean t

/-! ## 3. Styles -/

/-- A text in single quotes.  Behind a line end come `indent` spaces, which do not count. -/
def singleQuoted (indent : Nat) : Bool → List Char → Bytes
  | _, [] => [byte '\x27']
  | afterBreak, c :: t =>
    if c = ' ' then byte ' ' :: singleQuoted indent afterBreak t
    else if isBreakChar c then Utf8.encode c ++ singleQuoted indent true t
    else
      (if afterBreak then List.replicate indent (byte ' ') else []) ++
        (if c = '\x27' then [byte '\x27', byte '\x27'] else Utf8.encode c) ++
        singleQuoted indent false t

/-- The letters behind a backslash that stand for characters. -/
def escapeLetters : List (Nat × Char) := [
  (0x00, '0'), (0x07, 'a'), (0x08, 'b'), (0x09, 't'), (0x0A, 'n'), (0x0B, 'v'), (0x0C, 'f'),
  (0x0D, 'r'), (0x1B, 'e'), (0x22, '"'), (0x5C, '\\'), (0x85, 'N'), (0xA0, '_'), (0x2028, 'L'),
  (0x2029, 'P')]

/-- A number in capital hexadecimal digits. -/
def upperHex (width n : Nat) : Bytes :=
  (Quoted.hex width n).map fun b => if byte 'a' ≤ b ∧ b ≤ byte 'f' then b - 32 else b

/-- A character in double quotes. -/
def doubleQuotedChar (c : Char) : Bytes :=
  if !isPrintable c || isBreakChar c || c = '"' || c = '\\' then
    match escapeLetters.lookup c.toNat with
    | some l => [byte '\\', byte l]
    | none =>
      if c.toNat ≤ 0xFF then "\\x" ++ upperHex 2 c.toNat
      else if c.toNat ≤ 0xFFFF then "\\u" ++ upperHex 4 c.toNat
      else "\\U" ++ upperHex 8 c.toNat
  else Utf8.encode c

/-- A text in double quotes. -/
def doubleQuoted (cs : List Char) : Bytes :=
  byte '"' :: cs.flatMap doubleQuotedChar ++ [byte '"']

/-- What the first line of a block says about the rest: an indentation if the text starts with a space
or a line end, and what becomes of the line ends behind it. -/
def blockHints (cs : List Char) : Bytes :=
  let indentation : Bytes := if cs.head? = some ' ' ∨ isBreak cs.head? then "4" else []
  let chomping : Bytes :=
    match cs.reverse with
    | c :: rest =>
      if !isBreakChar c then "-"
      else if rest.isEmpty ∨ isBreak rest.head? then "+"
      else []
    | [] => "-"
  indentation ++ chomping

/-- The lines of a block.  `lineStart` tells that the next character starts a line, `fresh` that
this line has begun already. -/
def blockLines (indent : Nat) : Bool → Bool → List Char → Bytes
  | _, fresh, [] => if fresh then [] else [byte '\n']
  | lineStart, fresh, c :: t =>
    if isBreakChar c then Utf8.encode c ++ blockLines indent true true t
    else
      let start :=
        if lineStart then (if fresh then [] else [byte '\n']) ++ List.replicate indent (byte ' ') else []
      start ++ Utf8.encode c ++ blockLines indent false false t

/-- A text as a block. -/
def literalBlock (indent : Nat) (cs : List Char) : Bytes :=
  byte '|' :: blockHints cs ++ blockLines indent true false cs

/-- A text with the line end behind it, in the style that suits it; `plainAllowed` tells whether it
may be written plain. -/
def styled (indent : Nat) (plainAllowed : Bool) (t : Bytes) : Bytes :=
  let cs := Utf8.chars t
  let r := traits cs
  let double := doubleQuoted cs ++ [byte '\n']
  if cs.contains '\n' then if r.block then literalBlock indent cs else double
  else if !plainAllowed then double
  else if r.plain then t ++ [byte '\n']
  else if r.single then byte '\x27' :: singleQuoted indent false cs ++ [byte '\n']
  else double

/-- Base 64 in lines of 70 characters, in one line if it is shorter. -/
def base64Lines : Nat → Bytes → Bytes
  | 0, _ => []
  | fuel + 1, t => if t.isEmpty then [] else t.take 70 ++ byte '\n' :: base64Lines fuel (t.drop 70)

/-- A text with the line end behind it; `indent` is the column of its further lines. -/
def scalar (indent : Nat) (t : Bytes) : Bytes :=
  if Utf8.isValid t then styled indent (!looksOther t) t
  else
    let code := Base64.encode t
    "!!binary " ++ styled indent true (if code.length < 70 then code else base64Lines code.length code)

/-- A list of texts behind a key. -/
def items (ts : List Bytes) : Bytes :=
  if ts.isEmpty then " []\n"
  else byte '\n' :: ts.flatMap fun t => "    - " ++ scalar 6 t

end AgentKit.Yaml.Print
