import AgentKit.Yaml.Token
import AgentKit.Text.Utf8
/-!
# Anchors, tags and directives

The tokens that describe a node or a document rather than being part of it.
-/

namespace AgentKit.Yaml

/-- The characters of a name. -/
def word (c : Cursor) : List Char × Cursor :=
  (c.rest.takeWhile fun ch => isWord (some ch), c.skipWhile isWord)

/-- The name of an anchor or alias; the cursor is at the sign before it. -/
def anchorName (c : Cursor) : Except Fault (List Char × Cursor) := do
  let start := c.mark
  let (name, c) := word c.skip
  c.need 1
  if name.isEmpty ||
      !(isBlankOrEnd c.head || c.head.any (· ∈ ['?', ':', ',', ']', '\x7d', '%', '@', '\x60'])) then
    throw (.scanning .anchorName start c.mark)
  return (name, c)

/-! ## 1. Tags -/

/-- The length of the UTF-8 sequence that starts with an octet. -/
def octetWidth (n : Nat) : Option Nat :=
  if n < 0x80 then some 1
  else if n / 32 = 6 then some 2
  else if n / 16 = 14 then some 3
  else if n / 8 = 30 then some 4
  else none

/-- An octet written as a percent sign and two digits. -/
def uriOctet (start : Mark) (c : Cursor) : Except Fault (Nat × Cursor) :=
  match c.rest with
  | '%' :: a :: b :: _ =>
    match hexNumber? [a, b] with
    | some n => .ok (n, c.skipN 3)
    | none => .error (.scanning .uriOctet start c.mark)
  | _ => .error (.scanning .uriOctet start c.mark)

/-- The further octets of a character. -/
def uriTail (start : Mark) : Nat → Cursor → Except Fault (Bytes × Cursor)
  | 0, c => .ok ([], c)
  | n + 1, c => do
    c.need 3
    let (octet, c') ← uriOctet start c
    if octet / 64 ≠ 2 then throw (.scanning .uriTrailingOctet start c.mark)
    let (rest, c') ← uriTail start n c'
    return (octet.toUInt8 :: rest, c')

/-- A character written as octets. -/
def uriEscape (start : Mark) (c : Cursor) : Except Fault (Bytes × Cursor) := do
  c.need 3
  let (octet, c') ← uriOctet start c
  match octetWidth octet with
  | none => throw (.scanning .uriLeadingOctet start c.mark)
  | some w =>
    let (rest, c') ← uriTail start (w - 1) c'
    return (octet.toUInt8 :: rest, c')

/-- A character of a tag. -/
def isUriChar (c : Option Char) : Bool :=
  isWord c || c.any fun ch => ch ∈ [';', '/', '?', ':', '@', '&', '=', '+', '$', ',', '.', '!', '~',
    '*', '\x27', '(', ')', '[', ']', '%']

/-- The characters of a tag, octets decoded. -/
def uriChars (start : Mark) : Nat → Cursor → Except Fault (Bytes × Cursor)
  | 0, c => .ok ([], c)
  | fuel + 1, c =>
    match c.head with
    | none => .ok ([], c)
    | some ch =>
      if isUriChar (some ch) then do
        let (part, c) ← if ch = '%' then uriEscape start c else .ok (Utf8.encode ch, c.skip)
        c.need 1
        let (rest, c) ← uriChars start fuel c
        return (part ++ rest, c)
      else .ok ([], c)

/-- The rest of a tag behind `given`, the characters read already. -/
def tagUri (start : Mark) (given : List Char) (c : Cursor) : Except Fault (Bytes × Cursor) := do
  let (text, c') ← uriChars start c.rest.length c
  if given.isEmpty && c'.mark.index = c.mark.index then throw (.scanning .tagUri start c'.mark)
  return (Utf8.encodeAll (given.drop 1) ++ text, c')

/-- A handle: a word between exclamation marks, the second of which may be missing outside a
directive. -/
def tagHandle (directive : Bool) (start : Mark) (c : Cursor) :
    Except Fault (List Char × Cursor) := do
  if !c.sees '!' then throw (.scanning .tagBang start c.mark)
  let (name, c) := word c.skip
  c.need 1
  if c.sees '!' then return ('!' :: name ++ ['!'], c.skip)
  if directive && !name.isEmpty then throw (.scanning .tagBang start c.mark)
  return ('!' :: name, c)

/-- A tag as handle and suffix; the cursor is at its exclamation mark. -/
def tagToken (c : Cursor) : Except Fault (TokenKind × Cursor) := do
  let start := c.mark
  c.need 2
  let (handle, suffix, c) ←
    if c.peek 1 = some '<' then do
      let (suffix, c) ← tagUri start [] c.skip.skip
      if !c.sees '>' then throw (.scanning .tagClose start c.mark)
      pure (([] : Bytes), suffix, c.skip)
    else do
      let (handle, c) ← tagHandle false start c
      if handle.length > 1 && handle.getLast? = some '!' then
        let (suffix, c) ← tagUri start [] c
        pure (Utf8.encodeAll handle, suffix, c)
      else
        let (suffix, c) ← tagUri start handle c
        -- A mark on its own is a tag without handle.
        if suffix.isEmpty then pure ([], "!", c) else pure ("!", suffix, c)
  c.need 1
  if !isBlankOrEnd c.head then throw (.scanning .tagTail start c.mark)
  return (.tag handle suffix, c)

/-! ## 2. Directives -/

/-- A number of a version, of one or two digits. -/
def versionNumber (start : Mark) (c : Cursor) : Except Fault (Nat × Cursor) := do
  let digits := c.rest.takeWhile (·.isDigit)
  if digits.length > 2 then throw (.scanning .versionTooLong start (c.skipN 2).mark)
  if digits.isEmpty then throw (.scanning .noVersion start c.mark)
  return (digits.foldl (fun n ch => n * 10 + (ch.toNat - 48)) 0, c.skipN digits.length)

/-- The version of a document's language. -/
def versionDirective (start : Mark) (c : Cursor) : Except Fault (TokenKind × Cursor) := do
  let (major, c) ← versionNumber start (c.skipWhile isBlank)
  if !c.sees '.' then throw (.scanning .versionSeparator start c.mark)
  let (minor, c) ← versionNumber start c.skip
  return (.versionDirective major minor, c)

/-- A handle and what it stands for. -/
def tagDirective (start : Mark) (c : Cursor) : Except Fault (TokenKind × Cursor) := do
  let (handle, c) ← tagHandle true start (c.skipWhile isBlank)
  if !isBlank c.head then throw (.scanning .tagDirectiveBlank start c.mark)
  let (uri, c) ← tagUri start [] (c.skipWhile isBlank)
  if !isBlankOrEnd c.head then throw (.scanning .tagDirectiveTail start c.mark)
  return (.tagDirective (Utf8.encodeAll handle) uri, c)

/-- A directive with its line; the cursor is at the percent sign. -/
def directive (c : Cursor) : Except Fault (TokenKind × Cursor) := do
  let start := c.mark
  let (name, c) := word c.skip
  c.need 1
  if name.isEmpty then throw (.scanning .noDirectiveName start c.mark)
  if !isBlankOrEnd c.head then throw (.scanning .directiveNameTail start c.mark)
  let (kind, c) ←
    if name = ['Y', 'A', 'M', 'L'] then versionDirective start c
    else if name = ['T', 'A', 'G'] then tagDirective start c
    else throw (.scanning .unknownDirective start c.mark)
  let c := c.skipWhile isBlank
  let c := if c.sees '#' then c.skipToBreak else c
  c.need 1
  if !isBreakOrEnd c.head then throw (.scanning .directiveTail start c.mark)
  return (kind, if isBreak c.head then c.skipLine else c)

end AgentKit.Yaml
