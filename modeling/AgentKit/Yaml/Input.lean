import AgentKit.Yaml.Fault
/-!
# Characters of a YAML text

The bytes are UTF-8, or UTF-16 after a byte order mark, and only printable characters, tabs and line
ends are allowed.  The bytes are decoded block by block, as far as the reader of the text has come.
A bad byte therefore shows as soon as its block is needed, before anything that is wrong with the
characters of that block, but after what is wrong with earlier ones.
-/

namespace AgentKit.Yaml

/-- The characters of a text up to the first bad byte. -/
structure Input where
  chars : List Char
  /-- The bad byte's problem, and the number of characters in the blocks before it. -/
  bad : Option (Problem × Nat) := none
  deriving DecidableEq, Repr

/-- How the bytes spell characters. -/
inductive Encoding where
  | utf8
  | utf16le
  | utf16be
  deriving DecidableEq, Repr

namespace Input

/-- The encoding a text announces, and the number of bytes that do so. -/
def encodingOf : Bytes → Encoding × Nat
  | 0xFF :: 0xFE :: _ => (.utf16le, 2)
  | 0xFE :: 0xFF :: _ => (.utf16be, 2)
  | 0xEF :: 0xBB :: 0xBF :: _ => (.utf8, 3)
  | _ => (.utf8, 0)

/-- The character may stand in a text. -/
def allowed (n : Nat) : Bool :=
  n == 0x09 || n == 0x0A || n == 0x0D || (0x20 ≤ n && n ≤ 0x7E) || n == 0x85 ||
    (0xA0 ≤ n && n ≤ 0xD7FF) || (0xE000 ≤ n && n ≤ 0xFFFD) || (0x10000 ≤ n && n ≤ 0x10FFFF)

/-- The number of bytes of the UTF-8 sequence that starts with `b`. -/
def width (b : UInt8) : Option Nat :=
  if b < 0x80 then some 1
  else if b.toNat / 32 = 6 then some 2
  else if b.toNat / 16 = 14 then some 3
  else if b.toNat / 8 = 30 then some 4
  else none

/-- A character and the number of its bytes, a problem, or `none` if the bytes end within it. -/
abbrev Decoded := Option (Except Problem (Nat × Nat))

/-- The value of a UTF-8 sequence whose leading bits are `n`. -/
def joinTail : Nat → Bytes → Except Problem Nat
  | n, [] => .ok n
  | n, b :: t =>
    if b.toNat / 64 = 2 then joinTail (n * 64 + b.toNat % 64) t else .error .invalidTrailingOctet

/-- The first UTF-8 character. -/
def nextUtf8 (b : UInt8) (t : Bytes) : Decoded :=
  match width b with
  | none => some (.error .invalidLeadingOctet)
  | some w =>
    let tail := t.take (w - 1)
    if tail.length + 1 < w then none
    else
      let lead := if w = 1 then b.toNat else b.toNat % Nat.pow 2 (7 - w)
      some <| do
        let n ← joinTail lead tail
        if (w = 2 ∧ n < 0x80) ∨ (w = 3 ∧ n < 0x800) ∨ (w = 4 ∧ n < 0x10000) then
          throw .invalidOctetLength
        if (0xD800 ≤ n ∧ n ≤ 0xDFFF) ∨ n > 0x10FFFF then throw .invalidUnicode
        return (n, w)

/-- The value of two bytes. -/
def unit (e : Encoding) (a b : UInt8) : Nat :=
  if e = .utf16le then b.toNat * 256 + a.toNat else a.toNat * 256 + b.toNat

/-- The first UTF-16 character. -/
def nextUtf16 (e : Encoding) (a : UInt8) (t : Bytes) : Decoded :=
  match t with
  | [] => none
  | b :: t =>
    let n := unit e a b
    if n / 1024 = 0xDC00 / 1024 then some (.error .unexpectedLowSurrogate)
    else if n / 1024 = 0xD800 / 1024 then
      match t with
      | c :: d :: _ =>
        let m := unit e c d
        if m / 1024 = 0xDC00 / 1024 then some (.ok (0x10000 + n % 1024 * 1024 + m % 1024, 4))
        else some (.error .expectedLowSurrogate)
      | _ => none
    else some (.ok (n, 2))

/-- The first character. -/
def next (e : Encoding) (b : UInt8) (t : Bytes) : Decoded :=
  if e = .utf8 then nextUtf8 b t else nextUtf16 e b t

/-- The problem of bytes that end within a character. -/
def endProblem (e : Encoding) (rest : Bytes) : Problem :=
  if e = .utf8 then .incompleteOctets
  else if rest.length < 2 then .incompleteUnit
  else .incompleteSurrogatePair

def blockSize : Nat := 512

/-- Decodes from `t` on.  `blockLeft` bytes of the present block are left; `count` characters and,
of them, `before` in earlier blocks have been read. -/
def decodeFrom (e : Encoding) : Nat → Nat → Nat → Nat → Bytes → List Char × Option (Problem × Nat)
  | 0, _, _, _, _ => ([], none)
  | _ + 1, _, _, _, [] => ([], none)
  | fuel + 1, blockLeft, before, count, b :: t =>
    -- A character that does not fit into the block starts the next one.
    let fits : Bool := match next e b t with
      | some (.ok (_, w)) => w ≤ blockLeft
      | some (.error _) => blockLeft ≠ 0 ∧ (width b).all (· ≤ blockLeft)
      | none => false
    let (blockLeft, before) := if fits then (blockLeft, before) else (blockSize, count)
    match next e b t with
    | none => ([], some (endProblem e (b :: t), before))
    | some (.error p) => ([], some (p, before))
    | some (.ok (n, w)) =>
      if allowed n then
        let (cs, bad) := decodeFrom e fuel (blockLeft - w) before (count + 1) (t.drop (w - 1))
        (Char.ofNat n :: cs, bad)
      else ([], some (.controlCharacter, before))

/-- Decodes a text. -/
def ofBytes (t : Bytes) : Input :=
  let (e, skip) := encodingOf t
  let rest := t.drop skip
  let (cs, bad) := decodeFrom e (rest.length + 1) (blockSize - skip) 0 0 rest
  ⟨cs, bad⟩

end Input

end AgentKit.Yaml
