import AgentKit.Text.Bytes
/-!
# Characters in a text

A text of bytes read as UTF-8.  Each position holds a character or a **stray** byte, one that
starts no well-formed sequence.  A stray byte counts as one character and shows as U+FFFD, so every
text has a reading, and the reading loses nothing: each item carries its own bytes.
-/

namespace AgentKit

/-- One item of a text read as UTF-8. -/
inductive Rune where
  /-- A well-formed character. -/
  | char (c : Char)
  /-- A byte that belongs to no well-formed character. -/
  | stray (b : UInt8)
  deriving DecidableEq, Repr

namespace Rune

/-- The character shown for an item. -/
def value : Rune → Char
  | .char c => c
  | .stray _ => '�'

/-- The bytes an item was read from. -/
def bytes : Rune → Bytes
  | .char c => String.utf8EncodeChar c
  | .stray b => [b]

end Rune

namespace Utf8

/-- The bytes of a character. -/
def encode (c : Char) : Bytes := String.utf8EncodeChar c

def encodeAll (cs : List Char) : Bytes := cs.flatMap encode

/-- The byte is a continuation byte between `lo` and `hi`. -/
def tail (lo hi b : UInt8) : Bool := lo ≤ b && b ≤ hi

/-- The six low bits of a continuation byte. -/
def payload (b : UInt8) : Nat := b.toNat % 64

/-- The character that starts with byte `b` followed by `rest`, and how many bytes of `rest` it
takes. -/
def first (b : UInt8) (rest : Bytes) : Option (Char × Nat) :=
  if b < 0x80 then some (Char.ofNat b.toNat, 0)
  else if 0xC2 ≤ b ∧ b ≤ 0xDF then
    match rest with
    | x :: _ =>
      if tail 0x80 0xBF x then some (Char.ofNat (b.toNat % 32 * 64 + payload x), 1) else none
    | [] => none
  else if 0xE0 ≤ b ∧ b ≤ 0xEF then
    match rest with
    | x :: y :: _ =>
      let lo : UInt8 := if b = 0xE0 then 0xA0 else 0x80
      let hi : UInt8 := if b = 0xED then 0x9F else 0xBF
      if tail lo hi x && tail 0x80 0xBF y then
        some (Char.ofNat (b.toNat % 16 * 4096 + payload x * 64 + payload y), 2)
      else none
    | _ => none
  else if 0xF0 ≤ b ∧ b ≤ 0xF4 then
    match rest with
    | x :: y :: z :: _ =>
      let lo : UInt8 := if b = 0xF0 then 0x90 else 0x80
      let hi : UInt8 := if b = 0xF4 then 0x8F else 0xBF
      if tail lo hi x && tail 0x80 0xBF y && tail 0x80 0xBF z then
        some (Char.ofNat (b.toNat % 8 * 262144 + payload x * 4096 + payload y * 64 + payload z), 3)
      else none
    | _ => none
  else none

/-- The items of a text, after skipping the first `skip` bytes. -/
def runesFrom : Nat → Bytes → List Rune
  | _, [] => []
  | skip + 1, _ :: t => runesFrom skip t
  | 0, b :: t =>
    match first b t with
    | some (c, n) => .char c :: runesFrom n t
    | none => .stray b :: runesFrom 0 t

/-- The items of a text. -/
def runes (t : Bytes) : List Rune := runesFrom 0 t

/-- The characters shown for a text. -/
def chars (t : Bytes) : List Char := (runes t).map Rune.value

def length (t : Bytes) : Nat := (runes t).length

/-- No byte of the text is stray. -/
def isValid (t : Bytes) : Bool :=
  (runes t).all fun
    | .char _ => true
    | .stray _ => false

/-- The first item of a text and the number of bytes it takes; U+FFFD of width 0 at the end. -/
def decodeFirst : Bytes → Char × Nat
  | [] => ('�', 0)
  | b :: t =>
    match first b t with
    | some (c, n) => (c, n + 1)
    | none => ('�', 1)

end Utf8

end AgentKit
