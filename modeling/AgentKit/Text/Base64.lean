import AgentKit.Text.Bytes
/-!
# Base 64

Three bytes as four characters, the last group filled up with equals signs.  Reading passes over
line ends.
-/

namespace AgentKit.Base64

/-- The character for a number below 64. -/
def digit (n : Nat) : UInt8 :=
  if n < 26 then n.toUInt8 + byte 'A'
  else if n < 52 then (n - 26).toUInt8 + byte 'a'
  else if n < 62 then (n - 52).toUInt8 + byte '0'
  else if n = 62 then byte '+'
  else byte '/'

/-- The number a character stands for. -/
def value? (b : UInt8) : Option Nat :=
  if byte 'A' ≤ b ∧ b ≤ byte 'Z' then some (b - byte 'A').toNat
  else if byte 'a' ≤ b ∧ b ≤ byte 'z' then some ((b - byte 'a').toNat + 26)
  else if byte '0' ≤ b ∧ b ≤ byte '9' then some ((b - byte '0').toNat + 52)
  else if b = byte '+' then some 62
  else if b = byte '/' then some 63
  else none

/-- The characters of a text. -/
def encode : Bytes → Bytes
  | [] => []
  | [a] => [digit (a.toNat / 4), digit (a.toNat % 4 * 16), byte '=', byte '=']
  | [a, b] =>
    [digit (a.toNat / 4), digit (a.toNat % 4 * 16 + b.toNat / 16), digit (b.toNat % 16 * 4), byte '=']
  | a :: b :: c :: t =>
    digit (a.toNat / 4) :: digit (a.toNat % 4 * 16 + b.toNat / 16) ::
      digit (b.toNat % 16 * 4 + c.toNat / 64) :: digit (c.toNat % 64) :: encode t

/-- The text of characters without line ends. -/
def decodeGroups : Bytes → Option Bytes
  | [] => some []
  | [a, b, c, d] =>
    match value? a, value? b, value? c, value? d with
    | some w, some x, some y, some z =>
      some [(w * 4 + x / 16).toUInt8, (x % 16 * 16 + y / 4).toUInt8, (y % 4 * 64 + z).toUInt8]
    | some w, some x, some y, none =>
      if d = byte '=' then some [(w * 4 + x / 16).toUInt8, (x % 16 * 16 + y / 4).toUInt8] else none
    | some w, some x, none, none =>
      if c = byte '=' ∧ d = byte '=' then some [(w * 4 + x / 16).toUInt8] else none
    | _, _, _, _ => none
  | a :: b :: c :: d :: t =>
    match value? a, value? b, value? c, value? d with
    | some w, some x, some y, some z =>
      (decodeGroups t).map fun rest =>
        (w * 4 + x / 16).toUInt8 :: (x % 16 * 16 + y / 4).toUInt8 :: (y % 4 * 64 + z).toUInt8 :: rest
    | _, _, _, _ => none
  | _ => none

/-- The text of characters, `none` if they are not base 64. -/
def decode? (t : Bytes) : Option Bytes :=
  decodeGroups (t.filter fun b => b ≠ byte '\n' ∧ b ≠ byte '\r')

end AgentKit.Base64
