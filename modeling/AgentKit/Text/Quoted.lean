import AgentKit.Text.Utf8
import AgentKit.Text.Printable
/-!
# Quoted text

How messages show a text that may hold anything: between double quotes, with the quote and the
backslash escaped, printable characters as they are, the usual letters for the common controls and
hexadecimal numbers for the rest.
-/

namespace AgentKit.Quoted

/-- The digit for a number below 16. -/
def hexDigit (n : Nat) : UInt8 := byte (Nat.digitChar n)

/-- `n` in hexadecimal with exactly `width` digits. -/
def hex : Nat → Nat → Bytes
  | 0, _ => []
  | width + 1, n => hex width (n / 16) ++ [hexDigit (n % 16)]

/-- The letter that stands for a control character behind a backslash. -/
def controlLetter (c : Char) : Option Char :=
  match c.toNat with
  | 7 => some 'a'
  | 8 => some 'b'
  | 9 => some 't'
  | 10 => some 'n'
  | 11 => some 'v'
  | 12 => some 'f'
  | 13 => some 'r'
  | _ => none

/-- A character inside quotes of kind `quote`. -/
def escape (quote c : Char) : Bytes :=
  if c = quote ∨ c = '\\' then [byte '\\', byte c]
  else if isPrintable c then Utf8.encode c
  else
    match controlLetter c with
    | some l => [byte '\\', byte l]
    | none =>
      if c.toNat < 0x20 ∨ c.toNat = 0x7F then Bytes.ofString "\\x" ++ hex 2 c.toNat
      else if c.toNat < 0x10000 then Bytes.ofString "\\u" ++ hex 4 c.toNat
      else Bytes.ofString "\\U" ++ hex 8 c.toNat

/-- An item of a text inside double quotes; a stray byte shows its number. -/
def item : Rune → Bytes
  | .char c => escape '"' c
  | .stray b => Bytes.ofString "\\x" ++ hex 2 b.toNat

/-- The text between double quotes. -/
def text (t : Bytes) : Bytes :=
  byte '"' :: (Utf8.runes t).flatMap item ++ [byte '"']

def char (c : Char) : Bytes :=
  byte '\x27' :: escape '\x27' c ++ [byte '\x27']

end AgentKit.Quoted
