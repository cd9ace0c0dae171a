import AgentKit.Text.Quoted
/-!
# Text in JSON

How a text stands in a JSON document: between double quotes, with the quote, the backslash and control
characters escaped, and with them the characters that a web page could take for its own.
-/

namespace AgentKit.Json

/-- A character that stands in JSON as its number. -/
def isNumbered (c : Char) : Bool :=
  c.toNat < 0x20 || c = '<' || c = '>' || c = '&' || c = '\u2028' || c = '\u2029'

/-- A character inside quotes. -/
def escape (c : Char) : Bytes :=
  if c = '"' ∨ c = '\\' then [byte '\\', byte c]
  else if c = '\n' then "\\n"
  else if c.toNat = 8 then "\\b"
  else if c.toNat = 12 then "\\f"
  else if c = '\r' then "\\r"
  else if c = '\t' then "\\t"
  else if isNumbered c then ("\\u" : Bytes) ++ Quoted.hex 4 c.toNat
  else Utf8.encode c

/-- An item of a text inside quotes; a stray byte stands as the replacement character. -/
def item : Rune → Bytes
  | .char c => escape c
  | .stray _ => "\\ufffd"

/-- The text between double quotes. -/
def text (t : Bytes) : Bytes := byte '"' :: (Utf8.runes t).flatMap item ++ [byte '"']

end AgentKit.Json
