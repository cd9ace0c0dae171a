import AgentKit.Yaml.Cursor
/-!
# Tokens

A text is cut into tokens before nodes are read from it.  Most tokens are the signs of the text;
the starts and ends of block collections are tokens too, although nothing but indentation shows
them.
-/

namespace AgentKit.Yaml

/-- How a scalar is written. -/
inductive Style where
  | plain
  | singleQuoted
  | doubleQuoted
  | literal
  | folded
  deriving DecidableEq, Repr

/-- What a token is. -/
inductive TokenKind where
  | streamStart
  | streamEnd
  | versionDirective (major minor : Nat)
  | tagDirective (handle start : Bytes)
  | documentStart
  | documentEnd
  | blockSequenceStart
  | blockMappingStart
  | blockEnd
  | flowSequenceStart
  | flowSequenceEnd
  | flowMappingStart
  | flowMappingEnd
  | blockEntry
  | flowEntry
  | key
  | value
  | alias (name : List Char)
  | anchor (name : List Char)
  | tag (handle suffix : Bytes)
  | scalar (text : List Char) (style : Style)
  deriving DecidableEq, Repr

/-- A token and the place where it starts. -/
structure Token where
  kind : TokenKind
  start : Mark
  deriving DecidableEq, Repr

end AgentKit.Yaml
