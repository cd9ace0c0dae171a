import AgentKit.Text.Bytes
/-!
# What can be wrong with a YAML text

A fault is found while decoding the bytes, while cutting the text into tokens, or while reading
nodes from the tokens.  Its message names a line in the last two cases, unless the line is the first
one of the text.
-/

namespace AgentKit.Yaml

/-- A place in a text: characters from the start, lines from the start, characters from the start
of the line, all counted from 0. -/
structure Mark where
  index : Nat := 0
  line : Nat := 0
  column : Nat := 0
  deriving DecidableEq, Repr

/-- What is wrong. -/
inductive Problem where
  -- bytes
  | invalidLeadingOctet
  | incompleteOctets
  | invalidTrailingOctet
  | invalidOctetLength
  | invalidUnicode
  | incompleteUnit
  | unexpectedLowSurrogate
  | incompleteSurrogatePair
  | expectedLowSurrogate
  | controlCharacter
  -- tokens
  | noToken
  | noSimpleKey
  | blockEntryNotAllowed
  | keyNotAllowed
  | valueNotAllowed
  | flowTooDeep
  | indentTooDeep
  | unknownDirective
  | directiveTail
  | noDirectiveName
  | directiveNameTail
  | versionSeparator
  | versionTooLong
  | noVersion
  | tagDirectiveBlank
  | tagDirectiveTail
  | anchorName
  | tagClose
  | tagTail
  | tagBang
  | tagUri
  | uriOctet
  | uriLeadingOctet
  | uriTrailingOctet
  | zeroIndentation
  | blockScalarTail
  | blockScalarTab
  | documentIndicator
  | unexpectedEnd
  | unknownEscape
  | hexDigits
  | invalidEscapeCode
  | plainTab
  -- nodes
  | noDocumentStart
  | duplicateVersion
  | incompatibleVersion
  | duplicateTagDirective
  | undefinedTagHandle
  | noNodeContent
  | noBlockEntry
  | noKey
  | flowSequenceEnd
  | flowMappingEnd
  deriving DecidableEq, Repr

def Problem.message : Problem → Bytes
  | .invalidLeadingOctet => "invalid leading UTF-8 octet"
  | .incompleteOctets => "incomplete UTF-8 octet sequence"
  | .invalidTrailingOctet => "invalid trailing UTF-8 octet"
  | .invalidOctetLength => "invalid length of a UTF-8 sequence"
  | .invalidUnicode => "invalid Unicode character"
  | .incompleteUnit => "incomplete UTF-16 character"
  | .unexpectedLowSurrogate => "unexpected low surrogate area"
  | .incompleteSurrogatePair => "incomplete UTF-16 surrogate pair"
  | .expectedLowSurrogate => "expected low surrogate area"
  | .controlCharacter => "control characters are not allowed"
  | .noToken => "found character that cannot start any token"
  | .noSimpleKey => "could not find expected ':'"
  | .blockEntryNotAllowed => "block sequence entries are not allowed in this context"
  | .keyNotAllowed => "mapping keys are not allowed in this context"
  | .valueNotAllowed => "mapping values are not allowed in this context"
  | .flowTooDeep => "exceeded max depth of 10000"
  | .indentTooDeep => "exceeded max depth of 10000"
  | .unknownDirective => "found unknown directive name"
  | .directiveTail => "did not find expected comment or line break"
  | .noDirectiveName => "could not find expected directive name"
  | .directiveNameTail => "found unexpected non-alphabetical character"
  | .versionSeparator => "did not find expected digit or '.' character"
  | .versionTooLong => "found extremely long version number"
  | .noVersion => "did not find expected version number"
  | .tagDirectiveBlank => "did not find expected whitespace"
  | .tagDirectiveTail => "did not find expected whitespace or line break"
  | .anchorName => "did not find expected alphabetic or numeric character"
  | .tagClose => "did not find the expected '>'"
  | .tagTail => "did not find expected whitespace or line break"
  | .tagBang => "did not find expected '!'"
  | .tagUri => "did not find expected tag URI"
  | .uriOctet => "did not find URI escaped octet"
  | .uriLeadingOctet => "found an incorrect leading UTF-8 octet"
  | .uriTrailingOctet => "found an incorrect trailing UTF-8 octet"
  | .zeroIndentation => "found an indentation indicator equal to 0"
  | .blockScalarTail => "did not find expected comment or line break"
  | .blockScalarTab => "found a tab character where an indentation space is expected"
  | .documentIndicator => "found unexpected document indicator"
  | .unexpectedEnd => "found unexpected end of stream"
  | .unknownEscape => "found unknown escape character"
  | .hexDigits => "did not find expected hexdecimal number"
  | .invalidEscapeCode => "found invalid Unicode character escape code"
  | .plainTab => "found a tab character that violates indentation"
  | .noDocumentStart => "did not find expected <document start>"
  | .duplicateVersion => "found duplicate %YAML directive"
  | .incompatibleVersion => "found incompatible YAML document"
  | .duplicateTagDirective => "found duplicate %TAG directive"
  | .undefinedTagHandle => "found undefined tag handle"
  | .noNodeContent => "did not find expected node content"
  | .noBlockEntry => "did not find expected '-' indicator"
  | .noKey => "did not find expected key"
  | .flowSequenceEnd => "did not find expected ',' or ']'"
  | .flowMappingEnd => "did not find expected ',' or '\x7d'"

/-- A problem and where it shows. -/
inductive Fault where
  /-- In the bytes. -/
  | decoding (problem : Problem)
  /-- In the token that starts at `start`, at the place `stop`. -/
  | scanning (problem : Problem) (start stop : Mark)
  /-- In the node that starts at `start`, at the token at `stop`. -/
  | parsing (problem : Problem) (start stop : Mark)
  deriving DecidableEq, Repr

/-- The line number shown for a fault: that of the start, or else of the stop, where the first line
of the text shows as none. -/
def Fault.shownLine : Fault → Option Nat
  | .decoding _ => none
  | .scanning _ start stop =>
    if start.line ≠ 0 then some (start.line + 1)
    else if stop.line ≠ 0 then some (stop.line + 1)
    else none
  | .parsing _ start stop =>
    if start.line ≠ 0 then some start.line
    else if stop.line ≠ 0 then some stop.line
    else none

def Fault.problem : Fault → Problem
  | .decoding p => p
  | .scanning p _ _ => p
  | .parsing p _ _ => p

def Fault.message (f : Fault) : Bytes :=
  match f.shownLine with
  | some n => "line " ++ Bytes.ofNat n ++ ": " ++ f.problem.message
  | none => f.problem.message

end AgentKit.Yaml
