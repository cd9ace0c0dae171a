import AgentKit.Yaml.Node
import AgentKit.Yaml.Value
import AgentKit.Text.Base64
/-!
# What a scalar stands for

A plain scalar without a tag may be a truth value, nothing, a number or a point in time, by its
text.  A tag says what it has to be.
-/

namespace AgentKit.Yaml

/-! ## 1. Tags -/

/-- A tag in its short form. -/
def shortTag (t : Bytes) : Bytes :=
  let long : Bytes := "tag:yaml.org,2002:"
  if long.isPrefixOf t then "!!" ++ t.drop long.length else t

/-- The tag decides between the kinds of plain values. -/
def isResolvable (t : Bytes) : Bool :=
  t ∈ [([] : Bytes), "!!str", "!!bool", "!!int", "!!float", "!!null", "!!timestamp"]

/-! ## 2. Numbers -/

/-- The digit a byte stands for in bases up to 36. -/
def digitValue? (b : UInt8) : Option Nat :=
  if byte '0' ≤ b ∧ b ≤ byte '9' then some (b - byte '0').toNat
  else if byte 'a' ≤ b ∧ b ≤ byte 'z' then some ((b - byte 'a').toNat + 10)
  else if byte 'A' ≤ b ∧ b ≤ byte 'Z' then some ((b - byte 'A').toNat + 10)
  else none

/-- The number that digits of a base give. -/
def natOf? (base : Nat) (t : Bytes) : Option Nat :=
  t.foldlM (fun n b =>
    match digitValue? b with
    | some d => if d < base then some (n * base + d) else none
    | none => none) 0

/-- The numbers of 64 bits with a sign lie below this one. -/
def signedBound : Nat := 0x8000000000000000

/-- A natural number of 64 bits.  Without a given base, a zero in front makes it octal and a
letter behind the zero tells the base. -/
def unsigned? (base : Option Nat) (t : Bytes) : Option Nat := do
  if t.isEmpty then none
  let n ←
    match base, t with
    | some b, _ => natOf? b t
    | none, 0x30 :: letter :: d :: rest =>
      if letter = byte 'b' ∨ letter = byte 'B' then natOf? 2 (d :: rest)
      else if letter = byte 'o' ∨ letter = byte 'O' then natOf? 8 (d :: rest)
      else if letter = byte 'x' ∨ letter = byte 'X' then natOf? 16 (d :: rest)
      else natOf? 8 (letter :: d :: rest)
    | none, 0x30 :: rest => natOf? 8 rest
    | none, _ => natOf? 10 t
  if n < 2 * signedBound then some n else none

/-- A whole number of 64 bits with a sign. -/
def signed? (base : Option Nat) (t : Bytes) : Option Int :=
  match t with
  | [] => none
  | s :: rest =>
    if s = byte '-' then do
      let n ← unsigned? base rest
      if n ≤ signedBound then some (-(n : Int)) else none
    else do
      let n ← unsigned? base (if s = byte '+' then rest else t)
      if n < signedBound then some (n : Int) else none

/-- A whole number of 64 bits, with or without a sign. -/
def whole? (base : Option Nat) (t : Bytes) : Option Int :=
  match signed? base t with
  | some n => some n
  | none => (unsigned? base t).map (fun (n : Nat) => (n : Int))

/-- A byte is a digit or an underscore. -/
def isDigitOrUnderscore (b : UInt8) : Bool := Timestamp.isDigit b || b = byte '_'

/-- Underscores stand between digits only.  `afterDigit` and `afterUnderscore` tell what comes
before. -/
def underscoresBetweenDigits : Bool → Bool → Bytes → Bool
  | _, afterUnderscore, [] => !afterUnderscore
  | afterDigit, afterUnderscore, b :: t =>
    if Timestamp.isDigit b then underscoresBetweenDigits true false t
    else if b = byte '_' then afterDigit && underscoresBetweenDigits false true t
    else !afterUnderscore && underscoresBetweenDigits false false t

/-- The exponent at the end of a number. -/
def exponent? (t : Bytes) : Option Int :=
  match t with
  | [] => some 0
  | e :: t =>
    if e = byte 'e' ∨ e = byte 'E' then
      let negative := t.head? = some (byte '-')
      let digits := if negative ∨ t.head? = some (byte '+') then t.drop 1 else t
      if digits.head?.any Timestamp.isDigit && digits.all isDigitOrUnderscore then
        let n := (Bytes.toNat? (digits.filter Timestamp.isDigit)).getD 0
        some (if negative then -(n : Int) else n)
      else none
    else none

/-- A number with a decimal point or an exponent. -/
def float? (t : Bytes) : Option Double := do
  let negative := t.head? = some (byte '-')
  let amount := if negative ∨ t.head? = some (byte '+') then t.drop 1 else t
  let whole := amount.takeWhile isDigitOrUnderscore
  let u := amount.drop whole.length
  let fraction := if u.head? = some (byte '.') then (u.drop 1).takeWhile isDigitOrUnderscore else []
  let u := if u.head? = some (byte '.') then u.drop (fraction.length + 1) else u
  let places := (fraction.filter Timestamp.isDigit).length
  let digits ← Bytes.toNat? ((whole ++ fraction).filter Timestamp.isDigit)
  let e ← exponent? u
  if underscoresBetweenDigits false false amount then Double.ofDecimal negative digits (e - places)
  else none

/-! ## 3. Plain values -/

/-- The words with a fixed meaning. -/
def wordValue? (t : Bytes) : Option (Bytes × Value) :=
  if t ∈ (["true", "True", "TRUE"] : List Bytes) then some ("!!bool", .bool true)
  else if t ∈ (["false", "False", "FALSE"] : List Bytes) then some ("!!bool", .bool false)
  else if t ∈ (["", "~", "null", "Null", "NULL"] : List Bytes) then some ("!!null", .null)
  else if t ∈ ([".nan", ".NaN", ".NAN"] : List Bytes) then some ("!!float", .float .nan)
  else if t ∈ ([".inf", ".Inf", ".INF", "+.inf", "+.Inf", "+.INF"] : List Bytes) then
    some ("!!float", .float (.infinite false))
  else if t ∈ (["-.inf", "-.Inf", "-.INF"] : List Bytes) then
    some ("!!float", .float (.infinite true))
  else none

/-- A number that starts with a sign or a digit.  Underscores do not count. -/
def numberValue? (t : Bytes) : Option (Bytes × Value) :=
  let plain := t.filter (· ≠ byte '_')
  let asInt (n : Option Int) : Option (Bytes × Value) := n.map fun n => ("!!int", .int n)
  let based (base : Nat) (letter : Char) : Option (Bytes × Value) :=
    if [byte '0', byte letter].isPrefixOf plain then asInt (whole? (some base) (plain.drop 2))
    else if [byte '-', byte '0', byte letter].isPrefixOf plain then
      asInt (signed? (some base) (byte '-' :: plain.drop 3))
    else none
  (asInt (whole? none plain)).or <|
    ((float? plain).map fun d => (("!!float" : Bytes), Value.float d)).or <|
      (based 2 'b').or (based 8 'o')

/-- The kind and value of a plain scalar, `tag` being what it is said to be. -/
def plainValue (tag t : Bytes) : Bytes × Value :=
  let asText : Bytes × Value := ("!!str", .text t)
  match wordValue? t with
  | some r => r
  | none =>
    match t with
    | [] => asText
    | b :: _ =>
      if b = byte '.' then ((float? t).map fun d => (("!!float" : Bytes), Value.float d)).getD asText
      else if b = byte '+' ∨ b = byte '-' ∨ Timestamp.isDigit b then
        let time := if tag.isEmpty ∨ tag = "!!timestamp" then Timestamp.ofBytes? t else none
        match time with
        | some ts => ("!!timestamp", .time ts)
        | none => (numberValue? t).getD asText
      else asText

/-- The kind and value of a scalar with a tag. -/
def resolve (tag t : Bytes) : Except Refusal (Bytes × Value) :=
  let tag := shortTag tag
  if !isResolvable tag then .ok (tag, .text t)
  else if tag = "!!str" then .ok ("!!str", .text t)
  else
    match plainValue tag t with
    | (kind, v) =>
      if tag.isEmpty ∨ tag = kind then .ok (kind, v)
      else
        match v with
        | .int n =>
          if tag = "!!float" ∧ -(signedBound : Int) ≤ n ∧ n < signedBound then
            .ok ("!!float", .float (.ofInt n))
          else .error (.undecodable kind t tag)
        | _ => .error (.undecodable kind t tag)

/-! ## 4. Nodes -/

/-- The tag of a scalar: its own, or the one its text implies. -/
def scalarTag (tag text : Bytes) (style : Style) : Bytes :=
  if !tag.isEmpty ∧ tag ≠ "!" then shortTag tag
  else if style ≠ .plain then "!!str"
  else if text = "<<" then "!!merge"
  else (plainValue [] text).1

/-- The value of a scalar. -/
def scalarValue (tag text : Bytes) (style : Style) : Except Refusal Value := do
  let tag := scalarTag tag text style
  if tag = "!!str" then return .text text
  let (kind, v) ← resolve tag text
  if kind = "!!binary" then
    match Base64.decode? text with
    | some t => return .text t
    | none => throw .invalidBase64
  return v

/-- The tag of a collection: its own, or the usual one. -/
def collectionTag (tag usual : Bytes) : Bytes :=
  if !tag.isEmpty ∧ tag ≠ "!" then shortTag tag else usual

def Node.effectiveTag : Node → Bytes
  | .scalar _ tag text style => scalarTag tag text style
  | .sequence _ tag _ => collectionTag tag "!!seq"
  | .mapping _ tag _ => collectionTag tag "!!map"
  | .alias .. => []

/-- The text of a node in messages. -/
def Node.text : Node → Bytes
  | .scalar _ _ text _ => text
  | .alias _ name _ => name
  | _ => []

end AgentKit.Yaml
