import AgentKit.Text.Bytes
/-!
# Records of comma-separated fields

One record of fields between commas.  A field in double quotes may hold commas, line ends and, written
twice, quotes; a field that does not start with a quote must not hold one.
-/

namespace AgentKit.Csv

/-- What is wrong with a record. -/
inductive Problem where
  | bareQuote
  | strayQuote
  deriving DecidableEq, Repr

/-- Why a text is no record. -/
inductive Fault where
  /-- There is no record at all. -/
  | empty
  /-- The record that starts on line `first` is wrong at `line` and `column`. -/
  | malformed (problem : Problem) (first line column : Nat)
  deriving DecidableEq, Repr

def Problem.message : Problem → Bytes
  | .bareQuote => "bare \" in non-quoted-field"
  | .strayQuote => "extraneous or missing \" in quoted-field"

def Fault.message : Fault → Bytes
  | .empty => "EOF"
  | .malformed problem first line column =>
    let place := "parse error on line " ++ Bytes.ofNat line ++ ", column " ++ Bytes.ofNat column ++
      ": " ++ problem.message
    if first = line then place else "record on line " ++ Bytes.ofNat first ++ "; " ++ place

/-! ## 1. Lines -/

/-- A line as it counts: a carriage return at its end does not. -/
def normalLine (l : Bytes) : Bytes :=
  match l.reverse with
  | 0x0A :: 0x0D :: t => (0x0A :: t).reverse
  | 0x0D :: t => t.reverse
  | _ => l

def withoutNewline (l : Bytes) : Bytes := Bytes.dropEnd [byte '\n'] l

/-- The text with line ends of a single newline, as it is after it has been written and read once
more. -/
def plainLineEnds : Bytes → Bytes
  | 0x0D :: 0x0A :: t => byte '\n' :: plainLineEnds t
  | b :: t => b :: plainLineEnds t
  | [] => []

/-! ## 2. Fields -/

/-- A place in a record. -/
structure Place where
  /-- The line on which the record starts. -/
  first : Nat
  line : Nat
  column : Nat

mutual

/-- The fields from the start of one on; `line` is the rest of its line, `more` the lines behind. -/
def fields : Nat → Place → Bytes → List Bytes → Except Fault (List Bytes)
  | 0, _, _, _ => .ok []
  | fuel + 1, p, line, more =>
    match line with
    | 0x22 :: rest => quoted fuel [] { p with column := p.column + 1 } rest more
    | _ =>
      let field := (withoutNewline line).takeWhile (· ≠ byte ',')
      let column := p.column + (field.takeWhile (· ≠ byte '"')).length
      if field.contains (byte '"') then .error (.malformed .bareQuote p.first p.line column)
      else
        match line.drop field.length with
        | 0x2C :: rest => do
          let p := { p with column := p.column + field.length + 1 }
          return field :: (← fields fuel p rest more)
        | _ => .ok [field]

/-- The fields from the inside of a quoted one on; `acc` is what it holds so far. -/
def quoted : Nat → Bytes → Place → Bytes → List Bytes → Except Fault (List Bytes)
  | 0, acc, _, _, _ => .ok [acc]
  | fuel + 1, acc, p, line, more =>
    let part := line.takeWhile (· ≠ byte '"')
    match line.drop part.length with
    | _ :: rest =>
      let p := { p with column := p.column + part.length + 1 }
      match rest with
      | 0x22 :: rest => quoted fuel (acc ++ part ++ [byte '"']) { p with column := p.column + 1 } rest more
      | 0x2C :: rest => do
        return (acc ++ part) :: (← fields fuel { p with column := p.column + 1 } rest more)
      | [] | [0x0A] => .ok [acc ++ part]
      | _ => .error (.malformed .strayQuote p.first p.line (p.column - 1))
    | [] =>
      match part, more with
      | [], _ => .error (.malformed .strayQuote p.first p.line p.column)
      | _, [] =>
        .error (.malformed .strayQuote p.first p.line (p.column + part.length))
      | _, [] :: _ =>
        .error (.malformed .strayQuote p.first p.line (p.column + part.length))
      | _, next :: more => quoted fuel (acc ++ part) { p with line := p.line + 1, column := 1 } next more

end

/-- The first record of lines, the first of which is line `number`.  Empty lines do not count. -/
def firstRecord (fuel : Nat) : Nat → List Bytes → Except Fault (List Bytes)
  | _, [] => .error .empty
  | number, l :: more =>
    if (withoutNewline l).isEmpty then firstRecord fuel (number + 1) more
    else fields fuel ⟨number, number, 1⟩ l more

/-- The fields of a text's first record.  An empty text has none. -/
def read (t : Bytes) : Except Fault (List Bytes) :=
  if t.isEmpty then .ok [] else firstRecord (2 * t.length + 2) 1 ((Bytes.lines t).map normalLine)

end AgentKit.Csv
