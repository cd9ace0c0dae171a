import AgentKit.Text.Bytes
/-!
# Points in time

A date with a time of day and a distance from universal time, as texts write it: `2020-1-2`,
`2020-01-02 10:00:00.5`, `2020-01-02T10:00:00+02:00`.
-/

namespace AgentKit

/-- A point in time as read on a clock that is `offset` minutes ahead of universal time. -/
structure Timestamp where
  year : Nat
  month : Nat
  day : Nat
  hour : Nat := 0
  minute : Nat := 0
  second : Nat := 0
  nanosecond : Nat := 0
  offset : Int := 0
  deriving DecidableEq, Repr

namespace Timestamp

/-! ## 1. Reading -/

def isDigit (b : UInt8) : Bool := byte '0' ≤ b && b ≤ byte '9'

/-- A number of one or two digits. -/
def shortNumber : Bytes → Option (Nat × Bytes)
  | [] => none
  | a :: t =>
    if !isDigit a then none
    else
      let n := (a - byte '0').toNat
      match t with
      | b :: u => if isDigit b then some (n * 10 + (b - byte '0').toNat, u) else some (n, t)
      | [] => some (n, t)

def twoDigits : Bytes → Option (Nat × Bytes)
  | a :: b :: t =>
    if isDigit a ∧ isDigit b then some ((a - byte '0').toNat * 10 + (b - byte '0').toNat, t) else none
  | _ => none

/-- The text behind a sign. -/
def sign (s : Char) : Bytes → Option Bytes
  | b :: t => if b = byte s then some t else none
  | [] => none

/-- The number of days in a month. -/
def daysIn (year month : Nat) : Nat :=
  if month = 2 then
    if year % 4 = 0 ∧ (year % 100 ≠ 0 ∨ year % 400 = 0) then 29 else 28
  else if month ∈ [4, 6, 9, 11] then 30
  else 31

/-- The date at the start of a text. -/
def date (t : Bytes) : Option (Timestamp × Bytes) := do
  let year ← Bytes.toNat? (t.take 4)
  let (month, t) ← shortNumber (← sign '-' (t.drop 4))
  let (day, t) ← shortNumber (← sign '-' t)
  if month < 1 ∨ 12 < month ∨ day < 1 ∨ daysIn year month < day then none
  return ({ year, month, day }, t)

/-- The fraction of a second at the start of a text, cut to nanoseconds. -/
def fraction (t : Bytes) : Nat × Bytes :=
  match t with
  | p :: t' =>
    let digits := t'.takeWhile isDigit
    if (p = byte '.' ∨ p = byte ',') ∧ !digits.isEmpty then
      let nine := (digits ++ List.replicate 9 (byte '0')).take 9
      ((Bytes.toNat? nine).getD 0, t'.drop digits.length)
    else (0, t)
  | [] => (0, t)

/-- The time of day at the start of a text. -/
def clock (d : Timestamp) (t : Bytes) : Option (Timestamp × Bytes) := do
  let (hour, t) ← shortNumber t
  let (minute, t) ← shortNumber (← sign ':' t)
  let (second, t) ← shortNumber (← sign ':' t)
  if hour ≥ 24 ∨ minute ≥ 60 ∨ second ≥ 60 then none
  let (nanosecond, t) := fraction t
  return ({ d with hour, minute, second, nanosecond }, t)

/-- The distance from universal time, which ends the text. -/
def zone (d : Timestamp) (t : Bytes) : Option Timestamp :=
  match t with
  | [] => none
  | s :: t' =>
    if s = byte 'Z' then if t'.isEmpty then some d else none
    else do
      let (hours, u) ← twoDigits t'
      let (minutes, u) ← twoDigits (← sign ':' u)
      if !u.isEmpty ∨ hours > 24 ∨ minutes > 60 then none
      let offset : Int := hours * 60 + minutes
      if s = byte '+' then some { d with offset := offset }
      else if s = byte '-' then some { d with offset := -offset }
      else none

/-- The point in time a text gives. -/
def ofBytes? (t : Bytes) : Option Timestamp := do
  if (t.takeWhile isDigit).length ≠ 4 then none
  let (d, rest) ← date t
  match rest with
  | [] => some d
  | s :: rest' =>
    if s = byte 'T' ∨ s = byte 't' then
      let (d, u) ← clock d rest'
      zone d u
    else if s = byte ' ' then
      let (d, u) ← clock d (rest'.dropWhile (· = byte ' '))
      if u.isEmpty then some d else none
    else none

/-! ## 2. Writing -/

/-- A number with at least `width` digits. -/
def padded (width n : Nat) : Bytes :=
  let digits := Bytes.ofNat n
  List.replicate (width - digits.length) (byte '0') ++ digits

/-- The fraction of a second without zeros at its end. -/
def fractionText (n : Nat) : Bytes :=
  if n = 0 then []
  else byte '.' :: ((padded 9 n).reverse.dropWhile (· = byte '0')).reverse

/-- The distance from universal time in hours and minutes. -/
def offsetText (offset : Int) : Bytes :=
  (if offset < 0 then byte '-' else byte '+') ::
    padded 2 (offset.natAbs / 60) ++ padded 2 (offset.natAbs % 60)

/-- The point in time with the name of its zone; a zone without a name shows its offset again. -/
def text (t : Timestamp) : Bytes :=
  padded 4 t.year ++ "-" ++ padded 2 t.month ++ "-" ++ padded 2 t.day ++ " " ++
    padded 2 t.hour ++ ":" ++ padded 2 t.minute ++ ":" ++ padded 2 t.second ++
    fractionText t.nanosecond ++ " " ++ offsetText t.offset ++ " " ++
    (if t.offset = 0 then ("UTC" : Bytes) else offsetText t.offset)

/-! ## 3. Counting from an epoch -/

/-- The date `days` days after the first of January 1970.  Days are counted from the first of March of
year 0, so that a leap day ends a year. -/
def ofDays (days : Nat) : Timestamp :=
  let n := days + 719468
  let era := n / 146097
  let dayOfEra := n % 146097
  let yearOfEra := (dayOfEra - dayOfEra / 1460 + dayOfEra / 36524 - dayOfEra / 146096) / 365
  let dayOfYear := dayOfEra - (365 * yearOfEra + yearOfEra / 4 - yearOfEra / 100)
  let month := (5 * dayOfYear + 2) / 153
  let day := dayOfYear - (153 * month + 2) / 5 + 1
  let year := yearOfEra + era * 400
  if month < 10 then { year, month := month + 3, day } else { year := year + 1, month := month - 9, day }

/-- The point in time that many nanoseconds after the start of 1970, in universal time. -/
def ofNanoseconds (n : Nat) : Timestamp :=
  let seconds := n / 1000000000
  { ofDays (seconds / 86400) with
    hour := seconds % 86400 / 3600
    minute := seconds % 3600 / 60
    second := seconds % 60
    nanosecond := n % 1000000000 }

/-- The point in time as diagnostics give it, in universal time. -/
def stamp (t : Timestamp) : Bytes :=
  padded 4 t.year ++ "-" ++ padded 2 t.month ++ "-" ++ padded 2 t.day ++ "T" ++
    padded 2 t.hour ++ ":" ++ padded 2 t.minute ++ ":" ++ padded 2 t.second ++
    fractionText t.nanosecond ++ "Z"

end Timestamp

end AgentKit
