import AgentKit.Text.Bytes
/-!
# Binary floating-point numbers

A number with 53 binary digits, held as whole numbers so that reading and writing are exact
arithmetic.  A decimal is read as the nearest such number, a tie going to the even one.  A number is
written with the fewest decimal digits that read back as it, and of those with the ones nearest to
it.
-/

namespace AgentKit

/-- A number `± mantissa · 2 ^ exponent`, an infinity, or no number. -/
inductive Double where
  | finite (negative : Bool) (mantissa : Nat) (exponent : Int)
  | infinite (negative : Bool)
  | nan
  deriving DecidableEq, Repr

namespace Double

/-! ## 1. Reading -/

/-- The quotient rounded to the nearest whole number, a tie to the even one. -/
def roundDiv (num den : Nat) : Nat :=
  let q := num / den
  let r := num % den
  if 2 * r > den ∨ (2 * r = den ∧ q % 2 = 1) then q + 1 else q

/-- `n · base ^ e` as a fraction. -/
def scale (base : Nat) (n : Nat) (e : Int) : Nat × Nat :=
  match e with
  | .ofNat k => (n * Nat.pow base k, 1)
  | .negSucc k => (n, Nat.pow base (k + 1))

/-- The smallest exponent. -/
def minExponent : Int := -1074

def maxExponent : Int := 971

/-- The exponent for which `num / den` has a mantissa of 53 digits, or the smallest one. -/
def exponentFor (num den : Nat) : Int :=
  let guess : Int := (num.log2 : Int) - den.log2 - 53
  -- The guess is right or one too small.
  let (n, d) := scale 2 num (-guess)
  let e := if n / (d * den) < Nat.pow 2 53 then guess else guess + 1
  max e minExponent

/-- The number nearest to `± digits · 10 ^ e`; `none` if that is too large. -/
def ofDecimal (negative : Bool) (digits : Nat) (e : Int) : Option Double :=
  let size : Int := (Nat.toDigits 10 digits).length + e
  if digits = 0 ∨ size < -330 then some (.finite negative 0 minExponent)
  else if size > 310 then none
  else
    let (num, den) := scale 10 digits e
    let q := exponentFor num den
    let (n, d) := scale 2 num (-q)
    let m := roundDiv n (d * den)
    let (m, q) := if m = Nat.pow 2 53 then (Nat.pow 2 52, q + 1) else (m, q)
    if q > maxExponent then none else some (.finite negative m q)

/-- The number nearest to a whole number. -/
def ofInt (n : Int) : Double := (ofDecimal (n < 0) n.natAbs 0).getD (.infinite (n < 0))

/-! ## 2. Shortest digits -/

/-- A range of fractions with denominator `den`, and a number in it. -/
structure Interval where
  low : Nat
  value : Nat
  high : Nat
  den : Nat
  /-- The ends belong to the range. -/
  closed : Bool

/-- The reals that are read as `mantissa · 2 ^ exponent`. -/
def interval (m : Nat) (q : Int) : Interval :=
  -- Quarters of the last place, since the gap below a power of two is half as wide.
  let (unit, den) := scale 2 1 (q - 2)
  let below := if m = Nat.pow 2 52 ∧ q > minExponent then 1 else 2
  ⟨(4 * m - below) * unit, 4 * m * unit, (4 * m + 2) * unit, den, m % 2 = 0⟩

/-- `n · 10 ^ k` lies in the range. -/
def Interval.holds (i : Interval) (n : Nat) (k : Int) : Bool :=
  let (num, den) := scale 10 n k
  let x := num * i.den
  if i.closed then i.low * den ≤ x && x ≤ i.high * den
  else i.low * den < x && x < i.high * den

/-- Of the multiples of `10 ^ k` next to the number, the nearest that lies in the range. -/
def Interval.onGrid (i : Interval) (k : Int) : Option Nat :=
  let (unit, den) := scale 10 1 k
  let step := unit * i.den
  let below := i.value * den / step
  let nearest := roundDiv (i.value * den) step
  let other := if nearest = below then below + 1 else below
  if i.holds nearest k then some nearest else if i.holds other k then some other else none

/-- The number of digits of the whole part, or minus the number of zeros behind the point. -/
def Interval.magnitude (i : Interval) : Int :=
  if i.value ≥ i.den then (Nat.toDigits 10 (i.value / i.den)).length
  else
    let zeros := (Nat.toDigits 10 (i.den / i.value)).length
    -- One less if the number is a power of ten.
    if i.value * Nat.pow 10 (zeros - 1) ≥ i.den then 1 - (zeros - 1 : Nat) else 1 - (zeros : Nat)

/-- Tries the grids of one digit more each. -/
def shortestFrom (i : Interval) (magnitude : Int) : Nat → Nat → Nat × Int
  | 0, digits => (i.value / i.den, digits)
  | fuel + 1, digits =>
    let k := magnitude - digits
    match i.onGrid k with
    | some n => (n, k)
    | none => shortestFrom i magnitude fuel (digits + 1)

/-- Drops zeros at the end. -/
def trimZeros : Nat → Nat → Int → Nat × Int
  | 0, n, k => (n, k)
  | fuel + 1, n, k => if n ≠ 0 ∧ n % 10 = 0 then trimZeros fuel (n / 10) (k + 1) else (n, k)

/-- The shortest decimal `n · 10 ^ k` that is read as `m · 2 ^ q`. -/
def shortest (m : Nat) (q : Int) : Nat × Int :=
  if m = 0 then (0, 0)
  else
    let i := interval m q
    let (n, k) := shortestFrom i i.magnitude 18 1
    trimZeros 400 n k

/-! ## 3. Writing -/

def sign (negative : Bool) : Bytes := if negative then "-" else []

/-- `digits · 10 ^ k` without an exponent. -/
def positional (digits : Bytes) (k : Int) : Bytes :=
  match k with
  | .ofNat z => digits ++ List.replicate z (byte '0')
  | .negSucc z =>
    let places := z + 1
    let padded := List.replicate (places + 1 - digits.length) (byte '0') ++ digits
    padded.take (padded.length - places) ++ byte '.' :: padded.drop (padded.length - places)

/-- `digits · 10 ^ k` with one digit before the point and an exponent of at least two digits. -/
def exponential (digits : Bytes) (k : Int) : Bytes :=
  let e : Int := k + digits.length - 1
  let power := Bytes.ofNat e.natAbs
  let fraction := if digits.length > 1 then byte '.' :: digits.drop 1 else []
  digits.take 1 ++ fraction ++ byte 'e' :: (if e < 0 then byte '-' else byte '+') ::
    (if power.length < 2 then byte '0' :: power else power)

/-- The number without an exponent. -/
def plain : Double → Bytes
  | .nan => "NaN"
  | .infinite negative => if negative then "-Inf" else "+Inf"
  | .finite negative m q =>
    let (n, k) := shortest m q
    sign negative ++ positional (Bytes.ofNat n) k

/-- The number, with an exponent if it is below 0.0001 or has more than six digits before the
point. -/
def general (d : Double) : Bytes :=
  match d with
  | .finite negative m q =>
    let (n, k) := shortest m q
    let digits := Bytes.ofNat n
    let e : Int := k + digits.length - 1
    if n ≠ 0 ∧ (e < -4 ∨ e ≥ 6) then sign negative ++ exponential digits k
    else sign negative ++ positional digits k
  | _ => d.plain

end Double

end AgentKit
