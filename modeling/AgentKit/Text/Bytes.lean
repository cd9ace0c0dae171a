import AgentKit.Sorting
/-!
# Text as bytes

Everything the program reads and writes is a list of bytes: file contents, arguments, path names
and messages.  Text arrives from outside and need not be UTF-8, and joining two texts has to join
their bytes, so `String` is used for literals only and `Utf8` gives the view by characters.

The functions here are the small vocabulary the other modules share: splitting at a byte, ordering
by bytes, numbers in decimal.
-/

namespace AgentKit

/-- Text of unknown encoding. -/
abbrev Bytes := List UInt8

/-- The byte of an ASCII character. -/
abbrev byte (c : Char) : UInt8 := c.toUInt8

namespace Bytes

/-- The UTF-8 bytes of a literal. -/
def ofString (s : String) : Bytes := s.toUTF8.data.toList

instance : Coe String Bytes := ⟨ofString⟩

/-- Whether a text is one of several. -/
instance decidableMem (t : Bytes) (ts : List Bytes) : Decidable (t ∈ ts) := inferInstance

/-- A number in decimal. -/
def ofNat (n : Nat) : Bytes := (Nat.toDigits 10 n).map byte

def ofInt : Int → Bytes
  | .ofNat n => ofNat n
  | .negSucc n => byte '-' :: ofNat (n + 1)

/-! ## 1. Order -/

/-- The order of bytes, a shorter text before its extensions. -/
def le : Bytes → Bytes → Bool
  | [], _ => true
  | _ :: _, [] => false
  | a :: s, b :: t => if a < b then true else if b < a then false else le s t

/-- The texts in ascending order. -/
def sort (xs : List Bytes) : List Bytes := sortBy le xs

/-! ## 2. Parts -/

/-- The parts between the occurrences of `sep`: one more than there are occurrences. -/
def splitOn (sep : UInt8) : Bytes → List Bytes
  | [] => [[]]
  | b :: t =>
    if b = sep then [] :: splitOn sep t
    else
      match splitOn sep t with
      | [] => [[b]]
      | p :: ps => (b :: p) :: ps

/-- The texts with `sep` between neighbours. -/
def joinWith (sep : Bytes) (xs : List Bytes) : Bytes := sep.intercalate xs

/-- The text up to the first `sep` and the text behind it. -/
def cut (sep : UInt8) : Bytes → Option (Bytes × Bytes)
  | [] => none
  | b :: t => if b = sep then some ([], t) else (cut sep t).map fun (p, q) => (b :: p, q)

/-- The text without `start`, where it begins with it. -/
def dropStart (start t : Bytes) : Bytes :=
  if start.isPrefixOf t then t.drop start.length else t

/-- The text without `ending`, where it ends with it. -/
def dropEnd (ending t : Bytes) : Bytes :=
  if ending.isSuffixOf t then t.take (t.length - ending.length) else t

/-- The part behind the last `sep`, the whole text if there is none. -/
def afterLast (sep : UInt8) (t : Bytes) : Bytes :=
  (t.reverse.takeWhile (· ≠ sep)).reverse

/-- The lines of a text, each with its newline; the last one may lack it. -/
def lines : Bytes → List Bytes
  | [] => []
  | b :: t =>
    if b = byte '\n' then [b] :: lines t
    else
      match lines t with
      | [] => [[b]]
      | p :: ps => (b :: p) :: ps

def isAscii (t : Bytes) : Bool := t.all (· < 0x80)

/-- The number that decimal digits stand for; `none` if there is another byte or no byte at all. -/
def toNat? (t : Bytes) : Option Nat :=
  if t.isEmpty then none
  else
    t.foldlM (fun n b =>
      if byte '0' ≤ b ∧ b ≤ byte '9' then some (n * 10 + (b - byte '0').toNat) else none) 0

end Bytes

end AgentKit
