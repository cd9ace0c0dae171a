import AgentKit.Sorting
/-!
# Common blocks of two texts

Two texts are aligned by blocks: a block says that `len` characters from offset `x` of the first
text equal as many from offset `y` of the second.  An alignment is a list of blocks in which both
offsets move forward.  This module holds the operations on such lists that do not look at the texts:
growing a list by one pair of characters, ordering it, and choosing from blocks that contradict each
other.
-/

namespace AgentKit.Patch

/-- `len` characters from `x` on equal those from `y` on. -/
structure Block where
  x : Int
  y : Int
  len : Int
  deriving DecidableEq, Repr

namespace Block

/-- Adds the pair at `x`, `y` in front of the blocks, as part of the first one if it adjoins. -/
def pushFront (x y : Int) : List Block → List Block
  | [] => [⟨x, y, 1⟩]
  | d :: ds => if d.x = x + 1 ∧ d.y = y + 1 then ⟨x, y, d.len + 1⟩ :: ds else ⟨x, y, 1⟩ :: d :: ds

/-- Adds the pair at `x`, `y` behind the blocks, which are given last one first. -/
def pushBack (x y : Int) : List Block → List Block
  | [] => [⟨x, y, 1⟩]
  | d :: ds =>
    if d.x + d.len = x ∧ d.y + d.len = y then { d with len := d.len + 1 } :: ds
    else ⟨x, y, 1⟩ :: d :: ds

/-- By offset in the first text, at equal offsets the longer block first. -/
def sort (bs : List Block) : List Block :=
  sortBy (fun a b => if a.x = b.x then a.len ≥ b.len else a.x < b.x) bs

/-! ## 1. Blocks that contradict each other -/

/-- How a block stands to one that is kept. -/
inductive Fit where
  /-- Nothing of it is left. -/
  | empty
  /-- It lies before or behind in both texts. -/
  | apart
  /-- It lies before in one text and behind in the other. -/
  | crossed
  deriving DecidableEq, Repr

/-- Takes `n` characters off the end. -/
def dropBack (n : Int) (p : Block) : Block := { p with len := p.len - n }

def dropFront (n : Int) (p : Block) : Block := ⟨p.x + n, p.y + n, p.len - n⟩

/-- Cuts from the end of `p` what reaches into `kept`, by the offsets `off`. -/
def trimBack (off : Block → Int) (kept p : Block) : Block :=
  if off p ≤ off kept ∧ off kept < off p + p.len then dropBack (off p + p.len - off kept) p else p

/-- Cuts from the start of `p` what `kept` reaches into, by the offsets `off`. -/
def trimFront (off : Block → Int) (kept p : Block) : Block :=
  if off kept ≤ off p ∧ off p < off kept + kept.len then dropFront (off kept + kept.len - off p) p else p

/-- The cuts in the order they are made; the first that leaves nothing ends them. -/
def trim (kept : Block) : List (Block → Block → Block) → Block → Fit × Block
  | [], p =>
    if p.x + p.len ≤ kept.x ∧ p.y + p.len ≤ kept.y then (.apart, p)
    else if kept.x + kept.len ≤ p.x ∧ kept.y + kept.len ≤ p.y then (.apart, p)
    else (.crossed, p)
  | cut :: cuts, p =>
    let q := cut kept p
    if q.len ≤ 0 ∧ q ≠ p then (.empty, q) else trim kept cuts q

/-- What is left of `p` beside the block `kept`. -/
def beside (kept p : Block) : Fit × Block :=
  trim kept [trimBack x, trimFront x, trimBack y, trimFront y] p

/-- What is left of `p` beside all the blocks kept so far. -/
def besideAll : List Block → Block → Option Block
  | [], p => if p.len > 0 then some p else none
  | kept :: rest, p =>
    match beside kept p with
    | (.apart, q) => besideAll rest q
    | _ => none

/-- Keeps blocks in turn as far as they agree with those kept before. -/
def keepAgreeing (bs : List Block) : List Block :=
  bs.foldl (fun kept p => match besideAll kept p with
    | some q => kept ++ [q]
    | none => kept) []

/-- An alignment from blocks that may contradict each other: longer ones come first. -/
def reconcile (bs : List Block) : List Block :=
  sort (keepAgreeing (sortBy (fun a b => a.len ≥ b.len) bs))

end Block

end AgentKit.Patch
