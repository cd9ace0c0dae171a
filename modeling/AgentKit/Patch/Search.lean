import AgentKit.Patch.Block
/-!
# Finding common blocks

The search walks the edit graph of two texts from both ends at once.  A point of the graph is a pair
of offsets; its diagonal is their difference.  After `d` rounds from the start, `reach d k` is the
largest first offset on diagonal `k` that `d` insertions and deletions lead to, and likewise the
smallest one from the end.  Where the two walks meet, their traces make an alignment.

Each side makes at most `maxRounds` rounds.  If they have not met by then, the best trace of each
side is taken and what contradicts is cut away, so for texts that differ much the alignment need not
be a longest one.
-/

namespace AgentKit.Patch

/-- The most rounds each side makes. -/
def maxRounds : Nat := 50

/-- For each number of rounds the offset reached on each diagonal; round `d` has the diagonals
`-d`, `-d + 2`, … `d`. -/
abbrev Reach := Array (Array Int)

/-- The offset reached after `d` rounds on diagonal `k`. -/
def Reach.at (r : Reach) (d k : Int) : Int :=
  (r.getD d.toNat #[]).getD ((d + k) / 2).toNat 0

/-- Diagonal `k` exists after `d` rounds. -/
def onGraph (d k : Int) : Bool := 0 ≤ d && -d ≤ k && k ≤ d

/-- The diagonals `lo`, `lo + 2`, … `hi`. -/
def diagonals (lo hi : Int) : List Int :=
  (List.range ((hi - lo) / 2 + 1).toNat).map fun (i : Nat) => lo + 2 * (i : Int)

/-! ## 1. Sliding along a diagonal -/

/-- The number of equal characters from `i` and `j` on, at most `n`. -/
def equalAhead (a b : Array Char) : Nat → Nat → Nat → Nat
  | 0, _, _ => 0
  | n + 1, i, j =>
    match a[i]?, b[j]? with
    | some c, some d => if c = d then equalAhead a b n (i + 1) (j + 1) + 1 else 0
    | _, _ => 0

/-- The number of equal characters before `i` and `j`. -/
def equalBehind (a b : Array Char) : Nat → Nat → Nat
  | i + 1, j + 1 =>
    match a[i]?, b[j]? with
    | some c, some d => if c = d then equalBehind a b i j + 1 else 0
    | _, _ => 0
  | _, _ => 0

/-- Slides forward from `x` on diagonal `k` inside the rectangle up to `ux`, `uy`. -/
def slideForward (a b : Array Char) (ux uy k x : Int) : Int :=
  let y := x - k
  if x < ux ∧ y < uy then x + equalAhead a b (min (ux - x) (uy - y)).toNat x.toNat y.toNat else x

/-- Slides backward from `x` on diagonal `k`, where `k` is a diagonal of the whole graph. -/
def slideBackward (a b : Array Char) (k x : Int) : Int :=
  let y := x - k
  if 0 < x ∧ 0 < y then x - equalBehind a b x.toNat y.toNat else x

/-! ## 2. Rounds -/

/-- The forward offsets after round `d + 1`, from those after round `d`. -/
def roundForward (a b : Array Char) (ux uy : Int) (r : Reach) (d : Int) : Array Int :=
  ((diagonals (-(d + 1)) (d + 1)).map fun k =>
    let slide := slideForward a b ux uy k
    if k = -(d + 1) then slide (r.at d (-d))
    else if k = d + 1 then slide (r.at d d + 1)
    else max (slide (r.at d (k - 1) + 1)) (slide (r.at d (k + 1)))).toArray

/-- The backward offsets after round `d + 1`, from those after round `d`; `delta` is the diagonal
of the graph's end. -/
def roundBackward (a b : Array Char) (delta : Int) (r : Reach) (d : Int) : Array Int :=
  ((diagonals (-(d + 1)) (d + 1)).map fun k =>
    let slide := slideBackward a b (k + delta)
    if k = -(d + 1) then slide (r.at d (-d) - 1)
    else if k = d + 1 then slide (r.at d d)
    else min (slide (r.at d (k - 1))) (slide (r.at d (k + 1) - 1))).toArray

/-! ## 3. Traces -/

/-- The blocks on the way from the start to the point `x` that `d` rounds reach on diagonal `k`. -/
def traceForward (r : Reach) : Nat → Int → Int → Int → List Block → List Block
  | 0, _, _, _, acc => acc
  | fuel + 1, d, k, x, acc =>
    if x = 0 ∧ k = 0 then acc
    else if onGraph (d - 1) (k - 1) ∧ x - 1 = r.at (d - 1) (k - 1) then
      traceForward r fuel (d - 1) (k - 1) (x - 1) acc
    else if onGraph (d - 1) (k + 1) ∧ x = r.at (d - 1) (k + 1) then
      traceForward r fuel (d - 1) (k + 1) x acc
    else traceForward r fuel d k (x - 1) (Block.pushFront (x - 1) (x - k - 1) acc)

/-- The blocks on the way to the graph's end `ux`, `uy` from the point that `d` backward rounds
reach on diagonal `k`, last one first. -/
def traceBackward (r : Reach) (ux uy : Int) : Nat → Int → Int → Int → List Block → List Block
  | 0, _, _, _, acc => acc
  | fuel + 1, d, k, x, acc =>
    let y := x - (k + (ux - uy))
    if x = ux ∧ y = uy then acc
    else if onGraph (d - 1) (k - 1) ∧ x = r.at (d - 1) (k - 1) then
      traceBackward r ux uy fuel (d - 1) (k - 1) x acc
    else if onGraph (d - 1) (k + 1) ∧ x + 1 = r.at (d - 1) (k + 1) then
      traceBackward r ux uy fuel (d - 1) (k + 1) (x + 1) acc
    else traceBackward r ux uy fuel d k (x + 1) (Block.pushBack x y acc)

/-- The blocks before the point that `d` forward rounds reach on diagonal `k`. -/
def blocksBefore (r : Reach) (d k : Int) : List Block :=
  let x := r.at d k
  traceForward r (x.toNat + (2 * d).toNat + 1) d k x []

/-- The blocks behind the point that `d` backward rounds reach on diagonal `k`. -/
def blocksBehind (r : Reach) (ux uy d k : Int) : List Block :=
  let x := r.at d k
  (traceBackward r ux uy ((ux - x).toNat + (2 * d).toNat + 1) d k x []).reverse

/-! ## 4. One side alone -/

/-- The best point of a round that lies inside the rectangle: the diagonal with the largest sum of
offsets. -/
def furthest (r : Reach) (ux uy d : Int) : Option Int :=
  ((diagonals (-d) d).foldl (fun (best : Option Int × Int) k =>
    let x := r.at d k
    let y := x - k
    if best.2 < x + y ∧ x ≤ ux ∧ y ≤ uy then (some k, x + y) else best) (none, -1)).1

/-- The best point of a backward round that lies inside the rectangle. -/
def nearest (r : Reach) (delta d : Int) : Option Int :=
  ((diagonals (-d) d).foldl (fun (best : Option Int × Int) k =>
    let x := r.at d k
    let y := x - (k + delta)
    if x + y < best.2 ∧ 0 ≤ x ∧ 0 ≤ y then (some k, x + y) else best) (none, 33554432)).1

/-- Walks forward only, round by round, to the corner `ux`, `uy`. -/
def forwardOnly (a b : Array Char) (ux uy : Int) : Nat → Reach → Int → List Block
  | rounds, r, d =>
    match (diagonals (-d) d).find? fun k => r.at d k = ux ∧ r.at d k - k = uy with
    | some k => blocksBefore r d k
    | none =>
      match rounds with
      | 0 =>
        match furthest r ux uy d with
        | some k => blocksBefore r d k
        | none => []
      | rounds + 1 => forwardOnly a b ux uy rounds (r.push (roundForward a b ux uy r d)) (d + 1)

/-! ## 5. Both sides -/

/-- A diagonal on which `df` forward and `db` backward rounds have met. -/
def meeting (f g : Reach) (ux uy df db : Int) : Option Int :=
  let delta := ux - uy
  if (df + db + delta) % 2 ≠ 0 then none
  else
    let ks := diagonals (max (-db + delta) (-df)) (min (db + delta) df)
    let met := ks.dropWhile fun k => f.at df k < g.at db (k - delta)
    match met with
    | [] => none
    | k :: _ =>
      (met.find? fun l =>
        let x := f.at df l
        let u := g.at db (l - delta)
        x = u ∨ u = 0 ∨ u - l = 0 ∨ x - l = uy ∨ x = ux).or (some k)

/-- The alignment once the walks have met on diagonal `k`. -/
def joined (a b : Array Char) (f g : Reach) (ux uy df db k : Int) : List Block :=
  let delta := ux - uy
  let x := f.at df k
  let y := x - k
  let kb := k - delta
  let u := g.at db kb
  let v := u - k
  let behind := blocksBehind g ux uy db kb
  if x = u then Block.sort (blocksBefore f df k ++ behind)
  else if 0 < u ∧ onGraph (df - 1) (k - 1) ∧ f.at (df - 1) (k - 1) = u - 1 then
    Block.sort (blocksBefore f (df - 1) (k - 1) ++ behind)
  else if 0 < v ∧ onGraph (df - 1) (k + 1) ∧ f.at (df - 1) (k + 1) = u then
    Block.sort (blocksBefore f (df - 1) (k + 1) ++ behind)
  else if u = 0 ∨ v = 0 then behind
  else if x = ux ∨ y = uy then blocksBefore f df k
  else if x + 1 ≤ ux ∧ onGraph (db - 1) (kb + 1) ∧ g.at (db - 1) (kb + 1) = x + 1 then
    Block.sort (blocksBehind g ux uy (db - 1) (kb + 1) ++ blocksBefore f df k)
  else if y + 1 ≤ uy ∧ onGraph (db - 1) (kb - 1) ∧ g.at (db - 1) (kb - 1) = x then
    Block.sort (blocksBehind g ux uy (db - 1) (kb - 1) ++ blocksBefore f df k)
  else
    Block.sort (behind ++ forwardOnly a b u v maxRounds #[#[slideForward a b u v 0 0]] 0)

/-- The alignment when the rounds are used up: the best trace of each side, reconciled. -/
def unmet (f g : Reach) (ux uy d : Int) : List Block :=
  let before :=
    match furthest f ux uy d with
    | some k => blocksBefore f d k
    | none => []
  let behind :=
    match nearest g (ux - uy) d with
    | some k => blocksBehind g ux uy d k
    | none => []
  Block.reconcile (before ++ behind)

/-- Rounds on both sides in turn, `d` of each being done. -/
def search (a b : Array Char) (ux uy : Int) : Nat → Reach → Reach → Int → List Block
  | 0, f, g, d => unmet f g ux uy d
  | rounds + 1, f, g, d =>
    match meeting f g ux uy d d with
    | some k => joined a b f g ux uy d d k
    | none =>
      let f := f.push (roundForward a b ux uy f d)
      match meeting f g ux uy (d + 1) d with
      | some k => joined a b f g ux uy (d + 1) d k
      | none => search a b ux uy rounds f (g.push (roundBackward a b (ux - uy) g d)) (d + 1)

/-- An alignment of two texts. -/
def align (a b : Array Char) : List Block :=
  let ux : Int := a.size
  let uy : Int := b.size
  search a b ux uy maxRounds #[#[slideForward a b ux uy 0 0]] #[#[slideBackward a b (ux - uy) ux]] 0

end AgentKit.Patch
