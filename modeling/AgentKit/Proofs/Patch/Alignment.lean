import AgentKit.Patch.Search
import AgentKit.Proofs.Order
/-!
# The search finds an alignment

Whatever two texts are given to it, `align` answers with blocks that hold (their characters are the same
in both texts) and that follow each other in both texts (`align_alignment`).  Nothing is said about how
many characters they leave out: the search gives up after a number of rounds, and an alignment is all
that a patch needs to be right.

1. **Lists of blocks.**  Blocks that are apart from each other become an alignment by sorting
   (`sort_alignment`), and choosing from blocks that contradict each other leaves blocks that are apart
   (`reconcile_alignment`).

2. **What is known of a reached point** (`Forward`, `Backward`).  The offset that a round reaches on a
   diagonal is either entered from a neighbour of the round before or is the corner, and from there on all
   pairs of characters up to it are equal.  Each round keeps this, and a trace only follows it back, so a
   trace holds however it ends.

3. **Where the walks meet**, the forward trace ends before the backward trace begins; `joined_alignment`
   goes through the ways in which they can be put together.

The search is the greedy one in the graph of edits.  A point has an offset `x` in the first text and `y` in the second,
and its diagonal is `x - y`.  Going right leaves out a character of the first text and going down one of the second; going
along a diagonal pairs equal characters and is free.  Round `d` has for each diagonal the furthest point that can be
reached with `d` characters left out.  These points lie on every second diagonal from `-d` to `d` (`OnRound`).  A second
search starts at the other end of both texts and goes backward, and the two take turns.

That points are furthest is not proved and not needed.  What makes blocks hold is only that a walk goes along a
diagonal where characters are equal.
-/

namespace AgentKit.Patch

/-! ## 1. Lists of blocks

Offsets are integers, since walks may leave the texts.  A block that holds cannot: its pairs have characters. -/

/-- The two texts have the same character at these offsets. -/
def Paired (a b : Array Char) (x y : Int) : Prop :=
  0 ≤ x ∧ 0 ≤ y ∧ ∃ c, a[x.toNat]? = some c ∧ b[y.toNat]? = some c

namespace Block

/-- The block has characters, and they are the same in both texts. -/
def Holds (a b : Array Char) (d : Block) : Prop :=
  0 < d.len ∧ ∀ i, 0 ≤ i → i < d.len → Paired a b (d.x + i) (d.y + i)

/-- The block ends before the other begins, in both texts. -/
def Before (d e : Block) : Prop := d.x + d.len ≤ e.x ∧ d.y + d.len ≤ e.y

/-- One of the two blocks lies before the other. -/
def Apart (d e : Block) : Prop := d.Before e ∨ e.Before d

theorem Apart.symm {d e : Block} (h : d.Apart e) : e.Apart d := Or.symm h

/-- A part of the block. -/
def Within (q p : Block) : Prop := p.x ≤ q.x ∧ q.x - p.x = q.y - p.y ∧ q.x + q.len ≤ p.x + p.len

end Block

/-- Blocks that hold, one behind the other. -/
structure Alignment (a b : Array Char) (bs : List Block) : Prop where
  holds : ∀ d ∈ bs, d.Holds a b
  ordered : bs.Pairwise Block.Before

/-- An alignment of what lies from `x`, `y` up to `u`, `v`. -/
structure Between (a b : Array Char) (x y u v : Int) (bs : List Block) : Prop extends Alignment a b bs where
  front : ∀ d ∈ bs, x ≤ d.x ∧ y ≤ d.y
  back : ∀ d ∈ bs, d.x + d.len ≤ u ∧ d.y + d.len ≤ v

variable {a b : Array Char} {bs cs : List Block} {x y u v : Int}

theorem between_nil : Between a b x y u v [] where
  holds := by simp
  ordered := List.Pairwise.nil
  front := by simp
  back := by simp

theorem Between.mono {x' y' u' v' : Int} (h : Between a b x y u v bs) (hx : x' ≤ x) (hy : y' ≤ y)
    (hu : u ≤ u') (hv : v ≤ v') : Between a b x' y' u' v' bs where
  holds := h.holds
  ordered := h.ordered
  front d hd := ⟨Int.le_trans hx (h.front d hd).1, Int.le_trans hy (h.front d hd).2⟩
  back d hd := ⟨Int.le_trans (h.back d hd).1 hu, Int.le_trans (h.back d hd).2 hv⟩

theorem Between.before {x' y' u' v' : Int} (h : Between a b x y u v bs) (h' : Between a b x' y' u' v' cs)
    (hx : u ≤ x') (hy : v ≤ y') : ∀ d ∈ bs, ∀ e ∈ cs, d.Before e := fun d hd e he =>
  ⟨Int.le_trans (h.back d hd).1 (Int.le_trans hx (h'.front e he).1),
    Int.le_trans (h.back d hd).2 (Int.le_trans hy (h'.front e he).2)⟩

/-- An alignment with a first block is that block and an alignment behind it. -/
theorem between_cons {d : Block} : Between a b x y u v (d :: bs) ↔ d.Holds a b ∧ (x ≤ d.x ∧ y ≤ d.y) ∧
    (d.x + d.len ≤ u ∧ d.y + d.len ≤ v) ∧ Between a b (d.x + d.len) (d.y + d.len) u v bs := by
  constructor
  · intro h
    obtain ⟨hbefore, hordered⟩ := List.pairwise_cons.mp h.ordered
    exact ⟨h.holds d List.mem_cons_self, h.front d List.mem_cons_self, h.back d List.mem_cons_self,
      ⟨⟨fun e he => h.holds e (List.mem_cons_of_mem _ he), hordered⟩, hbefore,
        fun e he => h.back e (List.mem_cons_of_mem _ he)⟩⟩
  · rintro ⟨hd, hfront, hback, h⟩
    have hlen := hd.1
    refine ⟨⟨List.forall_mem_cons.mpr ⟨hd, h.holds⟩, List.pairwise_cons.mpr ⟨h.front, h.ordered⟩⟩,
      List.forall_mem_cons.mpr ⟨hfront, fun e he => ?_⟩, List.forall_mem_cons.mpr ⟨hback, h.back⟩⟩
    have := h.front e he
    omega

/-- An alignment with a last block is that block and an alignment before it. -/
theorem between_concat {d : Block} : Between a b x y u v (bs ++ [d]) ↔ d.Holds a b ∧ (x ≤ d.x ∧ y ≤ d.y) ∧
    (d.x + d.len ≤ u ∧ d.y + d.len ≤ v) ∧ Between a b x y d.x d.y bs := by
  have hself : d ∈ bs ++ [d] := List.mem_append_right _ List.mem_cons_self
  constructor
  · intro h
    obtain ⟨hordered, -, hbefore⟩ := List.pairwise_append.mp h.ordered
    exact ⟨h.holds d hself, h.front d hself, h.back d hself,
      ⟨⟨fun e he => h.holds e (List.mem_append_left _ he), hordered⟩,
        fun e he => h.front e (List.mem_append_left _ he), fun e he => hbefore e he d List.mem_cons_self⟩⟩
  · rintro ⟨hd, hfront, hback, h⟩
    have hlen := hd.1
    have hmem : ∀ {P : Block → Prop}, (∀ e ∈ bs, P e) → P d → ∀ e ∈ bs ++ [d], P e := fun hbs hd e he =>
      (List.mem_append.mp he).elim (hbs e) fun he => List.mem_singleton.mp he ▸ hd
    refine ⟨⟨hmem h.holds hd, List.pairwise_append.mpr ⟨h.ordered, List.pairwise_singleton _ _, ?_⟩⟩,
      hmem h.front hfront, hmem (fun e he => ?_) hback⟩
    · intro e he e' he'
      rw [List.mem_singleton.mp he']
      exact h.back e he
    · have := h.back e he
      omega

namespace Block

theorem holds_one (h : Paired a b x y) : Holds a b ⟨x, y, 1⟩ := by
  refine ⟨Int.one_pos, fun i h0 h1 => ?_⟩
  obtain rfl : i = 0 := by dsimp only at h1; omega
  simpa using h

/-- A block grows at its front by one pair. -/
theorem Holds.front {n : Int} (h : Holds a b ⟨x, y, n⟩) (hp : Paired a b (x - 1) (y - 1)) :
    Holds a b ⟨x - 1, y - 1, n + 1⟩ := by
  obtain ⟨hlen, hpair⟩ := h
  refine ⟨by dsimp only at hlen ⊢; omega, fun i h0 h1 => ?_⟩
  dsimp only at h1 ⊢
  rcases Int.lt_or_eq_of_le h0 with h0 | rfl
  · have hnext := hpair (i - 1) (by omega) (by dsimp only; omega)
    rwa [show x + (i - 1) = x - 1 + i by omega, show y + (i - 1) = y - 1 + i by omega] at hnext
  · simpa using hp

/-- And at its back. -/
theorem Holds.back {n : Int} (h : Holds a b ⟨x, y, n⟩) (hp : Paired a b (x + n) (y + n)) :
    Holds a b ⟨x, y, n + 1⟩ := by
  obtain ⟨hlen, hpair⟩ := h
  refine ⟨by dsimp only at hlen ⊢; omega, fun i h0 h1 => ?_⟩
  rcases Int.lt_or_eq_of_le (Int.lt_add_one_iff.mp h1) with h1 | rfl
  · exact hpair i h0 h1
  · exact hp

/-- A pair in front of an alignment makes one that begins with the pair. -/
theorem between_pushFront (h : Between a b x y u v bs) (hp : Paired a b (x - 1) (y - 1)) (hu : x ≤ u)
    (hv : y ≤ v) : Between a b (x - 1) (y - 1) u v (pushFront (x - 1) (y - 1) bs) := by
  have hone : Between a b (x - 1) (y - 1) u v (⟨x - 1, y - 1, 1⟩ :: bs) := by
    refine between_cons.mpr ⟨holds_one hp, ⟨Int.le_refl _, Int.le_refl _⟩, by dsimp only; omega, ?_⟩
    rwa [Int.sub_add_cancel, Int.sub_add_cancel]
  cases bs with
  | nil => exact hone
  | cons d ds =>
    rw [pushFront]
    split
    · rename_i hadj
      obtain ⟨dx, dy, n⟩ := d
      -- The first block begins where the pair ends, so the pair becomes part of it.
      obtain rfl : dx = x := by have := hadj.1; dsimp only at this; omega
      obtain rfl : dy = y := by have := hadj.2; dsimp only at this; omega
      obtain ⟨hd, -, hback, hrest⟩ := between_cons.mp h
      refine between_cons.mpr ⟨hd.front hp, ⟨Int.le_refl _, Int.le_refl _⟩, ?_, ?_⟩
      · dsimp only at hback ⊢
        omega
      · dsimp only at hrest ⊢
        rwa [show dx - 1 + (n + 1) = dx + n by omega, show dy - 1 + (n + 1) = dy + n by omega]
    · exact hone

/-- A pair behind an alignment makes one that ends with the pair. -/
theorem between_pushBack (h : Between a b x y u v bs.reverse) (hp : Paired a b u v) (hu : x ≤ u)
    (hv : y ≤ v) : Between a b x y (u + 1) (v + 1) (pushBack u v bs).reverse := by
  have hone : Between a b x y (u + 1) (v + 1) (⟨u, v, 1⟩ :: bs).reverse := by
    rw [List.reverse_cons]
    exact between_concat.mpr ⟨holds_one hp, ⟨hu, hv⟩, ⟨Int.le_refl _, Int.le_refl _⟩, h⟩
  cases bs with
  | nil => exact hone
  | cons d ds =>
    rw [pushBack]
    split
    · rename_i hadj
      obtain ⟨dx, dy, n⟩ := d
      -- The last block ends where the pair begins.
      obtain ⟨rfl, rfl⟩ := hadj
      rw [List.reverse_cons] at h ⊢
      obtain ⟨hd, hfront, -, hrest⟩ := between_concat.mp h
      exact between_concat.mpr ⟨hd.back hp, hfront, by dsimp only; omega, hrest⟩
    · exact hone

/-! ### Sorting

Blocks are sorted by where they are in the first text.  For blocks that are apart this is their order in the
second as well. -/

/-- How two blocks are sorted. -/
theorem sorted_iff {d e : Block} :
    (if d.x = e.x then decide (d.len ≥ e.len) else decide (d.x < e.x)) = true ↔
      d.x < e.x ∨ d.x = e.x ∧ e.len ≤ d.len := by
  split <;> rw [decide_eq_true_eq] <;> omega

theorem pairwise_sort (bs : List Block) : (sort bs).Pairwise fun d e => d.x ≤ e.x := by
  have htotal : Std.Total (fun d e : Block =>
      (if d.x = e.x then decide (d.len ≥ e.len) else decide (d.x < e.x)) = true) :=
    ⟨fun d e => by
      rw [sorted_iff, sorted_iff]
      omega⟩
  have htrans : IsTrans Block (fun d e =>
      (if d.x = e.x then decide (d.len ≥ e.len) else decide (d.x < e.x)) = true) :=
    ⟨fun d e f hde hef => by
      rw [sorted_iff] at *
      omega⟩
  rw [sort, sortBy_eq_insertionSort]
  refine (List.pairwise_insertionSort _ bs).imp fun {d e} h => ?_
  have := sorted_iff.mp h
  omega

/-- Blocks that are apart from each other are an alignment once they are sorted. -/
theorem sort_alignment (hb : ∀ d ∈ bs, d.Holds a b) (h : bs.Pairwise Apart) : Alignment a b (sort bs) where
  holds d hd := hb d ((mem_sortBy _).mp hd)
  ordered := by
    have hapart : (sort bs).Pairwise Apart := ((sortBy_perm _ bs).pairwise_iff Apart.symm).mpr h
    refine ((pairwise_sort bs).and hapart).imp_of_mem fun {d e} hd he ⟨hle, h⟩ => h.resolve_right fun h => ?_
    -- A block that lay before one it is sorted behind would have no characters.
    have := (hb e ((mem_sortBy _).mp he)).1
    have := h.1
    omega

/-- Two alignments, one of which lies before the other, can be sorted together. -/
theorem sort_append_alignment {x' y' u' v' : Int} (h : Between a b x y u v bs)
    (h' : Between a b x' y' u' v' cs) (hx : u ≤ x') (hy : v ≤ y') :
    Alignment a b (sort (bs ++ cs)) ∧ Alignment a b (sort (cs ++ bs)) := by
  have hbefore := h.before h' hx hy
  constructor
  · refine sort_alignment (fun d hd => (List.mem_append.mp hd).elim (h.holds d) (h'.holds d)) ?_
    exact List.pairwise_append.mpr ⟨h.ordered.imp Or.inl, h'.ordered.imp Or.inl,
      fun d hd e he => Or.inl (hbefore d hd e he)⟩
  · refine sort_alignment (fun d hd => (List.mem_append.mp hd).elim (h'.holds d) (h.holds d)) ?_
    exact List.pairwise_append.mpr ⟨h'.ordered.imp Or.inl, h.ordered.imp Or.inl,
      fun e he d hd => Or.inr (hbefore d hd e he)⟩

/-! ### Choosing

Longer blocks are kept first.  Of the others what overlaps with those is cut off, at the front or at the back,
and what remains is kept if it is apart from all of them. -/

variable {d e f p q kept : Block}

theorem within_refl (p : Block) : p.Within p := by
  unfold Within
  omega

theorem Within.trans (h : f.Within e) (h' : e.Within d) : f.Within d := by
  unfold Within at *
  omega

theorem Holds.within (h : p.Holds a b) (hq : q.Within p) (hlen : 0 < q.len) : q.Holds a b := by
  refine ⟨hlen, fun i h0 h1 => ?_⟩
  unfold Within at hq
  have hpair := h.2 (q.x - p.x + i) (by omega) (by omega)
  rwa [show p.x + (q.x - p.x + i) = q.x + i by omega, show p.y + (q.x - p.x + i) = q.y + i by omega] at hpair

theorem Apart.within (h : p.Apart d) (hq : q.Within p) : q.Apart d := by
  unfold Apart Before Within at *
  omega

/-- Cutting leaves a part of the block. -/
theorem trimBack_within (off : Block → Int) : (trimBack off kept p).Within p := by
  unfold trimBack
  split
  · unfold dropBack Within
    dsimp only
    omega
  · exact within_refl p

theorem trimFront_within (off : Block → Int) : (trimFront off kept p).Within p := by
  unfold trimFront
  split
  · unfold dropFront Within
    dsimp only
    omega
  · exact within_refl p

/-- What cuts leave beside a block is a part that is apart from it. -/
theorem trim_apart : ∀ (cuts : List (Block → Block → Block)) (p : Block),
    (∀ cut ∈ cuts, ∀ p, (cut kept p).Within p) → 0 < p.len → trim kept cuts p = (.apart, q) →
    q.Within p ∧ 0 < q.len ∧ q.Apart kept
  | [], p, _, hlen, h => by
    rw [trim] at h
    split at h
    · rename_i hb
      cases h
      exact ⟨within_refl _, hlen, Or.inl hb⟩
    · split at h
      · rename_i hb
        cases h
        exact ⟨within_refl _, hlen, Or.inr hb⟩
      · cases h
  | cut :: cuts, p, hcuts, hlen, h => by
    rw [trim] at h
    split at h
    · cases h
    · rename_i hleft
      -- The search goes on only with what has characters left, or was not cut.
      have hpos : 0 < (cut kept p).len := by
        by_cases hsame : cut kept p = p
        · rwa [hsame]
        · exact Int.not_le.mp fun hle => hleft ⟨hle, hsame⟩
      obtain ⟨hq, hqlen, hapart⟩ := trim_apart cuts (cut kept p)
        (fun c hc => hcuts c (List.mem_cons_of_mem _ hc)) hpos h
      exact ⟨hq.trans (hcuts cut List.mem_cons_self p), hqlen, hapart⟩

theorem beside_apart (hlen : 0 < p.len) (h : beside kept p = (.apart, q)) :
    q.Within p ∧ 0 < q.len ∧ q.Apart kept := by
  refine trim_apart _ p (fun cut hcut p => ?_) hlen h
  simp only [List.mem_cons, List.not_mem_nil, or_false] at hcut
  rcases hcut with rfl | rfl | rfl | rfl
  · exact trimBack_within Block.x
  · exact trimFront_within Block.x
  · exact trimBack_within Block.y
  · exact trimFront_within Block.y

/-- What remains beside all blocks that are kept. -/
theorem besideAll_apart : ∀ (ks : List Block) (p : Block), 0 < p.len → besideAll ks p = some q →
    q.Within p ∧ 0 < q.len ∧ ∀ d ∈ ks, q.Apart d
  | [], p, hlen, h => by
    rw [besideAll, if_pos hlen] at h
    cases h
    exact ⟨within_refl _, hlen, by simp⟩
  | d :: ks, p, hlen, h => by
    rw [besideAll] at h
    split at h
    · rename_i r hr
      obtain ⟨hrp, hrlen, hrd⟩ := beside_apart hlen hr
      obtain ⟨hqr, hqlen, hall⟩ := besideAll_apart ks r hrlen h
      exact ⟨hqr.trans hrp, hqlen, List.forall_mem_cons.mpr ⟨hrd.within hqr, hall⟩⟩
    · cases h

/-- The blocks kept hold, and they are apart from each other. -/
theorem keepAgreeing_apart (hb : ∀ d ∈ bs, d.Holds a b) :
    (∀ d ∈ keepAgreeing bs, d.Holds a b) ∧ (keepAgreeing bs).Pairwise Apart := by
  unfold keepAgreeing
  -- Along the blocks: what is kept holds and is apart, and so it stays with one more.
  refine List.foldlRecOn (motive := fun ks : List Block => (∀ d ∈ ks, d.Holds a b) ∧ ks.Pairwise Apart) bs _
    ⟨by simp, List.Pairwise.nil⟩ fun ks ⟨hholds, hapart⟩ p hp => ?_
  split
  · rename_i q hq
    obtain ⟨hwithin, hlen, hall⟩ := besideAll_apart ks p (hb p hp).1 hq
    refine ⟨fun d hd => ?_, List.pairwise_append.mpr ⟨hapart, List.pairwise_singleton _ _, ?_⟩⟩
    · rcases List.mem_append.mp hd with hd | hd
      · exact hholds d hd
      · rw [List.mem_singleton.mp hd]
        exact (hb p hp).within hwithin hlen
    · intro d hd e he
      rw [List.mem_singleton.mp he]
      exact (hall d hd).symm
  · exact ⟨hholds, hapart⟩

/-- **Blocks that hold become an alignment**, whatever contradictions are among them. -/
theorem reconcile_alignment (hb : ∀ d ∈ bs, d.Holds a b) : Alignment a b (reconcile bs) := by
  have hsorted : ∀ d ∈ sortBy (fun d e : Block => decide (d.len ≥ e.len)) bs, d.Holds a b := fun d hd =>
    hb d ((mem_sortBy _).mp hd)
  obtain ⟨hholds, hapart⟩ := keepAgreeing_apart hsorted
  exact sort_alignment hholds hapart

end Block

/-! ## 2. Diagonals and rounds

The numbers of a round are stored in an array, two diagonals to an index.  A diagonal that the round has no
number for must not be looked up. -/

variable {r : Reach} {d k m : Int}

theorem onGraph_iff : onGraph d k = true ↔ 0 ≤ d ∧ -d ≤ k ∧ k ≤ d := by
  simp [onGraph, and_assoc]

/-- Every second diagonal. -/
theorem mem_diagonals {lo hi : Int} : k ∈ diagonals lo hi ↔ lo ≤ k ∧ k ≤ hi ∧ (k - lo) % 2 = 0 := by
  simp only [diagonals, List.mem_map, List.mem_range]
  constructor
  · rintro ⟨i, hi, rfl⟩
    omega
  · rintro ⟨hlo, hhi, hpar⟩
    exact ⟨((k - lo) / 2).toNat, by omega, by omega⟩

/-- The diagonal is one that round `d` has a number for. -/
def OnRound (d k : Int) : Prop := 0 ≤ d ∧ -d ≤ k ∧ k ≤ d ∧ (d + k) % 2 = 0

theorem onRound_of_mem (hd : 0 ≤ d) (h : k ∈ diagonals (-d) d) : OnRound d k := by
  have := mem_diagonals.mp h
  unfold OnRound
  omega

/-- The neighbours of a diagonal are on the round before. -/
theorem OnRound.left (h : OnRound d k) (hg : onGraph (d - 1) (k - 1) = true) : OnRound (d - 1) (k - 1) := by
  have := onGraph_iff.mp hg
  unfold OnRound at *
  omega

theorem OnRound.right (h : OnRound d k) (hg : onGraph (d - 1) (k + 1) = true) : OnRound (d - 1) (k + 1) := by
  have := onGraph_iff.mp hg
  unfold OnRound at *
  omega

/-- A new round does not change the numbers of those before. -/
theorem at_push_of_lt (row : Array Int) (h0 : 0 ≤ d) (hd : d < r.size) :
    Reach.at (r.push row) d k = Reach.at r d k := by
  have hlt : d.toNat < r.size := by omega
  simp only [Reach.at, Array.getD_eq_getD_getElem?, Array.getElem?_push, Nat.ne_of_lt hlt, if_false]

/-- The numbers of a new round. -/
theorem at_push_self (f : Int → Int) (h : OnRound d k) (hd : d = r.size) :
    Reach.at (r.push ((diagonals (-d) d).map f).toArray) d k = f k := by
  unfold OnRound at h
  have hsize : d.toNat = r.size := by omega
  have hlt : ((d + k) / 2).toNat < ((d - -d) / 2 + 1).toNat := by omega
  have hk : -d + 2 * (((d + k) / 2).toNat : Int) = k := by omega
  have hrow : ((diagonals (-d) d).map f).toArray[((d + k) / 2).toNat]? = some (f k) := by
    rw [List.getElem?_toArray, diagonals, List.getElem?_map, List.getElem?_map, List.getElem?_range hlt,
      Option.map_some, Option.map_some, hk]
  rw [Reach.at, hsize, Array.getD_eq_getD_getElem?, Array.getD_eq_getD_getElem?, Array.getElem?_push_size,
    Option.getD_some, hrow, Option.getD_some]

/-- All pairs on the diagonal from `s` up to `x` are equal. -/
def Equal (a b : Array Char) (k s x : Int) : Prop := ∀ i, s ≤ i → i < x → Paired a b i (i - k)

/-- A walk comes to diagonal `k` in round `d` at the offset `s`: at the corner, whose offset is `c`, or from one
of the two diagonals beside it in the round before, with a step of `p` or `q`. -/
def Enters (c p q : Int) (r : Reach) (d k s : Int) : Prop :=
  s = c ∧ k = 0 ∨ (onGraph (d - 1) (k - 1) = true ∧ s = r.at (d - 1) (k - 1) + p) ∨
    (onGraph (d - 1) (k + 1) = true ∧ s = r.at (d - 1) (k + 1) + q)

/-- How a diagonal was entered is said by earlier rounds only. -/
theorem Enters.push {c p q s : Int} {row : Array Int} (h : Enters c p q r d k s) (hd : d ≤ r.size) :
    Enters c p q (r.push row) d k s := by
  refine h.imp_right (Or.imp ?_ ?_)
  · rintro ⟨hg, hs⟩
    have := onGraph_iff.mp hg
    exact ⟨hg, by rw [hs, at_push_of_lt row this.1 (by omega)]⟩
  · rintro ⟨hg, hs⟩
    have := onGraph_iff.mp hg
    exact ⟨hg, by rw [hs, at_push_of_lt row this.1 (by omega)]⟩

/-! ### Forward

Where a walk enters a diagonal it slides along equal characters as far as it can.  The trace goes back the same
way: while a point was not entered where it is, it was slid to. -/

/-- Characters that are counted as equal are equal. -/
theorem paired_of_equalAhead : ∀ (n i j t : Nat), t < equalAhead a b n i j →
    ∃ c, a[i + t]? = some c ∧ b[j + t]? = some c
  | 0, _, _, _, h => absurd h (Nat.not_lt_zero _)
  | n + 1, i, j, t, h => by
    rw [equalAhead] at h
    split at h
    · rename_i c c' hc hc'
      split at h
      · rename_i heq
        subst heq
        cases t with
        | zero => exact ⟨c, hc, hc'⟩
        | succ t =>
          obtain ⟨c, h⟩ := paired_of_equalAhead n (i + 1) (j + 1) t (Nat.lt_of_succ_lt_succ h)
          rw [Nat.add_right_comm i, Nat.add_right_comm j] at h
          exact ⟨c, h⟩
      · exact absurd h (Nat.not_lt_zero _)
    · exact absurd h (Nat.not_lt_zero _)

/-- All that is slid over is equal. -/
theorem slideForward_equal (ux uy : Int) {s : Int} (hs : 0 ≤ s) (hk : k ≤ s) :
    s ≤ slideForward a b ux uy k s ∧ Equal a b k s (slideForward a b ux uy k s) := by
  unfold slideForward
  dsimp only
  split
  · refine ⟨by omega, fun i hi hlt => ⟨by omega, by omega, ?_⟩⟩
    obtain ⟨c, hc, hc'⟩ := paired_of_equalAhead (a := a) (b := b) (min (ux - s) (uy - (s - k))).toNat
      s.toNat (s - k).toNat (i - s).toNat (by omega)
    rw [show s.toNat + (i - s).toNat = i.toNat by omega] at hc
    rw [show (s - k).toNat + (i - s).toNat = (i - k).toNat by omega] at hc'
    exact ⟨c, hc, hc'⟩
  · exact ⟨Int.le_refl s, fun i hi hlt => absurd hlt (Int.not_lt.mpr hi)⟩

/-- What is known of a point of a forward walk. -/
def Reached (a b : Array Char) (r : Reach) (d k x : Int) : Prop :=
  ∃ s, 0 ≤ s ∧ k ≤ s ∧ s ≤ x ∧ Enters 0 1 0 r d k s ∧ Equal a b k s x

theorem Reached.inside (h : Reached a b r d k x) : 0 ≤ x ∧ k ≤ x := by
  obtain ⟨s, h0, hk, hle, -⟩ := h
  exact ⟨Int.le_trans h0 hle, Int.le_trans hk hle⟩

/-- A point that was not entered where it is was slid to from the one before. -/
theorem Reached.back (h : Reached a b r d k x) (hx : ¬ Enters 0 1 0 r d k x) :
    Paired a b (x - 1) (x - k - 1) ∧ Reached a b r d k (x - 1) := by
  obtain ⟨s, h0, hk, hle, henter, heq⟩ := h
  have hlt : s < x := by
    rcases Int.lt_or_eq_of_le hle with hlt | rfl
    · exact hlt
    · exact absurd henter hx
  have hpair := heq (x - 1) (by omega) (by omega)
  rw [show x - 1 - k = x - k - 1 by omega] at hpair
  exact ⟨hpair, s, h0, hk, by omega, henter, fun i hi hi' => heq i hi (by omega)⟩

/-- The numbers of `m` forward rounds. -/
structure Forward (a b : Array Char) (r : Reach) (m : Int) : Prop where
  size : (r.size : Int) = m + 1
  reached : ∀ d k, OnRound d k → d ≤ m → Reached a b r d k (r.at d k)

theorem Reached.slide {ux uy s : Int} (hs : 0 ≤ s) (hk : k ≤ s) (h : Enters 0 1 0 r d k s) :
    Reached a b r d k (slideForward a b ux uy k s) := by
  obtain ⟨hle, heq⟩ := slideForward_equal (a := a) (b := b) ux uy hs hk
  exact ⟨s, hs, hk, hle, h, heq⟩

/-- What is known of a point stays known. -/
theorem Reached.push {row : Array Int} (h : Reached a b r d k x) (hd : d ≤ r.size) :
    Reached a b (r.push row) d k x := by
  obtain ⟨s, h0, hk, hle, henter, heq⟩ := h
  exact ⟨s, h0, hk, hle, henter.push hd, heq⟩

/-- Round 0 begins at the corner and slides. -/
theorem forward_start (a b : Array Char) (ux uy : Int) : Forward a b #[#[slideForward a b ux uy 0 0]] 0 where
  size := rfl
  reached d k h hd := by
    unfold OnRound at h
    obtain rfl : d = 0 := by omega
    obtain rfl : k = 0 := by omega
    exact Reached.slide (Int.le_refl 0) (Int.le_refl 0) (Or.inl ⟨rfl, rfl⟩)

/-- A round leads from what was reached in the round before. -/
theorem roundForward_reached {ux uy : Int} (h : Forward a b r m) (hm : 0 ≤ m) (hk : OnRound (m + 1) k) :
    Reached a b (r.push (roundForward a b ux uy r m)) (m + 1) k
      (Reach.at (r.push (roundForward a b ux uy r m)) (m + 1) k) := by
  have hsize := h.size
  -- The two ways onto a diagonal of the new round.
  have hleft : OnRound m (k - 1) → Reached a b r (m + 1) k (slideForward a b ux uy k (r.at m (k - 1) + 1)) := by
    intro hl
    obtain ⟨h0, hx⟩ := (h.reached m (k - 1) hl (Int.le_refl m)).inside
    refine Reached.slide (by omega) (by omega) (Or.inr (Or.inl ⟨onGraph_iff.mpr ?_, ?_⟩))
    · unfold OnRound at hl
      omega
    · rw [Int.add_sub_cancel]
  have hright : OnRound m (k + 1) → Reached a b r (m + 1) k (slideForward a b ux uy k (r.at m (k + 1))) := by
    intro hr
    obtain ⟨h0, hx⟩ := (h.reached m (k + 1) hr (Int.le_refl m)).inside
    refine Reached.slide (by omega) (by omega) (Or.inr (Or.inr ⟨onGraph_iff.mpr ?_, ?_⟩))
    · unfold OnRound at hr
      omega
    · rw [Int.add_sub_cancel, Int.add_zero]
  refine Reached.push ?_ (by omega)
  rw [roundForward, at_push_self _ hk (by omega)]
  unfold OnRound at *
  dsimp only
  -- At the two ends of the round there is one neighbour, and else the one is taken that leads further.
  split
  · rename_i hlow
    rw [show -m = k + 1 by omega]
    exact hright (by omega)
  · split
    · rename_i hhigh
      have := hleft (by omega)
      rwa [show k - 1 = m by omega] at this
    · rw [Int.max_def]
      split
      · exact hright (by omega)
      · exact hleft (by omega)

/-- **A round keeps what is known of all points.** -/
theorem Forward.push {ux uy : Int} (h : Forward a b r m) (hm : 0 ≤ m) :
    Forward a b (r.push (roundForward a b ux uy r m)) (m + 1) where
  size := by
    have := h.size
    simp only [Array.size_push]
    omega
  reached d k hk hd := by
    have hsize := h.size
    rcases Int.lt_or_eq_of_le hd with hd | rfl
    · rw [at_push_of_lt _ hk.1 (by omega)]
      exact (h.reached d k hk (by omega)).push (by omega)
    · exact roundForward_reached h hm hk

/-- A forward trace is an alignment up to the point where it began, however far it gets. -/
theorem traceForward_between (h : Forward a b r m) : ∀ (fuel : Nat) (d k x : Int) (acc : List Block),
    OnRound d k → d ≤ m → Reached a b r d k x → x ≤ u → x - k ≤ v → Between a b x (x - k) u v acc →
    Between a b 0 0 u v (traceForward r fuel d k x acc)
  | 0, d, k, x, acc, _, _, hx, _, _, hacc =>
    hacc.mono hx.inside.1 (Int.sub_nonneg.mpr hx.inside.2) (Int.le_refl u) (Int.le_refl v)
  | fuel + 1, d, k, x, acc, hk, hd, hx, hu, hv, hacc => by
    rw [traceForward]
    split
    · exact hacc.mono hx.inside.1 (Int.sub_nonneg.mpr hx.inside.2) (Int.le_refl u) (Int.le_refl v)
    · rename_i hcorner
      split
      · -- The point was entered from the left, with a character left out.
        rename_i hl
        refine traceForward_between h fuel _ _ _ acc (hk.left hl.1) (by omega) ?_ (by omega) (by omega)
          (hacc.mono (by omega) (by omega) (Int.le_refl u) (Int.le_refl v))
        rw [hl.2]
        exact h.reached _ _ (hk.left hl.1) (by omega)
      · rename_i hleft
        split
        · -- It was entered from the other side.
          rename_i hr
          refine traceForward_between h fuel _ _ _ acc (hk.right hr.1) (by omega) ?_ (by omega) (by omega)
            (hacc.mono (by omega) (by omega) (Int.le_refl u) (Int.le_refl v))
          rw [hr.2]
          exact h.reached _ _ (hk.right hr.1) (by omega)
        · rename_i hright
          -- The point was not entered here, so the walk slid to it over an equal pair.
          have hnot : ¬ Enters 0 1 0 r d k x := by
            rintro (hc | hl | hr)
            · exact hcorner hc
            · exact hleft ⟨hl.1, by omega⟩
            · exact hright ⟨hr.1, by omega⟩
          obtain ⟨hpair, hx'⟩ := hx.back hnot
          refine traceForward_between h fuel d k (x - 1) _ hk hd hx' (by omega) (by omega) ?_
          rw [show x - 1 - k = x - k - 1 by omega]
          exact Block.between_pushFront hacc hpair hu hv

/-- The trace from a point that was reached. -/
theorem blocksBefore_between (h : Forward a b r m) (hk : OnRound d k) (hd : d ≤ m) :
    Between a b 0 0 (r.at d k) (r.at d k - k) (blocksBefore r d k) :=
  traceForward_between h _ d k _ [] hk hd (h.reached d k hk hd) (Int.le_refl _) (Int.le_refl _) between_nil

/-! ### Backward

The same from the other end, so that offsets go down.  The diagonals are counted from that of the corner. -/

theorem paired_of_equalBehind : ∀ (i j t : Nat), t < equalBehind a b i j →
    t < i ∧ t < j ∧ ∃ c, a[i - 1 - t]? = some c ∧ b[j - 1 - t]? = some c
  | 0, _, _, h => by
    simp [equalBehind] at h
  | _ + 1, 0, _, h => by
    simp [equalBehind] at h
  | i + 1, j + 1, t, h => by
    rw [equalBehind] at h
    split at h
    · rename_i c c' hc hc'
      split at h
      · rename_i heq
        subst heq
        cases t with
        | zero => exact ⟨Nat.succ_pos i, Nat.succ_pos j, c, hc, hc'⟩
        | succ t =>
          obtain ⟨hi, hj, c, h⟩ := paired_of_equalBehind i j t (Nat.lt_of_succ_lt_succ h)
          rw [show i - 1 - t = i + 1 - 1 - (t + 1) by omega, show j - 1 - t = j + 1 - 1 - (t + 1) by omega] at h
          exact ⟨Nat.succ_lt_succ hi, Nat.succ_lt_succ hj, c, h⟩
      · exact absurd h (Nat.not_lt_zero _)
    · exact absurd h (Nat.not_lt_zero _)

/-- All that is slid over is equal. -/
theorem slideBackward_equal (s : Int) :
    slideBackward a b k s ≤ s ∧ Equal a b k (slideBackward a b k s) s := by
  unfold slideBackward
  dsimp only
  split
  · refine ⟨by omega, fun i hi hlt => ?_⟩
    obtain ⟨hi', hj', c, hc, hc'⟩ := paired_of_equalBehind (a := a) (b := b) s.toNat (s - k).toNat
      (s - 1 - i).toNat (by omega)
    rw [show s.toNat - 1 - (s - 1 - i).toNat = i.toNat by omega] at hc
    rw [show (s - k).toNat - 1 - (s - 1 - i).toNat = (i - k).toNat by omega] at hc'
    exact ⟨by omega, by omega, c, hc, hc'⟩
  · exact ⟨Int.le_refl s, fun i hi hlt => absurd hlt (Int.not_lt.mpr hi)⟩

variable {g : Reach} {ux uy : Int}

/-- What is known of a point of a backward walk from the corner `ux`, `uy`. -/
def ReachedBack (a b : Array Char) (g : Reach) (ux uy d k x : Int) : Prop :=
  ∃ s, s ≤ ux ∧ s - (k + (ux - uy)) ≤ uy ∧ x ≤ s ∧ Enters ux 0 (-1) g d k s ∧ Equal a b (k + (ux - uy)) x s

theorem ReachedBack.inside (h : ReachedBack a b g ux uy d k x) : x ≤ ux ∧ x - (k + (ux - uy)) ≤ uy := by
  obtain ⟨s, hx, hy, hle, -⟩ := h
  exact ⟨Int.le_trans hle hx, Int.le_trans (Int.sub_le_sub_right hle _) hy⟩

/-- A point that was not entered where it is was slid to from the one behind it. -/
theorem ReachedBack.ahead (h : ReachedBack a b g ux uy d k x) (hx : ¬ Enters ux 0 (-1) g d k x) :
    Paired a b x (x - (k + (ux - uy))) ∧ ReachedBack a b g ux uy d k (x + 1) := by
  obtain ⟨s, hsx, hsy, hle, henter, heq⟩ := h
  have hlt : x < s := by
    rcases Int.lt_or_eq_of_le hle with hlt | rfl
    · exact hlt
    · exact absurd henter hx
  exact ⟨heq x (Int.le_refl x) hlt, s, hsx, hsy, hlt, henter, fun i hi hi' => heq i (by omega) hi'⟩

/-- The numbers of `m` backward rounds from the corner `ux`, `uy`. -/
structure Backward (a b : Array Char) (ux uy : Int) (g : Reach) (m : Int) : Prop where
  size : (g.size : Int) = m + 1
  reached : ∀ d k, OnRound d k → d ≤ m → ReachedBack a b g ux uy d k (g.at d k)

theorem ReachedBack.slide {s : Int} (hs : s ≤ ux) (hk : s - (k + (ux - uy)) ≤ uy)
    (h : Enters ux 0 (-1) g d k s) :
    ReachedBack a b g ux uy d k (slideBackward a b (k + (ux - uy)) s) := by
  obtain ⟨hle, heq⟩ := slideBackward_equal (a := a) (b := b) (k := k + (ux - uy)) s
  exact ⟨s, hs, hk, hle, h, heq⟩

theorem ReachedBack.push {row : Array Int} (h : ReachedBack a b g ux uy d k x) (hd : d ≤ g.size) :
    ReachedBack a b (g.push row) ux uy d k x := by
  obtain ⟨s, hx, hy, hle, henter, heq⟩ := h
  exact ⟨s, hx, hy, hle, henter.push hd, heq⟩

/-- Round 0 begins at the far corner. -/
theorem backward_start (a b : Array Char) (ux uy : Int) :
    Backward a b ux uy #[#[slideBackward a b (ux - uy) ux]] 0 where
  size := rfl
  reached d k h hd := by
    unfold OnRound at h
    obtain rfl : d = 0 := by omega
    obtain rfl : k = 0 := by omega
    have hcorner : ux - (0 + (ux - uy)) ≤ uy := by omega
    have hreached := ReachedBack.slide (a := a) (b := b) (g := #[#[slideBackward a b (ux - uy) ux]]) (d := 0)
      (Int.le_refl ux) hcorner (Or.inl ⟨rfl, rfl⟩)
    rwa [Int.zero_add] at hreached

/-- A round leads from what was reached in the round before. -/
theorem roundBackward_reached (h : Backward a b ux uy g m) (hm : 0 ≤ m) (hk : OnRound (m + 1) k) :
    ReachedBack a b (g.push (roundBackward a b (ux - uy) g m)) ux uy (m + 1) k
      (Reach.at (g.push (roundBackward a b (ux - uy) g m)) (m + 1) k) := by
  have hsize := h.size
  have hleft : OnRound m (k - 1) →
      ReachedBack a b g ux uy (m + 1) k (slideBackward a b (k + (ux - uy)) (g.at m (k - 1))) := by
    intro hl
    obtain ⟨hx, hy⟩ := (h.reached m (k - 1) hl (Int.le_refl m)).inside
    refine ReachedBack.slide hx (by omega) (Or.inr (Or.inl ⟨onGraph_iff.mpr ?_, ?_⟩))
    · unfold OnRound at hl
      omega
    · rw [Int.add_sub_cancel, Int.add_zero]
  have hright : OnRound m (k + 1) →
      ReachedBack a b g ux uy (m + 1) k (slideBackward a b (k + (ux - uy)) (g.at m (k + 1) - 1)) := by
    intro hr
    obtain ⟨hx, hy⟩ := (h.reached m (k + 1) hr (Int.le_refl m)).inside
    refine ReachedBack.slide (by omega) (by omega) (Or.inr (Or.inr ⟨onGraph_iff.mpr ?_, ?_⟩))
    · unfold OnRound at hr
      omega
    · rw [Int.add_sub_cancel]
      rfl
  refine ReachedBack.push ?_ (by omega)
  rw [roundBackward, at_push_self _ hk (by omega)]
  unfold OnRound at *
  dsimp only
  split
  · rename_i hlow
    have := hright (by omega)
    rwa [show k + 1 = -m by omega] at this
  · split
    · rename_i hhigh
      have := hleft (by omega)
      rwa [show k - 1 = m by omega] at this
    · rw [Int.min_def]
      split
      · exact hleft (by omega)
      · exact hright (by omega)

/-- **A round keeps what is known of all points.** -/
theorem Backward.push (h : Backward a b ux uy g m) (hm : 0 ≤ m) :
    Backward a b ux uy (g.push (roundBackward a b (ux - uy) g m)) (m + 1) where
  size := by
    have := h.size
    simp only [Array.size_push]
    omega
  reached d k hk hd := by
    have hsize := h.size
    rcases Int.lt_or_eq_of_le hd with hd | rfl
    · rw [at_push_of_lt _ hk.1 (by omega)]
      exact (h.reached d k hk (by omega)).push (by omega)
    · exact roundBackward_reached h hm hk

/-- A backward trace is an alignment from the point where it began, however far it gets. -/
theorem traceBackward_between (h : Backward a b ux uy g m) :
    ∀ (fuel : Nat) (d k x : Int) (acc : List Block), OnRound d k → d ≤ m → ReachedBack a b g ux uy d k x →
    u ≤ x → v ≤ x - (k + (ux - uy)) → Between a b u v x (x - (k + (ux - uy))) acc.reverse →
    Between a b u v ux uy (traceBackward g ux uy fuel d k x acc).reverse
  | 0, d, k, x, acc, _, _, hx, _, _, hacc =>
    hacc.mono (Int.le_refl u) (Int.le_refl v) hx.inside.1 hx.inside.2
  | fuel + 1, d, k, x, acc, hk, hd, hx, hu, hv, hacc => by
    rw [traceBackward]
    split
    · exact hacc.mono (Int.le_refl u) (Int.le_refl v) hx.inside.1 hx.inside.2
    · rename_i hcorner
      split
      · rename_i hl
        refine traceBackward_between h fuel _ _ _ acc (hk.left hl.1) (by omega) ?_ (by omega) (by omega)
          (hacc.mono (Int.le_refl u) (Int.le_refl v) (by omega) (by omega))
        rw [hl.2]
        exact h.reached _ _ (hk.left hl.1) (by omega)
      · rename_i hleft
        split
        · rename_i hr
          refine traceBackward_between h fuel _ _ _ acc (hk.right hr.1) (by omega) ?_ (by omega) (by omega)
            (hacc.mono (Int.le_refl u) (Int.le_refl v) (by omega) (by omega))
          rw [hr.2]
          exact h.reached _ _ (hk.right hr.1) (by omega)
        · rename_i hright
          -- As for the forward trace, the point was slid to.
          have hnot : ¬ Enters ux 0 (-1) g d k x := by
            rintro (⟨hc, rfl⟩ | hl | hr)
            · exact hcorner ⟨hc, by omega⟩
            · exact hleft ⟨hl.1, by omega⟩
            · exact hright ⟨hr.1, by omega⟩
          obtain ⟨hpair, hx'⟩ := hx.ahead hnot
          refine traceBackward_between h fuel d k (x + 1) _ hk hd hx' (by omega) (by omega) ?_
          rw [show x + 1 - (k + (ux - uy)) = x - (k + (ux - uy)) + 1 by omega]
          exact Block.between_pushBack hacc hpair hu hv

theorem blocksBehind_between (h : Backward a b ux uy g m) (hk : OnRound d k) (hd : d ≤ m) :
    Between a b (g.at d k) (g.at d k - (k + (ux - uy))) ux uy (blocksBehind g ux uy d k) :=
  traceBackward_between h _ d k _ [] hk hd (h.reached d k hk hd) (Int.le_refl _) (Int.le_refl _) between_nil

/-! ## 3. Where the walks meet

On a diagonal that both walks are on, the forward walk has come at least as far as the backward walk.  The
program looks at the two points and at their neighbours for a way to put the traces together; if there is none,
it searches again up to where the backward trace begins. -/

/-- The point that is chosen if the walks do not meet lies in the rectangle. -/
theorem furthest_spec (hf : furthest r ux uy d = some k) :
    k ∈ diagonals (-d) d ∧ r.at d k ≤ ux ∧ r.at d k - k ≤ uy := by
  unfold furthest at hf
  revert hf k
  refine List.foldlRecOn (motive := fun best : Option Int × Int => ∀ {k}, best.1 = some k →
    k ∈ diagonals (-d) d ∧ r.at d k ≤ ux ∧ r.at d k - k ≤ uy) (diagonals (-d) d) _
    (fun h => absurd h (by simp)) fun best ih l hl k hk => ?_
  dsimp only at hk
  split at hk
  · rename_i hbest
    cases hk
    exact ⟨hl, hbest.2⟩
  · exact ih hk

theorem nearest_mem {delta : Int} (hf : nearest r delta d = some k) : k ∈ diagonals (-d) d := by
  unfold nearest at hf
  revert hf k
  refine List.foldlRecOn (motive := fun best : Option Int × Int => ∀ {k}, best.1 = some k →
    k ∈ diagonals (-d) d) (diagonals (-d) d) _ (fun h => absurd h (by simp)) fun best ih l hl k hk => ?_
  dsimp only at hk
  split at hk
  · cases hk
    exact hl
  · exact ih hk

/-- The walk that goes forward alone stays before its corner. -/
theorem forwardOnly_between (ux uy : Int) : ∀ (rounds : Nat) (r : Reach) (d : Int), 0 ≤ d → Forward a b r d →
    Between a b 0 0 ux uy (forwardOnly a b ux uy rounds r d)
  | rounds, r, d, hd, h => by
    rw [forwardOnly.eq_def]
    dsimp only
    split
    · -- The walk came to its corner.
      rename_i k hfound
      have hk := onRound_of_mem hd (List.mem_of_find?_eq_some hfound)
      have hcorner := List.find?_some hfound
      simp only [decide_eq_true_eq] at hcorner
      have hbefore := blocksBefore_between h hk (Int.le_refl d)
      rwa [hcorner.2, hcorner.1] at hbefore
    · split
      · split
        · rename_i k hfurthest
          obtain ⟨hmem, hx, hy⟩ := furthest_spec hfurthest
          exact (blocksBefore_between h (onRound_of_mem hd hmem) (Int.le_refl d)).mono (Int.le_refl 0)
            (Int.le_refl 0) hx hy
        · exact between_nil
      · rename_i rounds
        exact forwardOnly_between ux uy rounds _ (d + 1) (by omega) (h.push hd)

variable {f : Reach} {df db : Int}

theorem meeting_onRound (hf : 0 ≤ df) (hb : 0 ≤ db) (h : meeting f g ux uy df db = some k) :
    OnRound df k ∧ OnRound db (k - (ux - uy)) := by
  unfold meeting at h
  dsimp only at h
  split at h
  · cases h
  · rename_i hparity
    -- The diagonal is one of those that both walks have a number for.
    have hmem : k ∈ diagonals (max (-db + (ux - uy)) (-df)) (min (db + (ux - uy)) df) := by
      split at h
      · cases h
      · rename_i met l rest hmet
        have hmet' : k ∈ l :: rest := by
          rcases Option.or_eq_some_iff.mp h with h | ⟨-, h⟩
          · exact hmet ▸ List.mem_of_find?_eq_some h
          · cases h
            exact List.mem_cons_self
        rw [← hmet] at hmet'
        exact (List.dropWhile_sublist _).mem hmet'
    have := mem_diagonals.mp hmem
    unfold OnRound
    omega

/-- **The traces of two walks that met make an alignment**, in each of the ways to join them. -/
theorem joined_alignment (hf : Forward a b f df) (hb : Backward a b ux uy g db) (hk : OnRound df k)
    (hkb : OnRound db (k - (ux - uy))) : Alignment a b (joined a b f g ux uy df db k) := by
  have hbefore := blocksBefore_between hf hk (Int.le_refl df)
  have hbehind := blocksBehind_between hb hkb (Int.le_refl db)
  -- In each case one trace ends before the other begins, which is what the case says.
  unfold joined
  dsimp only
  split
  · exact (Block.sort_append_alignment hbefore hbehind (by omega) (by omega)).1
  · split
    · rename_i h
      have hbefore := blocksBefore_between hf (hk.left h.2.1) (by omega)
      exact (Block.sort_append_alignment hbefore hbehind (by omega) (by omega)).1
    · split
      · rename_i h
        have hbefore := blocksBefore_between hf (hk.right h.2.1) (by omega)
        exact (Block.sort_append_alignment hbefore hbehind (by omega) (by omega)).1
      · split
        · exact hbehind.toAlignment
        · split
          · exact hbefore.toAlignment
          · split
            · rename_i h
              have hbehind := blocksBehind_between hb (hkb.right h.2.1) (by omega)
              exact (Block.sort_append_alignment hbefore hbehind (by omega) (by omega)).2
            · split
              · rename_i h
                have hbehind := blocksBehind_between hb (hkb.left h.2.1) (by omega)
                exact (Block.sort_append_alignment hbefore hbehind (by omega) (by omega)).2
              · exact (Block.sort_append_alignment (forwardOnly_between _ _ _ _ 0 (Int.le_refl 0)
                  (forward_start a b _ _)) hbehind (by omega) (by omega)).2

/-- If the search gives up, what was found from both ends is made to agree. -/
theorem unmet_alignment (hd : 0 ≤ d) (hf : Forward a b f d) (hb : Backward a b ux uy g d) :
    Alignment a b (unmet f g ux uy d) := by
  refine Block.reconcile_alignment fun p hp => ?_
  rcases List.mem_append.mp hp with hp | hp
  · split at hp
    · rename_i k hk
      exact (blocksBefore_between hf (onRound_of_mem hd (furthest_spec hk).1) (Int.le_refl d)).holds p hp
    · cases hp
  · split at hp
    · rename_i k hk
      exact (blocksBehind_between hb (onRound_of_mem hd (nearest_mem hk)) (Int.le_refl d)).holds p hp
    · cases hp

/-- By induction on the rounds that are left. -/
theorem search_alignment : ∀ (rounds : Nat) (f g : Reach) (d : Int), 0 ≤ d → Forward a b f d →
    Backward a b ux uy g d → Alignment a b (search a b ux uy rounds f g d)
  | 0, f, g, d, hd, hf, hb => unmet_alignment hd hf hb
  | rounds + 1, f, g, d, hd, hf, hb => by
    rw [search]
    split
    · rename_i k hmeet
      obtain ⟨hk, hkb⟩ := meeting_onRound hd hd hmeet
      exact joined_alignment hf hb hk hkb
    · dsimp only
      split
      · rename_i k hmeet
        obtain ⟨hk, hkb⟩ := meeting_onRound (by omega) hd hmeet
        exact joined_alignment (hf.push hd) hb hk hkb
      · exact search_alignment rounds _ _ (d + 1) (by omega) (hf.push hd) (hb.push hd)

/-- **The search answers with an alignment of the two texts.** -/
theorem align_alignment (a b : Array Char) : Alignment a b (align a b) :=
  search_alignment maxRounds _ _ 0 (Int.le_refl 0) (forward_start a b _ _) (backward_start a b _ _)

end AgentKit.Patch
