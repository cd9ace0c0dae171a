import AgentKit.Proofs.Patterns
/-!
# The matcher comes to an end

The matcher is a loop that goes back: where the pattern does not fit it returns to the last star, or to the last
pair of stars, and takes the way from there once more.  In the model it runs on fuel, and a loop that ran out
would answer with a refusal, as if the pattern did not match.  This module shows that it never does: **above a
certain number of steps the fuel makes no difference** (`matchFrom_eq`), and `budget` is above it (`matches?_eq`).

What falls from step to step has four parts, the first of which counts most.

* The **length of the pattern**.  Alternatives put a shorter pattern in the place of the old one: the two curly
  brackets are gone.
* What the last **pair of stars** can still do (`deepRank`).  A later pair has less of the pattern behind it, and
  the same pair has taken one more segment of the name.
* What the last **star** can still do (`starRank`), likewise.  Here is the one difficulty: when a pair of stars
  takes another segment the cursor returns to a place before the star, which is kept, and goes on to read stars
  that stand before the kept one.  A star ahead of the cursor therefore counts as if there were none.
* The rest of the **pattern** before the cursor.

The argument rests on two facts about a cursor (`Cursor.Orderly`): the pair of stars stands before the star and
the cursor, and a star inside the name is what a cursor inside the name resumes from.  Both are kept by every
step (`Moves.orderly`, `Resumes.orderly`).

1. Alternatives are shorter than what they were cut from.
2. The loops inside a step have fuel enough: the members of a class (`members_eq`) and the rest of a pattern at
   the end of a name (`matchesNothing_eq`).
3. What a step can do to a cursor (`step_leads`, `resume?_resumes`).
4. The measure, and that it falls (`Moves.rank_lt`, `Resumes.rank_lt`).
5. The loop.
-/

namespace AgentKit

/-- Where there is something to read, a character is read. -/
theorem Utf8.decodeFirst_width {t : Bytes} {i : Nat} (h : i < t.length) : 0 < (decodeFirst (t.drop i)).2 := by
  obtain ⟨c, u, heq, -⟩ := decodeFirst_cons t[i] (t.drop (i + 1))
  rw [List.drop_eq_getElem_cons h, heq]
  exact Nat.succ_pos _

namespace Glob

variable {pattern name : Bytes} {c c' : Cursor} {P N : Nat}

/-! ## 1. Alternatives

The text between two brackets is cut at its commas.  Each part keeps its bytes, so that none is longer than the
whole, and putting it in the place of the brackets makes the pattern shorter. -/

/-- No alternative is longer than what stands between the brackets. -/
theorem length_le_of_mem_alternatives (depth : Nat) (t : Bytes) :
    ∀ alt ∈ alternatives depth t, alt.length ≤ t.length := by
  induction depth, t using alternatives.induct with
  | case1 depth => simp [alternatives]
  | case2 depth b hb => simp [alternatives, hb]
  | case3 depth b hb => simp [alternatives, hb]
  -- In the next cases, but for the comma, one byte or two go to the front of the first part.
  | case4 depth c t ih =>
    rw [alternatives, if_pos rfl]
    cases halts : alternatives depth t with
    | nil => simp
    | cons p ps => grind
  | case5 depth c t hback ih =>
    rw [alternatives, if_neg hback, if_pos rfl]
    cases halts : alternatives (depth + 1) (c :: t) with
    | nil => simp
    | cons p ps => grind
  | case6 depth c t hback hleft ih =>
    rw [alternatives, if_neg hback, if_neg hleft, if_pos rfl]
    cases halts : alternatives (depth - 1) (c :: t) with
    | nil => simp
    | cons p ps => grind
  | case7 depth b c t hback hleft hright hb ih =>
    rw [alternatives, if_neg hback, if_neg hleft, if_neg hright, if_pos hb]
    grind
  | case8 depth b c t hback hleft hright hb ih =>
    rw [alternatives, if_neg hback, if_neg hleft, if_neg hright, if_neg hb]
    cases halts : alternatives depth (c :: t) with
    | nil => simp
    | cons p ps => grind

/-- An alternative together with what stands behind the brackets is shorter than the brackets were with it. -/
theorem length_splice_le {inside alt : Bytes} {n : Nat} (h : alt ∈ alternatives 0 (inside.take n)) :
    (alt ++ inside.drop (n + 1)).length ≤ inside.length := by
  have hle := length_le_of_mem_alternatives 0 _ alt h
  rw [List.length_take] at hle
  rw [List.length_append, List.length_drop]
  omega

/-! ## 2. Loops inside a step

Two functions inside a step run on fuel of their own.  For both the fuel is a length, and each round takes at
least one byte away from it. -/

/-- The reader of a class does not go back. -/
theorem le_members (pattern : Bytes) (c : Char) : ∀ fuel last pos : Nat, pos ≤ (members pattern c fuel last pos).1
  | 0, _, _ => Nat.le_refl _
  | fuel + 1, last, pos => by
    have ih := le_members pattern c fuel
    rw [members]
    split
    · exact Nat.le_refl _
    split
    · exact Nat.le_refl _
    dsimp only
    -- Whatever is read is a member that holds the character or one behind which the reader goes on.
    repeat' split
    all_goals try dsimp only
    all_goals first
      | omega
      | exact Nat.le_trans (by omega) (ih _ _)

/-- **A class is read to its end**: each member takes a byte at least, so as many members are enough as there are
bytes left. -/
theorem members_eq (c : Char) : ∀ fuel fuel' last pos : Nat, pattern.length ≤ pos + fuel →
    pattern.length ≤ pos + fuel' → members pattern c fuel last pos = members pattern c fuel' last pos
  | 0, 0, _, _, _, _ => rfl
  | 0, fuel' + 1, last, pos, h, _ => by
    have hend : pattern[pos]? = none := List.getElem?_eq_none h
    rw [members, members, hend]
  | fuel + 1, 0, last, pos, _, h => by
    have hend : pattern[pos]? = none := List.getElem?_eq_none h
    rw [members, members, hend]
  | fuel + 1, fuel' + 1, last, pos, h, h' => by
    have ih : ∀ last' pos', pos < pos' → members pattern c fuel last' pos' = members pattern c fuel' last' pos' :=
      fun last' pos' hlt => members_eq c fuel fuel' last' pos' (by omega) (by omega)
    rw [members, members]
    split
    · rfl
    -- Whatever is read, the next position is further on.
    rename_i b hb
    have hwidth := Utf8.decodeFirst_width (List.getElem?_eq_some_iff.mp hb).1
    split
    · rfl
    dsimp only
    repeat' split
    all_goals try dsimp only
    all_goals first
      | rfl
      | exact ih _ _ (by omega)

/-- The answers are asked for one after the other, and only they matter. -/
theorem firstMatch_congr {α : Type} {f g : α → Except Malformed Bool} : ∀ {l : List α}, (∀ a ∈ l, f a = g a) →
    firstMatch f l = firstMatch g l
  | [], _ => rfl
  | a :: l, h => by
    rw [firstMatch, firstMatch, h a List.mem_cons_self, firstMatch_congr fun x hx => h x (List.mem_cons_of_mem a hx)]

/-- **The rest of a pattern is read to its end**: alternatives that are opened at its front make it shorter. -/
theorem matchesNothing_eq : ∀ (fuel fuel' : Nat) (t : Bytes), t.length < fuel → t.length < fuel' →
    matchesNothing fuel t = matchesNothing fuel' t
  | 0, _, _, h, _ => absurd h (Nat.not_lt_zero _)
  | _, 0, _, _, h => absurd h (Nat.not_lt_zero _)
  | fuel + 1, fuel' + 1, t, h, h' => by
    rw [matchesNothing.eq_def, matchesNothing.eq_def (fuel' + 1)]
    dsimp only
    split
    · rfl
    split
    · rename_i inside _
      split
      · rfl
      · -- Each alternative is tried on a pattern from which the two brackets are gone.
        rename_i n _
        refine firstMatch_congr fun alt halt => ?_
        have hle := length_splice_le halt
        rw [List.length_cons] at h h'
        exact matchesNothing_eq fuel fuel' _ (by omega) (by omega)
    · rfl

/-! ## 3. Steps

What a step does is told apart from what it answers: for the end of the loop only the places of the cursor count,
and `Moves` and `Resumes` say how they change.  The offsets in the name are left open where a move goes on, since
nothing in the measure depends on them. -/

/-- A move through a pattern of length `P`: over something that the name has as well, over a star, or over a pair
of stars.  The cursor moves on in the pattern every time. -/
inductive Moves (P : Nat) (c : Cursor) : Cursor → Prop
  | on {i n : Nat} {start : Bool} : c.pattern < i → c.pattern < P →
      Moves P c { c with pattern := i, name := n, segmentStart := start }
  | star {i : Nat} : c.pattern < i → i ≤ P →
      Moves P c { c with pattern := i, segmentStart := false, star := some ⟨i, c.name⟩ }
  | deep {i : Nat} : c.pattern < i → i ≤ P →
      Moves P c { c with pattern := i, star := none, deep := some ⟨i, c.name⟩ }

/-- What a step can lead to. -/
inductive Leads (pattern : Bytes) (c : Cursor) : Step → Prop
  | move {c' : Cursor} : Moves pattern.length c c' → Leads pattern c (.move c')
  | refuse {i : Nat} : Leads pattern c (.refuse i)
  | branch {patterns : List Bytes} : (∀ p ∈ patterns, p.length < pattern.length) → Leads pattern c (.branch patterns)
  | answer {result : Except Malformed Bool} : Leads pattern c (.answer result)

theorem stepPlain_leads {i : Nat} (hi : c.pattern ≤ i) (hlt : i < pattern.length) :
    Leads pattern c (stepPlain pattern name c i) := by
  have hwidth := Utf8.decodeFirst_width hlt
  rw [stepPlain]
  dsimp only
  split
  · exact .move (.on (by omega) (by omega))
  · split <;> exact .refuse

/-- A class is passed behind its first member at the earliest. -/
theorem stepClass_leads (hlt : c.pattern < pattern.length) : Leads pattern c (stepClass pattern name c) := by
  rw [stepClass]
  split
  · exact .answer
  · rename_i sign _
    dsimp only
    obtain ⟨start, hstart⟩ : ∃ start, start = if sign = byte '!' ∨ sign = byte '^' then c.pattern + 2
        else c.pattern + 1 := ⟨_, rfl⟩
    have hbehind : c.pattern < start := by
      rw [hstart]
      split <;> omega
    rw [← hstart]
    have hreached := le_members pattern (Utf8.decodeFirst (name.drop c.name)).1 pattern.length noMember start
    split
    · exact .answer
    split
    · split
      · exact .answer
      · exact .refuse
    split
    · exact .answer
    · exact .move (.on (by omega) hlt)

/-- **What one step does**: it moves on, gives up, ends, or goes over to shorter patterns. -/
theorem step_leads (pattern name : Bytes) (c : Cursor) : Leads pattern c (step pattern name c) := by
  rw [step]
  cases hb : pattern[c.pattern]? with
  | none => exact .refuse
  | some b =>
    have hlt := (List.getElem?_eq_some_iff.mp hb).1
    dsimp only
    -- Stars: one of them, a pair inside a segment, which is like one, and a pair that is a segment of its own.
    split
    · split
      · rename_i hstar
        have hnext := (List.getElem?_eq_some_iff.mp hstar).1
        split
        · cases he : pattern[c.pattern + 2]? with
          | none => exact .answer
          | some e =>
            have hbehind := (List.getElem?_eq_some_iff.mp he).1
            dsimp only
            split
            · exact .move (.deep (by omega) (by omega))
            · exact .move (.star (by omega) (by omega))
        · exact .move (.star (by omega) (by omega))
      · exact .move (.star (by omega) (by omega))
    split
    · split
      · exact .refuse
      · exact .move (.on (by omega) hlt)
    split
    · exact stepClass_leads hlt
    split
    · split
      · exact .answer
      · -- The front of the pattern is kept, and the brackets are replaced by one of the alternatives.
        refine .branch fun p hp => ?_
        obtain ⟨alt, halt, rfl⟩ := List.mem_map.mp hp
        have hle := length_splice_le halt
        rw [List.length_drop] at hle
        rw [List.append_assoc, List.length_append, List.length_take]
        omega
    split
    · split
      · exact stepPlain_leads (by omega) ‹_›
      · exact .answer
    · exact stepPlain_leads (Nat.le_refl _) hlt

/-- Two things about a cursor in a name of length `N`: the pair of stars is behind it and behind the star, and
the star is inside the name if the cursor is. -/
structure Cursor.Orderly (N : Nat) (c : Cursor) : Prop where
  deep : ∀ d, c.deep = some d → d.pattern ≤ c.pattern ∧ ∀ s, c.star = some s → d.pattern ≤ s.pattern
  star : ∀ s, c.star = some s → c.name < N → s.name < N

theorem orderly_start (N : Nat) : Cursor.Orderly N {} := ⟨nofun, nofun⟩

theorem Moves.orderly (h : Moves P c c') (ho : c.Orderly N) (hname : c.name < N) : c'.Orderly N := by
  cases h with
  | on hi hlt =>
    refine ⟨fun d hd => ⟨?_, (ho.deep d hd).2⟩, fun s hs _ => ho.star s hs hname⟩
    exact Nat.le_trans (ho.deep d hd).1 (Nat.le_of_lt hi)
  -- The star is put where the cursor is, which is behind the pair of stars and inside the name.
  | star hi hle =>
    refine ⟨fun d hd => ?_, fun s hs _ => ?_⟩
    · have hbefore : d.pattern ≤ _ := Nat.le_trans (ho.deep d hd).1 (Nat.le_of_lt hi)
      exact ⟨hbefore, by rintro s ⟨⟩; exact hbefore⟩
    · cases hs
      exact hname
  | deep hi hle =>
    refine ⟨fun d hd => ?_, nofun⟩
    cases hd
    exact ⟨Nat.le_refl _, nofun⟩

/-- Going back: the star takes one more character, or the pair of stars what is left of its segment. -/
inductive Resumes (N : Nat) (c : Cursor) : Cursor → Prop
  | star {s : Resume} {w : Nat} : c.star = some s → 0 < w →
      Resumes N c { c with
        pattern := s.pattern, name := s.name + w, segmentStart := false, star := some ⟨s.pattern, s.name + w⟩ }
  | deep {d : Resume} {w : Nat} : c.deep = some d → 0 < w → d.name + w ≤ N →
      Resumes N c { c with
        pattern := d.pattern, name := d.name + w, segmentStart := true, deep := some ⟨d.pattern, d.name + w⟩ }

/-- A segment that is taken has at least its slash. -/
theorem behindSlash_le {t : Bytes} {n : Nat} (h : behindSlash t = some n) : 0 < n ∧ n ≤ t.length := by
  obtain ⟨k, hk, rfl⟩ := Option.map_eq_some_iff.mp h
  obtain ⟨hlt, -⟩ := List.findIdx?_eq_some_iff_getElem.mp hk
  exact ⟨Nat.succ_pos k, hlt⟩

theorem resume?_resumes (ho : c.Orderly name.length) (hname : c.name < name.length)
    (h : resume? name c = some c') : Resumes name.length c c' := by
  -- The pair of stars comes in where there is no star, and where the star would have to take a slash.
  have deeper : ∀ {star : Option Resume} {c' : Cursor}, c.star = star →
      (c.deep.bind fun d =>
        (behindSlash (name.drop d.name)).map fun n =>
          { pattern := d.pattern, name := d.name + n, segmentStart := true, star := star
            deep := some ⟨d.pattern, d.name + n⟩ }) = some c' → Resumes name.length c c' := by
    rintro star c' rfl h
    obtain ⟨d, hd, h⟩ := Option.bind_eq_some_iff.mp h
    obtain ⟨n, hn, rfl⟩ := Option.map_eq_some_iff.mp h
    have hle := behindSlash_le hn
    rw [List.length_drop] at hle
    exact .deep hd hle.1 (by omega)
  rw [resume?] at h
  cases hs : c.star with
  | none =>
    rw [hs] at h
    exact deeper hs h
  | some s =>
    rw [hs] at h
    dsimp only at h
    split at h
    · exact deeper hs h
    · cases h
      exact .star hs (Utf8.decodeFirst_width (ho.star s hs hname))

/-- Going back keeps the cursor orderly. -/
theorem Resumes.orderly (h : Resumes N c c') (ho : c.Orderly N) (hname : c.name < N) : c'.Orderly N := by
  cases h with
  | star hs _ =>
    refine ⟨fun d hd => ?_, fun s' hs' hlt => ?_⟩
    · have hbefore := (ho.deep d hd).2 _ hs
      exact ⟨hbefore, by rintro s ⟨⟩; exact hbefore⟩
    · cases hs'
      exact hlt
  -- The cursor returns to the pair of stars, which the star that is kept stands behind.
  | deep hd _ _ =>
    refine ⟨fun d' hd' => ?_, fun s hs _ => ho.star s hs hname⟩
    cases hd'
    exact ⟨Nat.le_refl _, (ho.deep _ hd).2⟩

/-! ## 4. What falls

The four parts are put together into one number, each part multiplied by a bound on those behind it.  The bounds
depend on the lengths of the pattern and of the name only, so they stay the same while the pattern does. -/

/-- What can still be resumed from a place with `p` bytes of the pattern and `n` of the name behind it. -/
def worth (N p n : Nat) : Nat := p * (N + 1) + n

/-- What the star can still do.  One that the cursor has not come to again counts as the best one ahead. -/
def starRank (P N : Nat) (c : Cursor) : Nat :=
  match c.star with
  | some s => if s.pattern ≤ c.pattern then worth N (P - s.pattern) (N - s.name) else worth N (P - c.pattern) N
  | none => worth N (P - c.pattern) N

/-- What the pair of stars can still do. -/
def deepRank (P N : Nat) (c : Cursor) : Nat :=
  match c.deep with
  | some d => worth N (P - d.pattern) (N - d.name)
  | none => worth N P (N + 1)

/-- More than a star can do, and as much as a pair of stars. -/
def span (P N : Nat) : Nat := (P + 1) * (N + 1)

/-- What a cursor can still do before its pattern changes. -/
def rank (P N : Nat) (c : Cursor) : Nat :=
  (deepRank P N c * span P N + starRank P N c) * (P + 1) + (P - c.pattern)

/-- More than a cursor can do before its pattern changes. -/
def stint (P N : Nat) : Nat := (span P N + 1) * span P N * (P + 1)

/-- Steps enough for a cursor, over all changes of its pattern. -/
def steps (P N : Nat) (c : Cursor) : Nat := P * stint P N + rank P N c

/-- Less of the pattern counts for more than all of the name. -/
theorem worth_lt {p p' n n' : Nat} (hp : p < p') (hn : n ≤ N) : worth N p n < worth N p' n' := by
  have hstep : (p + 1) * (N + 1) ≤ p' * (N + 1) := Nat.mul_le_mul_right _ hp
  rw [Nat.add_mul, Nat.one_mul] at hstep
  unfold worth
  omega

theorem worth_le {p p' n n' : Nat} (hp : p ≤ p') (hn : n ≤ n') : worth N p n ≤ worth N p' n' :=
  Nat.add_le_add (Nat.mul_le_mul_right _ hp) hn

theorem worth_full (P N : Nat) : worth N P (N + 1) = span P N := by
  rw [worth, span, Nat.add_mul, Nat.one_mul]

/-- No place is worth more than the whole pattern and the whole name. -/
theorem worth_lt_span {p n : Nat} (hp : p ≤ P) (hn : n ≤ N) : worth N p n < span P N := by
  rw [← worth_full]
  exact Nat.lt_of_le_of_lt (worth_le hp hn) (Nat.add_lt_add_left (Nat.lt_succ_self N) _)

theorem starRank_lt (P N : Nat) (c : Cursor) : starRank P N c < span P N := by
  unfold starRank
  split
  · split
    · exact worth_lt_span (Nat.sub_le _ _) (Nat.sub_le _ _)
    · exact worth_lt_span (Nat.sub_le _ _) (Nat.le_refl _)
  · exact worth_lt_span (Nat.sub_le _ _) (Nat.le_refl _)

theorem deepRank_le (P N : Nat) (c : Cursor) : deepRank P N c ≤ span P N := by
  unfold deepRank
  split
  · exact Nat.le_of_lt (worth_lt_span (Nat.sub_le _ _) (Nat.sub_le _ _))
  · exact Nat.le_of_eq (worth_full P N)

/-- **What a cursor can do is bounded** by the lengths of the pattern and of the name. -/
theorem rank_lt_stint (P N : Nat) (c : Cursor) : rank P N c < stint P N := by
  have hplaces : deepRank P N c * span P N + starRank P N c + 1 ≤ (span P N + 1) * span P N := by
    have hdeep := Nat.mul_le_mul_right (span P N) (deepRank_le P N c)
    have hstar := starRank_lt P N c
    rw [Nat.add_mul, Nat.one_mul]
    omega
  calc rank P N c
      < (deepRank P N c * span P N + starRank P N c) * (P + 1) + (P + 1) := by
        unfold rank
        omega
    _ = (deepRank P N c * span P N + starRank P N c + 1) * (P + 1) := by rw [Nat.add_mul _ 1, Nat.one_mul]
    _ ≤ stint P N := Nat.mul_le_mul_right _ hplaces

/-! The parts of the rank count in the order in which they are written: where an earlier one falls, the later
ones may be anything. -/

theorem rank_lt_of_places (h : deepRank P N c' * span P N + starRank P N c' <
    deepRank P N c * span P N + starRank P N c) : rank P N c' < rank P N c := by
  have hmul := Nat.mul_le_mul_right (P + 1) h
  rw [Nat.succ_mul] at hmul
  unfold rank
  omega

theorem rank_lt_of_deep (h : deepRank P N c' < deepRank P N c) : rank P N c' < rank P N c := by
  have hmul := Nat.mul_le_mul_right (span P N) h
  have hstar := starRank_lt P N c'
  rw [Nat.succ_mul] at hmul
  exact rank_lt_of_places (by omega)

theorem rank_lt_of_star (hdeep : c'.deep = c.deep) (h : starRank P N c' < starRank P N c) :
    rank P N c' < rank P N c := by
  refine rank_lt_of_places ?_
  rw [deepRank, deepRank, hdeep]
  exact Nat.add_lt_add_left h _

theorem rank_lt_of_pattern (hdeep : c'.deep = c.deep) (hstar : starRank P N c' ≤ starRank P N c)
    (h : P - c'.pattern < P - c.pattern) : rank P N c' < rank P N c := by
  have hmul := Nat.mul_le_mul_right (P + 1) (Nat.add_le_add_left hstar (deepRank P N c * span P N))
  have hsame : deepRank P N c' = deepRank P N c := by rw [deepRank, deepRank, hdeep]
  rw [rank, rank, hsame]
  omega

/-- Whatever the star, it is worth at least the pattern before the cursor. -/
theorem le_starRank (P N : Nat) (c : Cursor) : (P - c.pattern) * (N + 1) ≤ starRank P N c := by
  unfold starRank
  split
  · split
    · rename_i hle
      exact Nat.le_trans (Nat.mul_le_mul_right _ (by omega)) (Nat.le_add_right _ _)
    · exact Nat.le_add_right _ _
  · exact Nat.le_add_right _ _

/-- **A move makes the rank smaller.** -/
theorem Moves.rank_lt (h : Moves P c c') (ho : c.Orderly N) : rank P N c' < rank P N c := by
  cases h with
  | @on i n start hi hlt =>
    refine rank_lt_of_pattern rfl ?_ (by dsimp only; omega)
    unfold starRank
    dsimp only
    split
    · split
      · -- The star was behind the cursor already, or the cursor has just come to it.
        split
        · exact Nat.le_refl _
        · exact worth_le (by omega) (Nat.sub_le _ _)
      · rw [if_neg (by omega)]
        exact worth_le (by omega) (Nat.le_refl _)
    · exact worth_le (by omega) (Nat.le_refl _)
  -- A star further on is worth less than the pattern before it was.
  | @star i hi hle =>
    refine rank_lt_of_star rfl (Nat.lt_of_lt_of_le ?_ (le_starRank P N c))
    simp only [starRank, Nat.le_refl, if_true]
    have hfront : worth N (P - i) (N - c.name) < worth N (P - c.pattern) 0 := worth_lt (by omega) (Nat.sub_le _ _)
    exact hfront
  | @deep i hi hle =>
    refine rank_lt_of_deep ?_
    unfold deepRank
    dsimp only
    -- The first pair of stars, or one that stands behind the last.
    cases hd : c.deep with
    | none => exact worth_lt (by omega) (Nat.sub_le _ _)
    | some d =>
      have hbefore := (ho.deep d hd).1
      exact worth_lt (by omega) (Nat.sub_le _ _)

/-- **So does going back**: the star or the pair of stars has less of the name behind it. -/
theorem Resumes.rank_lt (h : Resumes N c c') (ho : c.Orderly N) (hname : c.name < N) :
    rank P N c' < rank P N c := by
  cases h with
  | @star s w hs hw =>
    have hinside := ho.star s hs hname
    refine rank_lt_of_star rfl ?_
    simp only [starRank, hs, Nat.le_refl, if_true]
    split
    · exact Nat.add_lt_add_left (by omega) _
    · -- The cursor stood before the star that it resumes from, which then counted as if there were none.
      exact Nat.lt_of_lt_of_le (Nat.add_lt_add_left (show N - (s.name + w) < N by omega) _)
        (worth_le (by omega) (Nat.le_refl _))
  | @deep d w hd hw hle =>
    refine rank_lt_of_deep ?_
    simp only [deepRank, hd]
    exact Nat.add_lt_add_left (by omega) _

theorem steps_lt_of_rank (h : rank P N c' < rank P N c) : steps P N c' < steps P N c :=
  Nat.add_lt_add_left h _

/-- A shorter pattern leaves less to do, wherever its cursor is. -/
theorem steps_lt_of_shorter {P' : Nat} (h : P' < P) : steps P' N c' < steps P N c := by
  have hspan : span P' N ≤ span P N := Nat.mul_le_mul_right _ (by omega)
  have hstint : stint P' N ≤ stint P N :=
    Nat.mul_le_mul (Nat.mul_le_mul (Nat.succ_le_succ hspan) hspan) (by omega)
  calc steps P' N c'
      < P' * stint P' N + stint P' N := Nat.add_lt_add_left (rank_lt_stint P' N c') _
    _ = (P' + 1) * stint P' N := (Nat.succ_mul _ _).symm
    _ ≤ P * stint P N := Nat.mul_le_mul h hstint
    _ ≤ steps P N c := Nat.le_add_right _ _

/-! ## 5. The loop

The induction is on both amounts of fuel.  Each is more than the steps of the cursor, and in every case these
fall by at least as much as the fuel. -/

/-- **Fuel makes no difference** where it is more than the steps that a cursor can take. -/
theorem matchFrom_eq : ∀ (fuel fuel' : Nat) (pattern : Bytes) (c : Cursor), c.Orderly name.length →
    steps pattern.length name.length c < fuel → steps pattern.length name.length c < fuel' →
    matchFrom fuel pattern name c = matchFrom fuel' pattern name c
  | 0, _, _, _, _, h, _ => absurd h (Nat.not_lt_zero _)
  | _, 0, _, _, _, _, h => absurd h (Nat.not_lt_zero _)
  | fuel + 1, fuel' + 1, pattern, c, ho, h, h' => by
    rw [matchFrom, matchFrom]
    split
    · rfl
    rename_i hend
    have hname : c.name < name.length := Nat.lt_of_not_le hend
    have hleads := step_leads pattern name c
    cases hstep : step pattern name c with
    | answer r => rfl
    | move c' =>
      rw [hstep] at hleads
      cases hleads with
      | move hmoves =>
        have hlt := steps_lt_of_rank (hmoves.rank_lt ho)
        exact matchFrom_eq fuel fuel' pattern c' (hmoves.orderly ho hname) (by omega) (by omega)
    | branch patterns =>
      rw [hstep] at hleads
      cases hleads with
      | branch hshorter =>
        refine firstMatch_congr fun p hp => ?_
        -- An alternative starts a segment, but is otherwise taken from where the cursor is.
        have hlt := @steps_lt_of_shorter c { c with segmentStart := true } _ name.length _ (hshorter p hp)
        exact matchFrom_eq fuel fuel' p _ ⟨ho.deep, ho.star⟩ (by omega) (by omega)
    | refuse i =>
      dsimp only
      cases hres : resume? name c with
      | none => rfl
      | some c' =>
        have hresumes := resume?_resumes ho hname hres
        have hlt := steps_lt_of_rank (hresumes.rank_lt (P := pattern.length) ho hname)
        exact matchFrom_eq fuel fuel' pattern c' (hresumes.orderly ho hname) (by omega) (by omega)

/-- The budget is more than the steps of any cursor. -/
theorem steps_lt_budget (P N : Nat) (c : Cursor) : steps P N c < budget P N := by
  have hspan : span P N + 1 ≤ (P + 2) * (N + 2) := by
    unfold span
    nlinarith
  calc steps P N c
      < P * stint P N + stint P N := Nat.add_lt_add_left (rank_lt_stint P N c) _
    _ = (P + 1) * ((span P N + 1) * span P N * (P + 1)) := (Nat.succ_mul _ _).symm
    _ ≤ (P + N + 3) * (((P + 2) * (N + 2)) * ((P + 2) * (N + 2)) * (P + 2)) := by
        gcongr <;> omega
    _ = budget P N := by
        unfold budget
        ring

/-- **A match is what it would be with any amount of fuel from the budget on**, so the answer of the loop is never
the one that it gives for want of fuel. -/
theorem matches?_eq (pattern name : Bytes) {fuel : Nat} (h : budget pattern.length name.length ≤ fuel) :
    matches? pattern name = matchFrom fuel pattern name {} := by
  have hlt := steps_lt_budget pattern.length name.length {}
  exact matchFrom_eq _ _ pattern {} (orderly_start _) hlt (Nat.lt_of_lt_of_le hlt h)

end Glob

end AgentKit
