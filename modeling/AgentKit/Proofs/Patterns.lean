import AgentKit.Exclusion
import AgentKit.Proofs.Characters
/-!
# Patterns that always have an answer

A pattern is checked once, before a tree is walked, and matched against every path of the tree.  The check and
the matcher do not read a pattern alike.  The check knows classes: all bytes of a class but the closing bracket
and the backslash are members.  The matcher finds the end of alternatives, and the commas between them, by
looking for brackets, commas and backslashes only; and where a negated class refuses a character it takes the
rest of the class, behind the member that holds the character, for the rest of the pattern.  A pattern can pass
the check and still break off in the matcher, and then it hits nothing (`accepted_pattern_passed_over`).

The condition that excludes this is about the pattern alone (`exposes`) and can be evaluated.  It is stated for a
reader that goes through the pattern once and knows at each byte whether it is in a class, whether the class is
negated, and how many curly brackets are open.  The check is the same reader without the condition
(`scan_eq_plain_iff`), so that a `Steady` pattern is one that both accept.

The matcher jumps.  It resumes behind a star, goes over to an alternative, leaves a class behind the first member
that holds the character.  So for its proof the reader is put at an offset (`Reads`), and what one step preserves is
that the cursor, and each place that it could resume from, is at an offset where the reader would be outside of
classes and of alternatives (`Sure`).  Behind such an offset the pattern is steady again, and whatever is asked about
it has an answer.

1. Reading a pattern.  `Spot` is what a reader knows of the bytes before it, `Spot.exposes` are the members that
   the matcher takes for something else, and a `Steady` pattern is one that passes the check and exposes none.
2. Alternatives: in a steady pattern they are closed, and each makes a steady pattern.
3. Offsets of a reader (`Reads`).
4. Classes: in a steady pattern they have members and are closed.
5. **One step** (`step_safe`): the cursor and the places to resume from stay at offsets of a reader.
6. **The loop** (`matchFrom_ok`) and **the exclusions** (`accepted_pattern_answers`).
-/

namespace AgentKit

namespace Utf8

/-- The first item of a text takes its first byte and bytes that stand behind a first byte only. -/
theorem decodeFirst_cons (b : UInt8) (t : Bytes) :
    ∃ c u, decodeFirst (b :: t) = (c, u.length + 1) ∧ u <+: t ∧ (∀ x ∈ u, 0x80 ≤ x.toNat) ∧
      (b.toNat < 0x80 → u = [] ∧ c.toNat = b.toNat) ∧ (c.toNat < 0x80 → c.toNat = b.toNat) := by
  rw [decodeFirst]
  cases hf : first b t with
  | none =>
    refine ⟨_, [], rfl, List.nil_prefix, by simp, fun hb => ?_, fun hc => ?_⟩
    · rw [first_one hb] at hf
      cases hf
    · exact absurd hc (by decide)
  | some r =>
    obtain ⟨c, n⟩ := r
    obtain ⟨hn, hspells⟩ := spells_of_first hf
    refine ⟨c, t.take n, by rw [List.length_take, Nat.min_eq_left hn], List.take_prefix _ _, ?_⟩
    generalize t.take n = u at hspells
    cases hspells with
    | one hb hc => exact ⟨by simp, fun _ => ⟨rfl, hc⟩, fun _ => hc⟩
    | two hlo hhi hx hc =>
      refine ⟨?_, by omega, by omega⟩
      simp only [List.mem_singleton, forall_eq]
      exact hx.1
    | three hlo hhi hx hy hlow hc =>
      refine ⟨?_, by omega, by omega⟩
      simp only [List.mem_cons, List.not_mem_nil, or_false, forall_eq_or_imp, forall_eq]
      exact ⟨hx.1, hy.1⟩
    | four hlo hhi hx hy hz hlow hc =>
      refine ⟨?_, by omega, by omega⟩
      simp only [List.mem_cons, List.not_mem_nil, or_false, forall_eq_or_imp, forall_eq]
      exact ⟨hx.1, hy.1, hz.1⟩

/-- A character of one byte is found where its byte is. -/
theorem decodeFirst_eq_iff {b : UInt8} {t : Bytes} {c x : Char} {w : Nat}
    (h : decodeFirst (b :: t) = (c, w)) (hx : x.toNat < 0x80) :
    (c = x ↔ b = byte x) ∧ (b = byte x → w = 1) := by
  obtain ⟨c', u, heq, -, -, hb, hc⟩ := decodeFirst_cons b t
  obtain ⟨rfl, rfl⟩ := Prod.mk.inj (heq.symm.trans h)
  have hbyte : (byte x).toNat = x.toNat :=
    UInt32.toNat_toUInt8 x.val ▸ Nat.mod_eq_of_lt (Nat.lt_trans hx (by decide))
  have hsmall : b = byte x → b.toNat < 0x80 := by
    rintro rfl
    omega
  refine ⟨⟨?_, fun hbx => ?_⟩, fun hbx => ?_⟩
  · rintro rfl
    exact UInt8.toNat_inj.mp ((hc hx).symm.trans hbyte.symm)
  · have := (hb (hsmall hbx)).2
    rw [hbx, hbyte] at this
    exact Char.toNat_inj.mp this
  · rw [(hb (hsmall hbx)).1, List.length_nil]

end Utf8

namespace Glob

/-! ## 1. Reading a pattern

The states of the reader are those of the check, and one more: inside a class it remembers whether the class is
negated, since a member is exposed there for another reason. -/

/-- Where a reader of a pattern is. -/
inductive Spot where
  /-- Outside a class. -/
  | plain
  /-- Behind a backslash outside a class. -/
  | escaped
  /-- Behind the bracket that opens a class. -/
  | opening
  /-- Behind the sign that negates the class. -/
  | sign
  /-- Behind a member of a class. -/
  | members (negated : Bool)
  /-- Behind a backslash inside a class. -/
  | quoted (negated : Bool)
  deriving DecidableEq

namespace Spot

/-- What the check of a pattern expects there. -/
def reading : Spot → Reading
  | plain => .plain
  | escaped => .escaped
  | opening => .classOpen
  | sign => .classFirst
  | members _ => .classRest
  | quoted _ => .classEscaped

/-- Where the reader is after a byte. -/
def next : Spot → UInt8 → Spot
  | plain, b => if b = byte '\\' then escaped else if b = byte '[' then opening else plain
  | escaped, _ => plain
  | opening, b =>
    if b = byte '^' ∨ b = byte '!' then sign else if b = byte '\\' then quoted false else members false
  | sign, b => if b = byte '\\' then quoted true else members true
  | members n, b => if b = byte ']' then plain else if b = byte '\\' then quoted n else members n
  | quoted n, _ => members n

/-- The number of curly brackets that are open after a byte, `depth` of them being open before. -/
def deepen (depth : Nat) (b : UInt8) : Spot → Nat
  | plain => if b = 0x7B then depth + 1 else if b = 0x7D then depth - 1 else depth
  | _ => depth

/-- The byte cannot stand there: it closes what is not open, or a class without members. -/
def breaks (depth : Nat) (b : UInt8) : Spot → Bool
  | plain => b = 0x7D && depth = 0
  | opening => b = byte ']'
  | sign => b = byte ']'
  | _ => false

/-- The byte is a member of a class and something else to the matcher, which does not look for classes when
it cuts alternatives, and takes the rest of a negated class for a pattern once a member has been found. -/
def exposes (depth : Nat) (b : UInt8) : Spot → Bool
  | opening => 0 < depth && [0x7B, 0x7D, byte ','].contains b
  | sign => 0 < depth && [0x7B, 0x7D, byte ','].contains b
  | members n =>
    (0 < depth && [0x7B, 0x7D, byte ','].contains b) || (n && [0x7B, 0x7D, byte '['].contains b)
  | _ => false

end Spot

/-- Some class of the rest of a pattern has an exposed member. -/
def exposesFrom : Spot → Nat → Bytes → Bool
  | _, _, [] => false
  | s, depth, b :: t => s.exposes depth b || exposesFrom (s.next b) (s.deepen depth b) t

/-- **Some class of the pattern has an exposed member**: inside of curly brackets a curly bracket or a comma
without a backslash, or in a negated class, behind another member, a curly bracket or an opening bracket. -/
def exposes (pattern : Bytes) : Bool := exposesFrom .plain 0 pattern

variable {s s' : Spot} {k k' : Nat} {b : UInt8} {t u v : Bytes} {inside : Bool}

/-- Reads one byte, unless it cannot stand there or is exposed.  What stands `inside` curly brackets has one
more of them around it. -/
def advance (inside : Bool) (r : Spot × Nat) (b : UInt8) : Option (Spot × Nat) :=
  if r.1.breaks r.2 b || r.1.exposes (r.2 + inside.toNat) b then none
  else some (r.1.next b, r.1.deepen r.2 b)

/-- Reads on to the end of a text. -/
def scan (inside : Bool) : Spot × Nat → Bytes → Option (Spot × Nat)
  | r, [] => some r
  | r, b :: t => (advance inside r b).bind fun r => scan inside r t

/-- A well-formed pattern, none of whose classes has an exposed member. -/
def Steady (t : Bytes) : Prop := scan false (.plain, 0) t = some (.plain, 0)

theorem scan_append (r : Spot × Nat) : ∀ u : Bytes,
    scan inside r (u ++ v) = (scan inside r u).bind fun r => scan inside r v := by
  intro u
  induction u generalizing r with
  | nil => rfl
  | cons b u ih =>
    rw [List.cons_append, scan, scan, Option.bind_assoc]
    exact congrArg _ (funext ih)

/-- The check reads a pattern like a reader that does not mind exposed members. -/
theorem wellFormedFrom_cons (s : Spot) (k : Nat) (b : UInt8) (t : Bytes) :
    wellFormedFrom s.reading k (b :: t) =
      (!s.breaks k b && wellFormedFrom (s.next b).reading (s.deepen k b) t) := by
  -- The bytes that have a meaning in each state, and all others at once.
  cases s with
  | plain =>
    by_cases hback : b = byte '\\'
    · subst hback
      rfl
    by_cases hopen : b = byte '['
    · subst hopen
      rfl
    by_cases hleft : b = 0x7B
    · subst hleft
      rfl
    by_cases hright : b = 0x7D
    · subst hright
      cases k <;> rfl
    simp [Spot.reading, wellFormedFrom, Spot.breaks, Spot.next, Spot.deepen, hback, hopen, hleft, hright]
  | escaped => rfl
  | opening =>
    by_cases hsign : b = byte '^' ∨ b = byte '!'
    · rcases hsign with rfl | rfl <;> rfl
    by_cases hclose : b = byte ']'
    · subst hclose
      rfl
    by_cases hback : b = byte '\\'
    · subst hback
      rfl
    simp [Spot.reading, wellFormedFrom, Spot.breaks, Spot.next, Spot.deepen, Reading.member, hsign, hclose,
      hback]
  | sign =>
    by_cases hclose : b = byte ']'
    · subst hclose
      rfl
    by_cases hback : b = byte '\\'
    · subst hback
      rfl
    simp [Spot.reading, wellFormedFrom, Spot.breaks, Spot.next, Spot.deepen, Reading.member, hclose, hback]
  | members n =>
    by_cases hclose : b = byte ']'
    · subst hclose
      rfl
    by_cases hback : b = byte '\\'
    · subst hback
      rfl
    simp [Spot.reading, wellFormedFrom, Spot.breaks, Spot.next, Spot.deepen, Reading.member, hclose, hback]
  | quoted n => rfl

/-- **A steady pattern passes the check and exposes no member**, and the other way round. -/
theorem scan_eq_plain_iff : ∀ (t : Bytes) (s : Spot) (k : Nat), scan false (s, k) t = some (.plain, 0) ↔
    wellFormedFrom s.reading k t = true ∧ exposesFrom s k t = false
  | [], s, k => by
    cases s <;> simp [scan, wellFormedFrom, exposesFrom, Spot.reading]
  | b :: t, s, k => by
    rw [scan, wellFormedFrom_cons, exposesFrom, advance]
    dsimp only
    rw [Bool.toNat_false, Nat.add_zero]
    cases hb : s.breaks k b <;> cases he : s.exposes k b <;>
      simp [scan_eq_plain_iff t]

theorem advance_eq_some {r : Spot × Nat} : advance inside (s, k) b = some r ↔
    s.breaks k b = false ∧ s.exposes (k + inside.toNat) b = false ∧ r = (s.next b, s.deepen k b) := by
  unfold advance
  dsimp only
  cases s.breaks k b <;> cases s.exposes (k + inside.toNat) b <;> simp [eq_comm]

theorem scan_cons_eq_some {r r' : Spot × Nat} : scan inside r (b :: t) = some r' ↔
    ∃ r₁, advance inside r b = some r₁ ∧ scan inside r₁ t = some r' := by
  rw [scan, Option.bind_eq_some_iff]

/-! ## 2. Alternatives

The matcher counts brackets and skips what is behind a backslash, and does not know of classes.  The reader does
the same as long as it meets no bracket or comma as a member, and these are exposed inside of curly brackets.  So
the two agree on where alternatives end, byte by byte; the inductions follow the matcher's own recursion. -/

/-- Not behind a backslash. -/
def Spot.live : Spot → Bool
  | escaped => false
  | quoted _ => false
  | _ => true

theorem live_next (hs : s.live = true) (hb : b ≠ byte '\\') : (s.next b).live = true := by
  cases s with
  | escaped => cases hs
  | quoted n => cases hs
  | plain => simp only [Spot.next, if_neg hb]; split <;> rfl
  | opening => simp only [Spot.next, if_neg hb]; split <;> rfl
  | sign => simp only [Spot.next, if_neg hb]; rfl
  | members n => simp only [Spot.next, if_neg hb]; split <;> rfl

/-- A backslash and the byte behind it leave the reader where it was, or behind a member. -/
theorem live_next_next (hs : s.live = true) (b : UInt8) : ((s.next (byte '\\')).next b).live = true := by
  cases s with
  | escaped => cases hs
  | quoted n => cases hs
  | plain => rfl
  | opening => rfl
  | sign => rfl
  | members n => rfl

/-- A curly bracket or a comma that is read inside of curly brackets is no member of a class. -/
theorem plain_of_curly {r : Spot × Nat} (hs : s.live = true) (hk : 0 < k + inside.toNat)
    (hb : b = 0x7B ∨ b = 0x7D ∨ b = byte ',') (h : advance inside (s, k) b = some r) : s = .plain := by
  have hmem : [0x7B, 0x7D, byte ','].contains b = true := by
    rcases hb with rfl | rfl | rfl <;> rfl
  have hexp := (advance_eq_some.mp h).2.1
  cases s with
  | plain => rfl
  | escaped => cases hs
  | quoted n => cases hs
  | opening => rw [Spot.exposes, hmem, decide_eq_true hk] at hexp; cases hexp
  | sign => rw [Spot.exposes, hmem, decide_eq_true hk] at hexp; cases hexp
  | members n => rw [Spot.exposes, hmem, decide_eq_true hk] at hexp; cases hexp

theorem deepen_of_ne (s : Spot) (k : Nat) (hleft : b ≠ 0x7B) (hright : b ≠ 0x7D) : s.deepen k b = k := by
  cases s <;> simp [Spot.deepen, hleft, hright]

theorem deepen_of_not_live (hs : s.live = false) (k : Nat) (b : UInt8) : s.deepen k b = k := by
  cases s <;> first | rfl | cases hs

theorem breaks_of_ne (s : Spot) (k k' : Nat) (hright : b ≠ 0x7D) : s.breaks k b = s.breaks k' b := by
  cases s <;> simp [Spot.breaks, hright]

theorem breaks_of_not_live (hs : s.live = false) (k : Nat) (b : UInt8) : s.breaks k b = false := by
  cases s <;> first | rfl | cases hs

/-- The brackets around a text can be counted with it or apart. -/
theorem advance_inside {r : Spot × Nat} (hb : s.live = false ∨ (b ≠ 0x7B ∧ b ≠ 0x7D))
    (h : advance false (s, k + 1) b = some r) :
    r = (s.next b, k + 1) ∧ advance true (s, k) b = some (s.next b, k) := by
  obtain ⟨hbreaks, hexp, rfl⟩ := advance_eq_some.mp h
  rw [advance_eq_some, Bool.toNat_true]
  rw [Bool.toNat_false, Nat.add_zero] at hexp
  rcases hb with hs | ⟨hleft, hright⟩
  · rw [deepen_of_not_live hs, deepen_of_not_live hs, breaks_of_not_live hs]
    exact ⟨rfl, rfl, hexp, rfl⟩
  · rw [deepen_of_ne s _ hleft hright, deepen_of_ne s _ hleft hright, breaks_of_ne s k (k + 1) hright]
    exact ⟨rfl, hbreaks, hexp, rfl⟩

/-- A backslash leads behind one, in a class and outside. -/
theorem not_live_next (hs : s.live = true) : (s.next (byte '\\')).live = false := by
  cases s with
  | escaped => cases hs
  | quoted n => cases hs
  | plain => rfl
  | opening => rfl
  | sign => rfl
  | members n => rfl

theorem closing_escaped (k : Nat) (c : UInt8) (t : Bytes) :
    closing k (byte '\\' :: c :: t) = (closing k t).map (· + 2) := by
  cases k <;> rw [closing, if_pos rfl]

theorem closing_open (k : Nat) (c : UInt8) (t : Bytes) :
    closing k (0x7B :: c :: t) = (closing (k + 1) (c :: t)).map (· + 1) := by
  cases k <;> rw [closing, if_neg (by decide), if_pos rfl]

theorem closing_other (hback : b ≠ byte '\\') (hleft : b ≠ 0x7B) (hright : b ≠ 0x7D) (k : Nat) (c : UInt8)
    (t : Bytes) : closing k (b :: c :: t) = (closing k (c :: t)).map (· + 1) := by
  cases k <;> rw [closing, if_neg hback, if_neg hleft, if_neg hright]

/-- **Alternatives end where their bracket is closed.** -/
theorem closing_of_scan (k : Nat) (t : Bytes) : ∀ s : Spot, s.live = true →
    scan false (s, k + 1) t = some (.plain, 0) →
    ∃ u v, t = u ++ 0x7D :: v ∧ closing k t = some u.length ∧ scan true (s, k) u = some (.plain, 0) ∧
      Steady v := by
  induction k, t using closing.induct with
  | case1 k =>
    intro s _ h
    cases h
  -- The last byte closes the alternatives.
  | case2 k b hb =>
    intro s hs h
    obtain ⟨rfl, rfl⟩ := hb
    obtain ⟨r, hr, -⟩ := scan_cons_eq_some.mp h
    obtain rfl := plain_of_curly hs (by simp) (Or.inr (Or.inl rfl)) hr
    exact ⟨[], [], rfl, rfl, rfl, rfl⟩
  | case3 k b hb =>
    intro s hs h
    obtain ⟨r, hr, hend⟩ := scan_cons_eq_some.mp h
    cases hend
    by_cases hleft : b = 0x7B
    · obtain rfl := plain_of_curly hs (by simp) (Or.inl hleft) hr
      subst hleft
      cases hr
    by_cases hright : b = 0x7D
    · obtain rfl := plain_of_curly hs (by simp) (Or.inr (Or.inl hright)) hr
      subst hright
      obtain ⟨-, -, heq⟩ := advance_eq_some.mp hr
      have hk : k + 1 - 1 = 0 := (Prod.mk.inj heq).2.symm
      exact absurd ⟨rfl, by omega⟩ hb
    · have heq := (advance_inside (Or.inr ⟨hleft, hright⟩) hr).1
      exact absurd (Prod.mk.inj heq).2.symm (Nat.succ_ne_zero k)
  -- A backslash and the byte behind it, which neither side looks at.
  | case4 k c t ih =>
    intro s hs h
    obtain ⟨r, hr, h⟩ := scan_cons_eq_some.mp h
    obtain ⟨rfl, hin⟩ := advance_inside (Or.inr ⟨by decide, by decide⟩) hr
    obtain ⟨r, hr, h⟩ := scan_cons_eq_some.mp h
    obtain ⟨rfl, hin'⟩ := advance_inside (Or.inl (not_live_next hs)) hr
    obtain ⟨u, v, rfl, hclosing, hu, hv⟩ := ih _ (live_next_next hs c) h
    refine ⟨byte '\\' :: c :: u, v, rfl, ?_, ?_, hv⟩
    · rw [closing_escaped, hclosing]
      rfl
    · exact scan_cons_eq_some.mpr ⟨_, hin, scan_cons_eq_some.mpr ⟨_, hin', hu⟩⟩
  -- A bracket inside is opened, and one level more has to be closed.
  | case5 k c t hne ih =>
    intro s hs h
    obtain ⟨r, hr, h⟩ := scan_cons_eq_some.mp h
    obtain rfl := plain_of_curly hs (by simp) (Or.inl rfl) hr
    cases hr
    obtain ⟨u, v, heq, hclosing, hu, hv⟩ := ih _ rfl h
    refine ⟨0x7B :: u, v, by rw [heq]; rfl, ?_, ?_, hv⟩
    · rw [closing_open, hclosing]
      rfl
    · exact scan_cons_eq_some.mpr ⟨_, rfl, hu⟩
  -- The bracket that closes the alternatives, with more behind it.
  | case6 c t hne hne' =>
    intro s hs h
    obtain ⟨r, hr, h⟩ := scan_cons_eq_some.mp h
    obtain rfl := plain_of_curly hs (by simp) (Or.inr (Or.inl rfl)) hr
    cases hr
    exact ⟨[], c :: t, rfl, rfl, rfl, h⟩
  | case7 c t k hne hne' ih =>
    intro s hs h
    obtain ⟨r, hr, h⟩ := scan_cons_eq_some.mp h
    obtain rfl := plain_of_curly hs (by simp) (Or.inr (Or.inl rfl)) hr
    cases hr
    obtain ⟨u, v, heq, hclosing, hu, hv⟩ := ih _ rfl h
    refine ⟨0x7D :: u, v, by rw [heq]; rfl, ?_, ?_, hv⟩
    · rw [closing, if_neg hne, if_neg hne', if_pos rfl, hclosing]
      rfl
    · exact scan_cons_eq_some.mpr ⟨_, rfl, hu⟩
  | case8 k b c t hback hleft hright ih =>
    intro s hs h
    obtain ⟨r, hr, h⟩ := scan_cons_eq_some.mp h
    obtain ⟨rfl, hin⟩ := advance_inside (Or.inr ⟨hleft, hright⟩) hr
    obtain ⟨u, v, heq, hclosing, hu, hv⟩ := ih _ (live_next hs hback) h
    refine ⟨b :: u, v, by rw [heq]; rfl, ?_, ?_, hv⟩
    · rw [closing_other hback hleft hright, hclosing]
      rfl
    · exact scan_cons_eq_some.mpr ⟨_, hin, hu⟩

/-- **Alternatives can be read apart.** -/
theorem alternatives_of_scan (k : Nat) (t : Bytes) : ∀ s : Spot, s.live = true →
    scan true (s, k) t = some (.plain, 0) →
    ∃ p ps, alternatives k t = p :: ps ∧ scan true (s, k) p = some (.plain, 0) ∧
      ∀ q ∈ ps, scan true (.plain, 0) q = some (.plain, 0) := by
  induction k, t using alternatives.induct with
  | case1 k =>
    intro s _ h
    exact ⟨[], [], rfl, h, by simp⟩
  -- A comma at the end leaves an empty alternative behind it.
  | case2 k b hb =>
    intro s hs h
    obtain ⟨r, hr, -⟩ := scan_cons_eq_some.mp h
    obtain rfl := plain_of_curly hs (by simp) (Or.inr (Or.inr hb.1)) hr
    refine ⟨[], [[]], by rw [alternatives, if_pos hb], by rw [hb.2]; rfl, ?_⟩
    simp [scan]
  | case3 k b hb =>
    intro s _ h
    exact ⟨[b], [], by rw [alternatives, if_neg hb], h, by simp⟩
  | case4 k c t ih =>
    intro s hs h
    obtain ⟨r, hr, h⟩ := scan_cons_eq_some.mp h
    obtain ⟨r', hr', h⟩ := scan_cons_eq_some.mp h
    obtain ⟨-, -, rfl⟩ := advance_eq_some.mp hr
    obtain ⟨-, -, rfl⟩ := advance_eq_some.mp hr'
    rw [deepen_of_not_live (not_live_next hs), deepen_of_ne s k (by decide) (by decide)] at h hr'
    rw [deepen_of_ne s k (by decide) (by decide)] at hr
    obtain ⟨p, ps, halt, hp, hps⟩ := ih _ (live_next_next hs c) h
    refine ⟨byte '\\' :: c :: p, ps, ?_, ?_, hps⟩
    · rw [alternatives, if_pos rfl, halt]
      rfl
    · exact scan_cons_eq_some.mpr ⟨_, hr, scan_cons_eq_some.mpr ⟨_, hr', hp⟩⟩
  | case5 k c t hne ih =>
    intro s hs h
    obtain ⟨r, hr, h⟩ := scan_cons_eq_some.mp h
    obtain rfl := plain_of_curly hs (by simp) (Or.inl rfl) hr
    cases hr
    obtain ⟨p, ps, halt, hp, hps⟩ := ih _ rfl h
    refine ⟨0x7B :: p, ps, ?_, scan_cons_eq_some.mpr ⟨_, rfl, hp⟩, hps⟩
    rw [alternatives, if_neg hne, if_pos rfl, halt]
    rfl
  | case6 k c t hne hne' ih =>
    intro s hs h
    obtain ⟨r, hr, h⟩ := scan_cons_eq_some.mp h
    obtain rfl := plain_of_curly hs (by simp) (Or.inr (Or.inl rfl)) hr
    obtain ⟨-, -, rfl⟩ := advance_eq_some.mp hr
    obtain ⟨p, ps, halt, hp, hps⟩ := ih _ rfl h
    refine ⟨0x7D :: p, ps, ?_, scan_cons_eq_some.mpr ⟨_, hr, hp⟩, hps⟩
    rw [alternatives, if_neg hne, if_neg hne', if_pos rfl, halt]
    rfl
  -- A comma between alternatives: the first of them ends here, and the reader starts anew.
  | case7 k b c t hback hleft hright hb ih =>
    intro s hs h
    obtain ⟨rfl, rfl⟩ := hb
    obtain ⟨r, hr, h⟩ := scan_cons_eq_some.mp h
    obtain rfl := plain_of_curly hs (by simp) (Or.inr (Or.inr rfl)) hr
    cases hr
    obtain ⟨p, ps, halt, hp, hps⟩ := ih _ rfl h
    refine ⟨[], p :: ps, ?_, rfl, List.forall_mem_cons.mpr ⟨hp, hps⟩⟩
    rw [alternatives, if_neg hback, if_neg hleft, if_neg hright, if_pos ⟨rfl, rfl⟩, halt]
  | case8 k b c t hback hleft hright hb ih =>
    intro s hs h
    obtain ⟨r, hr, h⟩ := scan_cons_eq_some.mp h
    obtain ⟨-, -, rfl⟩ := advance_eq_some.mp hr
    rw [deepen_of_ne s k hleft hright] at h hr
    obtain ⟨p, ps, halt, hp, hps⟩ := ih _ (live_next hs hback) h
    refine ⟨b :: p, ps, ?_, scan_cons_eq_some.mpr ⟨_, hr, hp⟩, hps⟩
    rw [alternatives, if_neg hback, if_neg hleft, if_neg hright, if_neg hb, halt]
    rfl

/-- What can be read inside of curly brackets can be read outside: less is exposed there. -/
theorem scan_outside {r : Spot × Nat} : ∀ (t : Bytes) (s : Spot) (k : Nat), scan true (s, k) t = some r →
    scan false (s, k) t = some r
  | [], _, _, h => h
  | b :: t, s, k, h => by
    obtain ⟨r₁, hr, h⟩ := scan_cons_eq_some.mp h
    obtain ⟨hbreaks, hexp, rfl⟩ := advance_eq_some.mp hr
    refine scan_cons_eq_some.mpr ⟨_, advance_eq_some.mpr ⟨hbreaks, ?_, rfl⟩, scan_outside t _ _ h⟩
    cases s <;> simp_all [Spot.exposes]

/-- **Every alternative, with what follows the brackets, is a pattern of its own.** -/
theorem branches_steady (h : scan false (.plain, 1) t = some (.plain, 0)) :
    ∃ n, closing 0 t = some n ∧ ∀ alt ∈ alternatives 0 (t.take n),
      scan false (.plain, 0) alt = some (.plain, 0) ∧ Steady (t.drop (n + 1)) := by
  obtain ⟨u, v, rfl, hclosing, hu, hv⟩ := closing_of_scan 0 t .plain rfl h
  obtain ⟨p, ps, halt, hp, hps⟩ := alternatives_of_scan 0 u .plain rfl hu
  have hdrop : (u ++ 0x7D :: v).drop (u.length + 1) = v := by
    rw [← List.drop_drop, List.drop_left, List.drop_one, List.tail_cons]
  refine ⟨u.length, hclosing, ?_⟩
  rw [List.take_left, halt, hdrop]
  exact List.forall_mem_cons.mpr
    ⟨⟨scan_outside p _ _ hp, hv⟩, fun q hq => ⟨scan_outside q _ _ (hps q hq), hv⟩⟩

theorem Steady.append (hu : scan false (.plain, 0) u = some (.plain, 0)) (hv : Steady v) : Steady (u ++ v) := by
  rw [Steady, scan_append, hu]
  exact hv

theorem Steady.wellFormed (h : Steady t) : wellFormed t = true :=
  ((scan_eq_plain_iff t .plain 0).mp h).1

theorem firstMatch_ok {α : Type} {f : α → Except Malformed Bool} : ∀ {l : List α},
    (∀ a ∈ l, ∃ b, f a = .ok b) → ∃ b, firstMatch f l = .ok b
  | [], _ => ⟨false, rfl⟩
  | a :: l, h => by
    obtain ⟨b, hb⟩ := h a List.mem_cons_self
    rw [firstMatch, hb]
    cases b with
    | true => exact ⟨true, rfl⟩
    | false => exact firstMatch_ok fun x hx => h x (List.mem_cons_of_mem a hx)

/-- At the end of a name the rest of a steady pattern has an answer. -/
theorem matchesNothing_ok : ∀ (fuel : Nat) (t : Bytes), Steady t → ∃ b, matchesNothing fuel t = .ok b
  | 0, _, _ => ⟨false, rfl⟩
  | fuel + 1, t, h => by
    rw [matchesNothing.eq_def]
    dsimp only
    split
    · exact ⟨true, rfl⟩
    split
    · rename_i inside _
      obtain ⟨r, hr, hin⟩ := scan_cons_eq_some.mp h
      cases hr
      -- The alternatives at the front are closed, and with each of them the rest is steady.
      obtain ⟨n, hn, halts⟩ := branches_steady hin
      rw [hn]
      exact firstMatch_ok fun alt ha =>
        matchesNothing_ok fuel _ (Steady.append (halts alt ha).1 (halts alt ha).2)
    · rw [if_pos h.wellFormed]
      exact ⟨false, rfl⟩

/-! ## 3. Offsets

`Reads` says less than `scan`: it does not ask whether something is exposed, and it stops before the first curly
bracket.  It is therefore not changed when the pattern behind the offset is replaced by an alternative
(`splice`), and together with a steady pattern it gives back what `scan` says (`Reads.front`). -/

/-- Reads a text that opens no curly bracket. -/
def flat : Spot → Bytes → Option Spot
  | s, [] => some s
  | s, b :: t => if s = .plain ∧ b = 0x7B then none else flat (s.next b) t

/-- **A reader is there at an offset of the pattern**, and no curly bracket is opened before. -/
structure Reads (pattern : Bytes) (i : Nat) (s : Spot) : Prop where
  within : i ≤ pattern.length
  before : flat .plain (pattern.take i) = some s

theorem flat_append : ∀ (s : Spot) (u : Bytes), flat s (u ++ v) = (flat s u).bind fun s => flat s v
  | s, [] => rfl
  | s, b :: u => by
    rw [List.cons_append, flat, flat]
    split
    · rfl
    · exact flat_append _ u

/-- Where no curly bracket is opened, none is closed either. -/
theorem scan_of_flat {r : Spot × Nat} : ∀ (s : Spot) (u : Bytes), flat s u = some s' →
    scan false (s, 0) (u ++ v) = some r → scan false (s, 0) u = some (s', 0)
  | s, [], hflat, _ => by
    cases hflat
    rfl
  | s, b :: u, hflat, h => by
    rw [flat] at hflat
    split at hflat
    · cases hflat
    rename_i hleft
    obtain ⟨r₁, hr, h⟩ := scan_cons_eq_some.mp h
    obtain ⟨-, -, rfl⟩ := advance_eq_some.mp hr
    have hdeep : s.deepen 0 b = 0 := by
      cases s <;> simp_all [Spot.deepen]
    rw [hdeep] at h hr
    exact scan_cons_eq_some.mpr ⟨_, hr, scan_of_flat _ u hflat h⟩

/-- The bytes of a longer character change nothing outside a class and behind a member of one. -/
theorem flat_high (hs : s = .plain ∨ ∃ n, s = .members n) : ∀ {u : Bytes}, (∀ x ∈ u, 0x80 ≤ x.toNat) →
    flat s u = some s
  | [], _ => rfl
  | x :: u, h => by
    have hx : 0x80 ≤ x.toNat := h x List.mem_cons_self
    have hne : ∀ c : UInt8, c.toNat < 0x80 → x ≠ c := by
      rintro c hc rfl
      omega
    have hnext : s.next x = s := by
      rcases hs with rfl | ⟨n, rfl⟩
      · rw [Spot.next, if_neg (hne _ (by decide)), if_neg (hne _ (by decide))]
      · rw [Spot.next, if_neg (hne _ (by decide)), if_neg (hne _ (by decide))]
    rw [flat, if_neg fun hleft => hne 0x7B (by decide) hleft.2, hnext]
    exact flat_high hs fun y hy => h y (List.mem_cons_of_mem x hy)

namespace Reads

variable {pattern : Bytes} {i j : Nat}

theorem start (pattern : Bytes) : Reads pattern 0 .plain := ⟨Nat.zero_le _, rfl⟩

/-- The pattern up to there, read as a part of a steady pattern. -/
theorem front (hr : Reads pattern i s) (h : Steady pattern) :
    scan false (.plain, 0) (pattern.take i) = some (s, 0) := by
  rw [Steady, ← List.take_append_drop i pattern] at h
  exact scan_of_flat .plain _ hr.before h

/-- What is left of a steady pattern can be read from there. -/
theorem rest (hr : Reads pattern i s) (h : Steady pattern) :
    scan false (s, 0) (pattern.drop i) = some (.plain, 0) := by
  have hfront := hr.front h
  rw [Steady, ← List.take_append_drop i pattern, scan_append, hfront] at h
  exact h

theorem steady (hr : Reads pattern i .plain) (h : Steady pattern) : Steady (pattern.drop i) := hr.rest h

/-- A steady pattern does not end inside a class or behind a backslash. -/
theorem lt_length (hr : Reads pattern i s) (h : Steady pattern) (hs : s ≠ .plain) : i < pattern.length := by
  rcases Nat.lt_or_ge i pattern.length with hlt | hge
  · exact hlt
  · have hrest := hr.rest h
    rw [List.drop_eq_nil_of_le hge] at hrest
    cases hrest
    exact absurd rfl hs

theorem append (hr : Reads pattern i s) (hdrop : u <+: pattern.drop i) (hu : flat s u = some s') :
    Reads pattern (i + u.length) s' := by
  obtain ⟨v, hv⟩ := hdrop
  have hlen := congrArg List.length hv
  rw [List.length_append, List.length_drop] at hlen
  have hi := hr.within
  refine ⟨by omega, ?_⟩
  rw [List.take_add, ← hv, List.take_left, flat_append, hr.before]
  exact hu

theorem next (hr : Reads pattern i s) (hb : pattern[i]? = some b) (hleft : ¬(s = .plain ∧ b = 0x7B)) :
    Reads pattern (i + 1) (s.next b) := by
  refine hr.append (u := [b]) ?_ (by rw [flat, if_neg hleft, flat])
  obtain ⟨hi, rfl⟩ := List.getElem?_eq_some_iff.mp hb
  rw [List.drop_eq_getElem_cons hi]
  exact ⟨_, rfl⟩

/-- The first opened curly bracket has every offset of a reader before it. -/
theorem le_of_open (hi : Reads pattern i .plain) (hb : pattern[i]? = some 0x7B) (hj : Reads pattern j s) :
    j ≤ i := by
  rcases Nat.lt_or_ge i j with hlt | hge
  · -- An offset behind the bracket would have passed it.
    obtain ⟨n, rfl⟩ := Nat.exists_eq_add_of_lt hlt
    obtain ⟨hlen, heq⟩ := List.getElem?_eq_some_iff.mp hb
    have hbefore := hj.before
    rw [Nat.add_assoc, List.take_add, flat_append, hi.before, List.drop_eq_getElem_cons hlen, heq] at hbefore
    cases hbefore
  · exact hge

/-- What stands behind an offset has no part in it. -/
theorem splice (hj : Reads pattern j s) (hle : j ≤ i) (hi : i ≤ pattern.length) (v : Bytes) :
    Reads (pattern.take i ++ v) j s := by
  have htake : (pattern.take i).length = i := by rw [List.length_take, Nat.min_eq_left hi]
  refine ⟨by rw [List.length_append]; omega, ?_⟩
  rw [List.take_append_of_le_length (by omega), List.take_take, Nat.min_eq_left hle]
  exact hj.before

/-- One character further, where a byte of a longer character means nothing. -/
theorem char {c : Char} {w : Nat} (hr : Reads pattern i s) (hb : pattern[i]? = some b)
    (hleft : ¬(s = .plain ∧ b = 0x7B)) (hs : s.next b = .plain ∨ ∃ n, s.next b = .members n)
    (hdecode : Utf8.decodeFirst (pattern.drop i) = (c, w)) :
    Reads pattern (i + w) (s.next b) ∧ 0 < w := by
  obtain ⟨hi, rfl⟩ := List.getElem?_eq_some_iff.mp hb
  rw [List.drop_eq_getElem_cons hi] at hdecode
  obtain ⟨c', u, heq, hpre, hu, -, -⟩ := Utf8.decodeFirst_cons pattern[i] (pattern.drop (i + 1))
  obtain ⟨rfl, rfl⟩ := Prod.mk.inj (heq.symm.trans hdecode)
  refine ⟨?_, Nat.succ_pos _⟩
  rw [Nat.add_comm u.length, ← Nat.add_assoc]
  exact (hr.next hb hleft).append hpre (flat_high hs hu)

end Reads

/-! ## 4. Classes

A class is read in two ways.  Its members are looked through until one holds the character (`members`); if the
class is to match, the rest of it is then passed without looking (`classEnd`).  In a negated class with such a
member nothing is passed, and it is the pattern behind this member that is checked. -/

/-- A class ends where the reader leaves it. -/
theorem classEnd_of_scan {n : Bool} (t : Bytes) (h : scan false (.members n, 0) t = some (.plain, 0)) :
    ∃ u, u <+: t ∧ classEnd t = some u.length ∧ flat (.members n) u = some .plain := by
  induction t using classEnd.induct with
  | case1 => cases h
  | case2 => exact ⟨[byte ']'], List.prefix_rfl, rfl, rfl⟩
  | case3 b hclose =>
    obtain ⟨r, hr, h⟩ := scan_cons_eq_some.mp h
    obtain ⟨-, -, rfl⟩ := advance_eq_some.mp hr
    have hplain : (Spot.members n).next b = .plain := (Prod.mk.inj (Option.some.inj h)).1
    rw [Spot.next, if_neg hclose] at hplain
    split at hplain <;> cases hplain
  -- A backslash and the byte behind it.
  | case4 c t ih =>
    obtain ⟨r, hr, h⟩ := scan_cons_eq_some.mp h
    obtain ⟨-, -, rfl⟩ := advance_eq_some.mp hr
    obtain ⟨r, hr, h⟩ := scan_cons_eq_some.mp h
    obtain ⟨-, -, rfl⟩ := advance_eq_some.mp hr
    obtain ⟨u, ⟨v, rfl⟩, hend, hu⟩ := ih h
    refine ⟨byte '\\' :: c :: u, ⟨v, rfl⟩, ?_, ?_⟩
    · rw [classEnd, if_pos rfl, hend]
      rfl
    · rw [flat, if_neg (by simp), flat, if_neg (by rintro ⟨h, -⟩; cases h)]
      exact hu
  | case5 c t hne =>
    exact ⟨[byte ']'], ⟨c :: t, rfl⟩, by rw [classEnd, if_neg hne, if_pos rfl]; rfl, rfl⟩
  | case6 b c t hback hclose ih =>
    obtain ⟨r, hr, h⟩ := scan_cons_eq_some.mp h
    obtain ⟨-, -, rfl⟩ := advance_eq_some.mp hr
    have hnext : (Spot.members n).next b = .members n := by rw [Spot.next, if_neg hclose, if_neg hback]
    rw [hnext] at h
    obtain ⟨u, ⟨v, heq⟩, hend, hu⟩ := ih h
    refine ⟨b :: u, ⟨v, by rw [List.cons_append, heq]⟩, ?_, ?_⟩
    · rw [classEnd, if_neg hback, if_neg hclose, hend]
      rfl
    · rw [flat, if_neg (by simp), hnext]
      exact hu

/-- Behind the members of a negated class that hold a character comes a pattern that can be read. -/
theorem wellFormedFrom_of_negated : ∀ t : Bytes,
    (scan false (.members true, 0) t = some (.plain, 0) → wellFormedFrom .plain 0 t = true) ∧
      (scan false (.quoted true, 0) t = some (.plain, 0) → wellFormedFrom .escaped 0 t = true)
  | [] => ⟨nofun, nofun⟩
  | b :: t => by
    obtain ⟨ih, ih'⟩ := wellFormedFrom_of_negated t
    refine ⟨fun h => ?_, fun h => ?_⟩
    · obtain ⟨r, hr, h⟩ := scan_cons_eq_some.mp h
      obtain ⟨-, hexp, rfl⟩ := advance_eq_some.mp hr
      by_cases hclose : b = byte ']'
      · subst hclose
        exact ((scan_eq_plain_iff t .plain 0).mp h).1
      by_cases hback : b = byte '\\'
      · subst hback
        exact ih' h
      -- An exposed member is just a byte that would mean something outside of the class.
      simp only [Spot.exposes, Bool.toNat_false, Nat.add_zero, Nat.lt_irrefl, decide_false, Bool.false_and,
        Bool.false_or, Bool.true_and, List.contains_cons, List.contains_nil, Bool.or_false,
        Bool.or_eq_false_iff, beq_eq_false_iff_ne] at hexp
      rw [wellFormedFrom, if_neg hback, if_neg hexp.2.2, if_neg hexp.1, if_neg hexp.2.1]
      rw [Spot.next, if_neg hclose, if_neg hback] at h
      exact ih h
    · obtain ⟨r, hr, h⟩ := scan_cons_eq_some.mp h
      obtain ⟨-, -, rfl⟩ := advance_eq_some.mp hr
      exact ih h

/-- The byte is read there as it would be behind a member of a class. -/
def Spot.Within (s : Spot) (n : Bool) (b : UInt8) : Prop :=
  s ≠ .plain ∧ s.next b = (Spot.members n).next b ∧ (b = byte ']' → s = .members n)

theorem Spot.within_members (n : Bool) (b : UInt8) : (Spot.members n).Within n b :=
  ⟨nofun, rfl, fun _ => rfl⟩

namespace Reads

variable {pattern : Bytes} {i : Nat} {n : Bool} {c : Char} {w : Nat}

theorem some_of_steady (hr : Reads pattern i s) (h : Steady pattern) (hs : s ≠ .plain) :
    ∃ b, pattern[i]? = some b :=
  ⟨_, List.getElem?_eq_getElem (hr.lt_length h hs)⟩

/-- The character behind a backslash is a member. -/
theorem quoted (hr : Reads pattern i (.quoted n)) (h : Steady pattern)
    (hdecode : Utf8.decodeFirst (pattern.drop i) = (c, w)) : Reads pattern (i + w) (.members n) := by
  obtain ⟨b, hb⟩ := hr.some_of_steady h nofun
  exact (hr.char hb (by simp) (Or.inr ⟨n, rfl⟩) hdecode).1

/-- A character that does not end the class is a member, or a backslash before one. -/
theorem member (hr : Reads pattern i s) (hb : pattern[i]? = some b) (hs : s.Within n b)
    (hclose : b ≠ byte ']') (hdecode : Utf8.decodeFirst (pattern.drop i) = (c, w)) :
    0 < w ∧ Reads pattern (i + w) (if c = '\\' then .quoted n else .members n) := by
  obtain ⟨hplain, hnext, -⟩ := hs
  have hleft : ¬(s = .plain ∧ b = 0x7B) := fun h => hplain h.1
  obtain ⟨hi, hbi⟩ := List.getElem?_eq_some_iff.mp hb
  have hdecode' := hdecode
  rw [List.drop_eq_getElem_cons hi, hbi] at hdecode'
  obtain ⟨hiff, hw⟩ := Utf8.decodeFirst_eq_iff (x := '\\') hdecode' (by decide)
  rw [Spot.next, if_neg hclose] at hnext
  split
  · rename_i hc
    have hback := hiff.mp hc
    rw [if_pos hback] at hnext
    rw [hw hback, ← hnext]
    exact ⟨Nat.one_pos, hr.next hb hleft⟩
  · rename_i hc
    rw [if_neg fun hback => hc (hiff.mpr hback)] at hnext
    rw [← hnext]
    exact (hr.char hb hleft (Or.inr ⟨n, hnext⟩) hdecode).symm

end Reads

/-- How the reading of a class ends: behind a member that holds the character, or at the closing bracket. -/
structure Left (pattern : Bytes) (n : Bool) (r : Nat × Bool) : Prop where
  reads : Reads pattern r.1 (.members n)
  closed : r.2 = false → pattern[r.1]? = some (byte ']')

/-- **The members of a class are read to one that holds the character, or to the end of the class.** -/
theorem members_left {pattern : Bytes} {n : Bool} (h : Steady pattern) (c : Char) :
    ∀ (fuel last pos : Nat) (s : Spot), pattern.length < fuel + pos → Reads pattern pos s → s ≠ .plain →
      (∀ b, pattern[pos]? = some b → s.Within n b) → Left pattern n (members pattern c fuel last pos) := by
  intro fuel
  induction fuel with
  | zero =>
    intro last pos s hfuel hr
    have := hr.within
    omega
  | succ fuel ih =>
    intro last pos s hfuel hr hplain hwithin
    -- Each member either holds the character or is passed, and in both cases the reader is behind it.
    have on : ∀ (found : Prop) [Decidable found] (last next : Nat), pos < next →
        Reads pattern next (.members n) →
        Left pattern n (if found then (next, true) else members pattern c fuel last next) := by
      intro found _ last next hlt hr
      split
      · exact ⟨hr, nofun⟩
      · exact ih last next _ (by omega) hr nofun fun b _ => Spot.within_members n b
    obtain ⟨b, hb⟩ := hr.some_of_steady h hplain
    rw [members, hb]
    dsimp only
    by_cases hclose : b = byte ']'
    · rw [if_pos hclose]
      rw [(hwithin b hb).2.2 hclose] at hr
      exact ⟨hr, fun _ => by rw [hb, hclose]⟩
    rw [if_neg hclose]
    obtain ⟨m, w, hdecode⟩ : ∃ m w, Utf8.decodeFirst (pattern.drop pos) = (m, w) := ⟨_, _, rfl⟩
    obtain ⟨hw, hnext⟩ := hr.member hb (hwithin b hb) hclose hdecode
    have hne : (if m = '\\' then Spot.quoted n else .members n) ≠ .plain := by
      split <;> nofun
    obtain ⟨e, he⟩ := hnext.some_of_steady h hne
    rw [hdecode]
    dsimp only
    rw [he]
    dsimp only
    split
    · -- A range: its other end is a member like any, behind a backslash or not.
      rename_i hrange
      obtain ⟨-, rfl, hend⟩ := hrange
      rw [if_neg (by decide)] at hnext
      by_cases hback : e = byte '\\'
      · rw [if_pos hback]
        have hquoted : Reads pattern (pos + w + 1) (.quoted n) := by
          have := hnext.next he (by simp)
          rwa [hback] at this
        exact on _ _ _ (by omega) (hquoted.quoted h rfl)
      · rw [if_neg hback]
        have hmember : (Spot.members n).next e = .members n := by rw [Spot.next, if_neg hend, if_neg hback]
        have := (hnext.char he (by simp) (Or.inr ⟨n, hmember⟩) rfl).1
        rw [hmember] at this
        exact on _ _ _ (by omega) this
    · by_cases hm : m = '\\'
      · rw [if_pos hm] at hnext ⊢
        exact on _ _ (pos + w + _) (by omega) (hnext.quoted h rfl)
      · rw [if_neg hm] at hnext ⊢
        exact on _ _ _ (by omega) hnext

/-! ## 5. One step

A step answers, moves the cursor, goes over to alternatives, or refuses.  A refusal names an offset, and the
matcher calls the pattern malformed if what stands behind this offset does not pass the check; `Safe` says that
it does. -/

/-- A cursor that can be followed: it stands in a steady pattern, outside classes and alternatives, and so do
the places to resume from. -/
structure Sure (pattern : Bytes) (c : Cursor) : Prop where
  steady : Steady pattern
  here : Reads pattern c.pattern .plain
  star : ∀ r ∈ c.star, Reads pattern r.pattern .plain
  deep : ∀ r ∈ c.deep, Reads pattern r.pattern .plain

/-- What a step from such a cursor leads to. -/
inductive Safe (pattern : Bytes) (c : Cursor) : Step → Prop
  | move {c' : Cursor} : Sure pattern c' → Safe pattern c (.move c')
  | refuse {k : Nat} : (k < pattern.length → wellFormed (pattern.drop k) = true) → Safe pattern c (.refuse k)
  | branch {patterns : List Bytes} :
      (∀ p ∈ patterns, Sure p { c with segmentStart := true }) → Safe pattern c (.branch patterns)
  | answer {b : Bool} : Safe pattern c (.answer (.ok b))

section Steps

variable {pattern name : Bytes} {c : Cursor}

/-- The cursor moves on in the pattern and keeps the places to resume from. -/
theorem Sure.on (h : Sure pattern c) {i : Nat} (hi : Reads pattern i .plain) (name : Nat) (start : Bool) :
    Sure pattern { c with pattern := i, name := name, segmentStart := start } :=
  ⟨h.steady, hi, h.star, h.deep⟩

theorem Sure.refuse (h : Sure pattern c) : Safe pattern c (.refuse c.pattern) :=
  .refuse fun _ => (h.here.steady h.steady).wellFormed

theorem stepStar_safe (h : Sure pattern c) {i : Nat} (hi : Reads pattern i .plain) :
    Safe pattern c (stepStar c i) :=
  .move ⟨h.steady, hi, by rintro r ⟨⟩; exact hi, h.deep⟩

/-- Behind the opening bracket of a class, or the sign that negates it, stands a first member. -/
theorem Reads.first_member {i : Nat} {n : Bool} (hr : Reads pattern i s) (h : Steady pattern)
    (hs : s = .opening ∧ n = false ∧ pattern[i]? ≠ some (byte '^') ∧ pattern[i]? ≠ some (byte '!') ∨
      s = .sign ∧ n = true) : ∃ b, pattern[i]? = some b ∧ b ≠ byte ']' ∧ s.Within n b := by
  have hplain : s ≠ .plain := by
    rcases hs with ⟨rfl, -⟩ | ⟨rfl, -⟩ <;> nofun
  obtain ⟨b, hb⟩ := hr.some_of_steady h hplain
  have hrest := hr.rest h
  obtain ⟨hi, hbi⟩ := List.getElem?_eq_some_iff.mp hb
  rw [List.drop_eq_getElem_cons hi, hbi] at hrest
  obtain ⟨r, hadvance, -⟩ := scan_cons_eq_some.mp hrest
  have hbreaks := (advance_eq_some.mp hadvance).1
  -- A class without members would not have passed the check.
  have hclose : b ≠ byte ']' := by
    rcases hs with ⟨rfl, -⟩ | ⟨rfl, -⟩ <;> exact of_decide_eq_false hbreaks
  refine ⟨b, hb, hclose, hplain, ?_, fun hb => absurd hb hclose⟩
  rcases hs with ⟨rfl, rfl, hcaret, hbang⟩ | ⟨rfl, rfl⟩
  · rw [hb] at hcaret hbang
    have hsign : ¬(b = byte '^' ∨ b = byte '!') := by
      rintro (rfl | rfl)
      · exact hcaret rfl
      · exact hbang rfl
    rw [Spot.next, Spot.next, if_neg hsign, if_neg hclose]
  · rw [Spot.next, Spot.next, if_neg hclose]

/-- Where the reading of a class ends without a match, a pattern begins that can be read. -/
theorem Left.wellFormed {r : Nat × Bool} {n : Bool} (h : Steady pattern) (hleft : Left pattern n r)
    (hn : r.2 = n) : wellFormed (pattern.drop r.1) = true := by
  cases n with
  | true => exact (wellFormedFrom_of_negated _).1 (hleft.reads.rest h)
  | false =>
    have hclose := hleft.closed hn
    have hbehind : Steady (pattern.drop (r.1 + 1)) := (hleft.reads.next hclose (by simp)).steady h
    obtain ⟨hi, hbi⟩ := List.getElem?_eq_some_iff.mp hclose
    rw [List.drop_eq_getElem_cons hi, hbi]
    exact hbehind.wellFormed

/-- A class of a steady pattern starts with a member, behind a sign or not, and is read to its end. -/
theorem class_left (h : Sure pattern c) (hb : pattern[c.pattern]? = some (byte '[')) {sign : UInt8}
    (hsign : pattern[c.pattern + 1]? = some sign) {start : Nat}
    (hstart : start = if sign = byte '!' ∨ sign = byte '^' then c.pattern + 2 else c.pattern + 1) :
    pattern[start]?.all (· = byte ']') = false ∧
      ∀ shown, Left pattern (sign = byte '!' ∨ sign = byte '^')
        (members pattern shown pattern.length noMember start) := by
  have hopen : Reads pattern (c.pattern + 1) .opening := h.here.next hb (by decide)
  -- Behind the sign of a negated class, or behind the bracket where there is no sign.
  obtain ⟨s, hr, hpos, hs⟩ : ∃ s, Reads pattern start s ∧ 0 < start ∧
      (s = .opening ∧ decide (sign = byte '!' ∨ sign = byte '^') = false ∧
        pattern[start]? ≠ some (byte '^') ∧ pattern[start]? ≠ some (byte '!') ∨
      s = .sign ∧ decide (sign = byte '!' ∨ sign = byte '^') = true) := by
    by_cases hneg : sign = byte '!' ∨ sign = byte '^'
    · rw [if_pos hneg] at hstart
      refine ⟨.sign, ?_, by omega, Or.inr ⟨rfl, decide_eq_true hneg⟩⟩
      have hnext := hopen.next hsign (by simp)
      rw [Spot.next, if_pos hneg.symm] at hnext
      rw [hstart]
      exact hnext
    · rw [if_neg hneg] at hstart
      rw [not_or] at hneg
      subst hstart
      refine ⟨.opening, hopen, by omega, Or.inl ⟨rfl, by simp [hneg], ?_, ?_⟩⟩
      · rw [hsign]
        exact fun h => hneg.2 (Option.some.inj h)
      · rw [hsign]
        exact fun h => hneg.1 (Option.some.inj h)
  obtain ⟨b, hb, hclose, hwithin⟩ := hr.first_member h.steady hs
  refine ⟨by rw [hb]; simp [hclose], fun shown => ?_⟩
  refine members_left h.steady shown _ _ _ s (by omega) hr hwithin.1 fun b' hb' => ?_
  rw [hb] at hb'
  cases hb'
  exact hwithin

/-- **A class of a steady pattern** has members, and is closed behind them. -/
theorem stepClass_safe (h : Sure pattern c) (hb : pattern[c.pattern]? = some (byte '[')) :
    Safe pattern c (stepClass pattern name c) := by
  have hopen : Reads pattern (c.pattern + 1) .opening := h.here.next hb (by decide)
  obtain ⟨sign, hsign⟩ := hopen.some_of_steady h.steady nofun
  obtain ⟨hfirst, hleft⟩ := class_left h hb hsign rfl
  rw [stepClass, hsign]
  dsimp only
  rw [if_neg (by rw [hfirst]; exact Bool.false_ne_true)]
  obtain hleft := hleft (Utf8.decodeFirst (name.drop c.name)).1
  generalize members pattern _ pattern.length noMember _ = r at hleft
  have hlt : r.1 < pattern.length := hleft.reads.lt_length h.steady nofun
  -- The class refuses the character, or is left behind its closing bracket.
  split
  · rename_i hheld
    rw [if_neg (by omega)]
    exact .refuse fun _ => hleft.wellFormed h.steady hheld
  · obtain ⟨u, hpre, hend, hu⟩ := classEnd_of_scan _ (hleft.reads.rest h.steady)
    rw [hend]
    exact .move (h.on (hleft.reads.append hpre hu) _ _)

/-- The byte before a character that stands for itself may be the second of two backslashes.  With one of
them the pattern still can be read. -/
theorem wellFormed_behind {i : Nat} (h : Steady pattern) (hr : Reads pattern (i + 1) .plain)
    (hback : pattern[i]? = some (byte '\\')) (hb : pattern[i + 1]? = some b) (hopen : b ≠ byte '[')
    (hleft : b ≠ 0x7B) (hback' : b ≠ byte '\\') : wellFormed (pattern.drop i) = true := by
  have hnext := hr.next hb fun h => hleft h.2
  rw [Spot.next, if_neg hback', if_neg hopen] at hnext
  obtain ⟨hi, hbi⟩ := List.getElem?_eq_some_iff.mp hback
  obtain ⟨hi', hbi'⟩ := List.getElem?_eq_some_iff.mp hb
  rw [List.drop_eq_getElem_cons hi, hbi, List.drop_eq_getElem_cons hi', hbi']
  exact (hnext.steady h).wellFormed

/-- **A character that stands for itself**, behind a backslash or not. -/
theorem stepPlain_safe (h : Sure pattern c) {pos : Nat} (hr : Reads pattern pos s)
    (hb : pattern[pos]? = some b) (hleft : ¬(s = .plain ∧ b = 0x7B)) (hnext : s.next b = .plain)
    (hback : 0 < pos ∧ pattern[pos - 1]? = some (byte '\\') → wellFormed (pattern.drop (pos - 1)) = true)
    (hhere : ¬(0 < pos ∧ pattern[pos - 1]? = some (byte '\\')) → wellFormed (pattern.drop pos) = true) :
    Safe pattern c (stepPlain pattern name c pos) := by
  obtain ⟨p, w, hdecode⟩ : ∃ p w, Utf8.decodeFirst (pattern.drop pos) = (p, w) := ⟨_, _, rfl⟩
  rw [stepPlain, hdecode]
  dsimp only
  split
  · have hmoved := (hr.char hb hleft (Or.inl hnext) hdecode).1
    rw [hnext] at hmoved
    exact .move (h.on hmoved _ _)
  split
  · exact .refuse fun _ => hback ‹_›
  · exact .refuse fun _ => hhere ‹_›

/-- **Alternatives of a steady pattern** are closed, and each of them makes a steady pattern. -/
theorem branch_sure (h : Sure pattern c) (hb : pattern[c.pattern]? = some 0x7B) :
    ∃ n, closing 0 (pattern.drop (c.pattern + 1)) = some n ∧
      ∀ alt ∈ alternatives 0 ((pattern.drop (c.pattern + 1)).take n),
        Sure (pattern.take c.pattern ++ alt ++ (pattern.drop (c.pattern + 1)).drop (n + 1))
          { c with segmentStart := true } := by
  have hrest := h.here.rest h.steady
  obtain ⟨hi, hbi⟩ := List.getElem?_eq_some_iff.mp hb
  rw [List.drop_eq_getElem_cons hi, hbi] at hrest
  obtain ⟨r, hr, hrest⟩ := scan_cons_eq_some.mp hrest
  cases hr
  obtain ⟨n, hn, halts⟩ := branches_steady hrest
  refine ⟨n, hn, fun alt ha => ?_⟩
  obtain ⟨halt, hbehind⟩ := halts alt ha
  -- Offsets of a reader do not pass the bracket, also when a star stands ahead of the cursor's own.
  have hkeeps : ∀ {j : Nat}, Reads pattern j .plain → ∀ v, Reads (pattern.take c.pattern ++ v) j .plain :=
    fun hj => hj.splice (h.here.le_of_open hb hj) h.here.within
  rw [List.append_assoc]
  refine ⟨Steady.append (h.here.front h.steady) (Steady.append halt hbehind), hkeeps h.here _,
    fun r hr => hkeeps (h.star r hr) _, fun r hr => hkeeps (h.deep r hr) _⟩

/-- **Every step from a cursor that can be followed is safe.** -/
theorem step_safe (h : Sure pattern c) (name : Bytes) : Safe pattern c (step pattern name c) := by
  rw [step]
  cases hb : pattern[c.pattern]? with
  | none => exact h.refuse
  | some b =>
    -- A byte that is none of these leaves the reader outside of classes.
    have hplain : ∀ {i : Nat} {x : UInt8}, Reads pattern i .plain → pattern[i]? = some x →
        x ≠ byte '\\' → x ≠ byte '[' → x ≠ 0x7B → Reads pattern (i + 1) .plain := by
      intro i x hr hx hback hopen hleft
      have hnext := hr.next hx fun h => hleft h.2
      rwa [Spot.next, if_neg hback, if_neg hopen] at hnext
    dsimp only
    split
    · rename_i hstar
      subst hstar
      have hone := hplain h.here hb (by decide) (by decide) (by decide)
      split
      · rename_i hstar
        have htwo := hplain hone hstar (by decide) (by decide) (by decide)
        split
        · cases he : pattern[c.pattern + 2]? with
          | none => exact .answer
          | some e =>
            dsimp only
            split
            · rename_i hslash
              subst hslash
              have hthree := hplain htwo he (by decide) (by decide) (by decide)
              exact .move ⟨h.steady, hthree, nofun, by rintro r ⟨⟩; exact hthree⟩
            · exact stepStar_safe h htwo
        · exact stepStar_safe h htwo
      · exact stepStar_safe h hone
    split
    · rename_i hany
      subst hany
      split
      · exact h.refuse
      · exact .move (h.on (hplain h.here hb (by decide) (by decide) (by decide)) _ _)
    split
    · rename_i hopen
      subst hopen
      exact stepClass_safe h hb
    rename_i hopen
    split
    · rename_i hleft
      subst hleft
      obtain ⟨n, hn, halts⟩ := branch_sure h hb
      rw [hn]
      exact .branch (List.forall_mem_map.mpr halts)
    rename_i hleft
    split
    · -- Behind a backslash stands a character, and a refusal names the offset of the backslash.
      rename_i hback
      subst hback
      have hesc : Reads pattern (c.pattern + 1) .escaped := h.here.next hb (by decide)
      obtain ⟨x, hx⟩ := hesc.some_of_steady h.steady nofun
      rw [if_pos (hesc.lt_length h.steady nofun)]
      refine stepPlain_safe h hesc hx nofun rfl (fun _ => (h.here.steady h.steady).wellFormed) fun hno => ?_
      exact absurd ⟨Nat.succ_pos _, hb⟩ hno
    · -- A refusal names the byte before, if that is a backslash, which can only be the second of two.
      rename_i hback
      refine stepPlain_safe h h.here hb (fun h => hleft h.2) ?_ ?_ fun _ => (h.here.steady h.steady).wellFormed
      · rw [Spot.next, if_neg hback, if_neg hopen]
      · rintro ⟨hpos, hbefore⟩
        obtain ⟨i, hi⟩ := Nat.exists_eq_succ_of_ne_zero (Nat.pos_iff_ne_zero.mp hpos)
        have hr := h.here
        rw [hi] at hbefore hb hr ⊢
        exact wellFormed_behind h.steady hr hbefore hb hopen hleft hback

/-- A place to resume from can be followed like the cursor that kept it. -/
theorem resume?_sure (h : Sure pattern c) {c' : Cursor} (hc : resume? name c = some c') : Sure pattern c' := by
  have deeper : ∀ {star : Option Resume} {c' : Cursor}, (∀ r ∈ star, Reads pattern r.pattern .plain) →
      (c.deep.bind fun d =>
        (behindSlash (name.drop d.name)).map fun n =>
          { pattern := d.pattern, name := d.name + n, segmentStart := true, star := star
            deep := some ⟨d.pattern, d.name + n⟩ }) = some c' → Sure pattern c' := by
    intro star c' hstar hc
    obtain ⟨d, hd, hc⟩ := Option.bind_eq_some_iff.mp hc
    obtain ⟨n, -, rfl⟩ := Option.map_eq_some_iff.mp hc
    exact ⟨h.steady, h.deep d hd, hstar, by rintro r ⟨⟩; exact h.deep d hd⟩
  rw [resume?] at hc
  have hstar := h.star
  cases hs : c.star with
  | none =>
    rw [hs] at hc hstar
    exact deeper hstar hc
  | some r =>
    rw [hs] at hc hstar
    dsimp only at hc
    split at hc
    · exact deeper hstar hc
    · cases hc
      exact ⟨h.steady, hstar r rfl, by rintro r' ⟨⟩; exact hstar r rfl, h.deep⟩

end Steps

/-! ## 6. The loop -/

/-- **A cursor that can be followed leads to an answer.**  This holds for any amount of fuel; that the answer is not
the one for want of fuel is shown apart (`matchFrom_eq`). -/
theorem matchFrom_ok (name : Bytes) : ∀ (fuel : Nat) (pattern : Bytes) (c : Cursor), Sure pattern c →
    ∃ b, matchFrom fuel pattern name c = .ok b
  | 0, _, _, _ => ⟨false, rfl⟩
  | fuel + 1, pattern, c, h => by
    rw [matchFrom]
    split
    · exact matchesNothing_ok _ _ (h.here.steady h.steady)
    have hsafe := step_safe h name
    cases hstep : step pattern name c with
    | move c' =>
      rw [hstep] at hsafe
      cases hsafe with
      | move h' => exact matchFrom_ok name fuel pattern c' h'
    | answer r =>
      rw [hstep] at hsafe
      cases hsafe
      exact ⟨_, rfl⟩
    | branch patterns =>
      rw [hstep] at hsafe
      cases hsafe with
      | branch hall => exact firstMatch_ok fun p hp => matchFrom_ok name fuel p _ (hall p hp)
    | refuse k =>
      rw [hstep] at hsafe
      cases hsafe with
      | refuse hk =>
        dsimp only
        cases hres : resume? name c with
        | some c' => exact matchFrom_ok name fuel pattern c' (resume?_sure h hres)
        | none =>
          dsimp only
          rw [if_neg fun hbad => by simp [hk hbad.1] at hbad]
          exact ⟨false, rfl⟩

/-- **A pattern that passes the check and exposes no member has an answer for every name.** -/
theorem matches?_ok {pattern : Bytes} (hform : wellFormed pattern = true) (hexp : exposes pattern = false)
    (name : Bytes) : ∃ b, matches? pattern name = .ok b := by
  have hsteady : Steady pattern := (scan_eq_plain_iff pattern .plain 0).mpr ⟨hform, hexp⟩
  exact matchFrom_ok name _ pattern {} ⟨hsteady, Reads.start pattern, nofun, nofun⟩

end Glob

namespace Exclusion

theorem wellFormed_of_accepted {patterns : List Bytes} {p : Bytes} (h : firstMalformed? patterns = none)
    (hp : p ∈ patterns) : Glob.wellFormed p = true := by
  have := List.find?_eq_none.mp h p hp
  simpa using this

theorem hits_of_ok {p name : Bytes} {b : Bool} (h : Glob.matches? p name = .ok b) : hits p name = b := by
  rw [hits, h]

/-- **An accepted pattern has an answer for every path**, for the whole of it and for its last part, if none of
its classes exposes a member.  So an entry that it does not cover has been refused and not passed over. -/
theorem accepted_pattern_answers {patterns : List Bytes} {p : Bytes}
    (haccepted : firstMalformed? patterns = none) (hp : p ∈ patterns) (hexp : Glob.exposes p = false)
    (rel : Bytes) :
    (∃ b, Glob.matches? p rel = .ok b) ∧
      (∃ b, Glob.matches? p (Bytes.afterLast (byte '/') rel) = .ok b) ∧
      (covers rel p = false → Glob.matches? p rel = .ok false ∧
        (p.contains (byte '/') = false → Glob.matches? p (Bytes.afterLast (byte '/') rel) = .ok false)) := by
  have hform := wellFormed_of_accepted haccepted hp
  obtain ⟨b, hb⟩ := Glob.matches?_ok hform hexp rel
  obtain ⟨b', hb'⟩ := Glob.matches?_ok hform hexp (Bytes.afterLast (byte '/') rel)
  refine ⟨⟨b, hb⟩, ⟨b', hb'⟩, fun hcovers => ?_⟩
  rw [covers, hits_of_ok hb, hits_of_ok hb', Bool.or_eq_false_iff] at hcovers
  obtain ⟨rfl, hlast⟩ := hcovers
  refine ⟨hb, fun hslash => ?_⟩
  rw [hslash, Bool.not_false, Bool.true_and] at hlast
  rw [hb', hlast]

/-- Nested alternatives, a negated class and stars. -/
theorem accepted_pattern_answers_sources :
    firstMalformed? ["\x7bsrc,t\x7be,\x7dst\x7d/**/*.[^\\\x7dch]"] = none ∧
      Glob.exposes "\x7bsrc,t\x7be,\x7dst\x7d/**/*.[^\\\x7dch]" = false ∧
      ∃ b, Glob.matches? "\x7bsrc,t\x7be,\x7dst\x7d/**/*.[^\\\x7dch]" "tst/a.b/x.o" = .ok b :=
  ⟨by decide +kernel, by decide +kernel,
    (@accepted_pattern_answers ["\x7bsrc,t\x7be,\x7dst\x7d/**/*.[^\\\x7dch]"] _ (by decide +kernel)
      List.mem_cons_self (by decide +kernel) "tst/a.b/x.o").1⟩

/-- An accepted pattern that breaks off in the matcher: of `[,;]` and `-` it makes the alternatives `[`, `;]`
and `-`, and gives up at the first, so it covers neither `;` nor `-`. -/
theorem accepted_pattern_passed_over :
    firstMalformed? ["\x7b[,;],-\x7d"] = none ∧
      Glob.matches? "\x7b[,;],-\x7d" ";" = .error ⟨⟩ ∧ Glob.matches? "\x7b[,;],-\x7d" "-" = .error ⟨⟩ ∧
      excludes ["\x7b[,;],-\x7d"] ";" = false ∧ excludes ["\x7b[,;],-\x7d"] "-" = false := by
  decide +kernel

end Exclusion

end AgentKit
