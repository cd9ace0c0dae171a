import AgentKit.Proofs.Comparing
import AgentKit.Proofs.Patch.Diff
/-!
# Patches lead from the installed to the kit content

A comparison that is asked for patches puts one beside each file that differs.  Whoever has the installed
file and the patch has the content of the kit: the patch can be read as a unified diff under the right names,
each of its hunks stands where its old line number says, and with all of them applied the installed content
becomes that of the kit, byte for byte (`patch_applies`).

The numbers of the new side are another matter.  The writer does not count the lines that it keeps between two
edits of one hunk, so every later hunk is told to stand too early by that many lines, and its range can even
overlap with the one before (`patch_not_wellFormed`).  `patch_applies` says exactly how far the new side lags
(`Lags`), and with that when a patch is a well-formed diff after all: if no hunk but the last keeps a line between
two changes.

1. **Lines as bytes.**  Text is cut into lines as characters and again as bytes, with the same result.

2. **Laying out** (`Laid`).  At every moment the hunks so far, applied to the old lines, give the new lines up
   to the last edit.  An edit either goes on with the open hunk, with the lines in between as context, or it
   closes the hunk and begins one more than six lines further on, so contexts never overlap.  The same
   invariant carries what the writer has counted on the new side (`Level`).

3. The patch, which is read back and applied.

Both contents have to be UTF-8, since a patch is made of characters and others are replaced.
-/

namespace AgentKit.Patch

variable {old new t : List Char} {es : List Edit} {e : Edit}

/-! ## 1. Lines as bytes

A newline is a byte that occurs in no other character, so it does not matter whether a text is cut before or
after it is encoded. -/

/-- A text without newlines becomes the front of the first line. -/
theorem lines_flat_append {s : Bytes} (hs : s.Flat) (hne : s ≠ []) (rest : Bytes) :
    Bytes.lines (s ++ rest) = (s ++ (Bytes.lines rest).headD []) :: (Bytes.lines rest).tail := by
  induction s with
  | nil => exact absurd rfl hne
  | cons b s ih =>
    obtain ⟨hb, hs⟩ := Bytes.flat_cons.mp hs
    rw [List.cons_append, Bytes.lines, if_neg hb]
    cases s with
    | nil =>
      rw [List.nil_append]
      cases Bytes.lines rest <;> rfl
    | cons b' s => rw [ih hs (List.cons_ne_nil _ _)]; rfl

/-- The lines of a text, as characters and as bytes. -/
theorem lines_encodeAll : ∀ t : List Char, Bytes.lines (Utf8.encodeAll t) = (splitLines t).map Utf8.encodeAll
  | [] => rfl
  | c :: t => by
    have ih := lines_encodeAll t
    rw [Utf8.encodeAll_cons]
    by_cases hc : c = '\n'
    · rw [splitLines, if_pos hc, List.map_cons, ← ih, hc]
      rfl
    · obtain ⟨b, bs, hcons⟩ := Utf8.encode_eq_cons c
      rw [lines_flat_append (Utf8.flat_encode hc) (by rw [hcons]; exact List.cons_ne_nil _ _), ih]
      obtain ⟨l, ls, heq, ⟨hnil, rfl, rfl⟩ | hsplit⟩ := splitLines_cons hc t
      · rw [heq, hnil]
        rfl
      · rw [heq, hsplit]
        rfl

/-- The lines of a text put together are the text. -/
theorem flatten_lines : ∀ t : Bytes, (Bytes.lines t).flatten = t
  | [] => rfl
  | b :: t => by
    have ih := flatten_lines t
    rw [Bytes.lines]
    split
    · rw [List.flatten_cons, ih]
      rfl
    · split
      · rename_i hnil
        rw [hnil] at ih
        rw [← ih]
        rfl
      · rename_i p ps hcons
        rw [hcons, List.flatten_cons] at ih
        rw [List.flatten_cons, List.cons_append, ih]

/-! ## 2. Laying out hunks

The writer has finished hunks and one that is open.  The invariant says of both what they do when they are
applied, so that nothing is left to prove about applying when the layout is done. -/

theorem oldSide_append (xs ys : List Entry) : oldSide (xs ++ ys) = oldSide xs ++ oldSide ys := by
  simp [oldSide]

theorem newSide_append (xs ys : List Entry) : newSide (xs ++ ys) = newSide xs ++ newSide ys := by
  simp [newSide]

/-- The lines of a hunk on the old side. -/
def olds (ls : List Line) : List Bytes := oldSide (ls.map Line.entry)

/-- The lines of a hunk on the new side. -/
def news (ls : List Line) : List Bytes := newSide (ls.map Line.entry)

@[simp] theorem olds_append (xs ys : List Line) : olds (xs ++ ys) = olds xs ++ olds ys := by
  simp [olds, oldSide_append]

@[simp] theorem news_append (xs ys : List Line) : news (xs ++ ys) = news xs ++ news ys := by
  simp [news, newSide_append]

variable (ts : List (List Char))

/-- Lines with one sign: all of them are on the old side, or none. -/
theorem olds_map {f : List Char → Line} {sign : Sign} (hf : ∀ t, (f t).entry = ⟨sign, Utf8.encodeAll t⟩) :
    olds (ts.map f) = if sign = .add then [] else ts.map Utf8.encodeAll := by
  have hentries : (ts.map f).map Line.entry = ts.map fun t => ⟨sign, Utf8.encodeAll t⟩ := by
    rw [List.map_map]
    exact List.map_congr_left fun t _ => hf t
  rw [olds, oldSide, hentries]
  by_cases hadd : sign = .add <;> simp [hadd, List.filter_map, Function.comp_def]

theorem news_map {f : List Char → Line} {sign : Sign} (hf : ∀ t, (f t).entry = ⟨sign, Utf8.encodeAll t⟩) :
    news (ts.map f) = if sign = .remove then [] else ts.map Utf8.encodeAll := by
  have hentries : (ts.map f).map Line.entry = ts.map fun t => ⟨sign, Utf8.encodeAll t⟩ := by
    rw [List.map_map]
    exact List.map_congr_left fun t _ => hf t
  rw [news, newSide, hentries]
  by_cases hremove : sign = .remove <;> simp [hremove, List.filter_map, Function.comp_def]

theorem kept_eq (i j : Nat) : kept ts.toArray i j = (ts.extract i j).map Line.keep := by
  simp [kept]

variable {ts} {L : List Bytes} {hs done : List Hunk} {h : Hunk} {last start stop : Nat} {toLine : Int}
  {out : List Bytes}

/-- One hunk stands before another on both sides. -/
def Hunk.Above (g h : Hunk) : Prop := g.fromLine < h.fromLine ∧ g.toLine < h.toLine

/-- The hunks can be written, they follow each other, and none begins behind the places given. -/
structure Tidy (hs : List Hunk) (last : Nat) (toLine : Int) : Prop where
  legible : ∀ h ∈ hs, Legible h
  ordered : hs.Pairwise Hunk.Above
  below : ∀ h ∈ hs, h.fromLine ≤ last + 1 ∧ h.toLine ≤ toLine + 1

theorem Tidy.mono {last' : Nat} {toLine' : Int} (ht : Tidy hs last toLine) (hlast : last ≤ last')
    (hto : toLine ≤ toLine') : Tidy hs last' toLine' where
  legible := ht.legible
  ordered := ht.ordered
  below h hh := by
    have := ht.below h hh
    omega

/-- Lines that are put into the last hunk do not move it. -/
theorem Tidy.extend {ls : List Line} (ht : Tidy (done ++ [h]) last toLine) (hls : ∀ l ∈ ls, IsLine l.text) :
    Tidy (done ++ [{ h with lines := h.lines ++ ls }]) last toLine := by
  obtain ⟨hdone, hlegible⟩ := List.forall_mem_append.mp ht.legible
  have hlegible := List.forall_mem_singleton.mp hlegible
  obtain ⟨hordered, -, habove⟩ := List.pairwise_append.mp ht.ordered
  obtain ⟨hbelow, hlast⟩ := List.forall_mem_append.mp ht.below
  have hlast := hlast h List.mem_cons_self
  refine ⟨List.forall_mem_append.mpr ⟨hdone, List.forall_mem_singleton.mpr ?_⟩,
    List.pairwise_append.mpr ⟨hordered, List.pairwise_singleton _ _, fun g hg => ?_⟩,
    List.forall_mem_append.mpr ⟨hbelow, List.forall_mem_singleton.mpr hlast⟩⟩
  · refine ⟨List.forall_mem_append.mpr ⟨hlegible.lines, hls⟩, hlegible.fromLine, hlegible.toLine,
      hlegible.anchored.imp_left ?_⟩
    rintro ⟨l, hl, hkeep⟩
    exact ⟨l, List.mem_append_left _ hl, hkeep⟩
  · exact List.forall_mem_singleton.mpr (habove g hg h List.mem_cons_self)

/-! ### The new side

The writer counts the lines of the new side as it goes, and leaves out those that it keeps between two edits of one
hunk.  So what it has counted differs from what it should have by the lines kept in this way, and by nothing
else. -/

/-- Behind the hunks, `i` lines of the old side are taken to be `j` lines of the new side. -/
def Level (ps : List Part) (i j : Int) : Prop := j + oldLines ps + innerLines ps = i + newLines ps

/-- One more hunk shifts the two sides by its lines. -/
theorem level_concat {ps : List Part} {p : Part} {i j : Int} :
    Level (ps ++ [p]) i j ↔ Level ps (i + p.head.toCount) (j + p.head.fromCount + inner p.body) := by
  simp only [Level, oldLines, newLines, innerLines, List.map_append, List.sum_append, List.map_cons, List.map_nil,
    List.sum_cons, List.sum_nil]
  omega

/-- The hunk ends with a line that is not kept. -/
def Hunk.EndsChanged (h : Hunk) : Prop := ∃ e, (h.lines.map Line.entry).getLast? = some e ∧ e.sign ≠ .keep

theorem Hunk.EndsChanged.exists_change (hend : h.EndsChanged) : ∃ e ∈ h.lines.map Line.entry, e.sign ≠ .keep := by
  obtain ⟨e, hlast, hsign⟩ := hend
  exact ⟨e, List.mem_of_getLast? hlast, hsign⟩

/-- The layout with an open hunk: finished hunks, the open one, and the numbers of lines behind.  Applied to
the lines `L` up to `last`, the hunks give `out`.

`level` is about where the open hunk begins and `behind` about where the layout stands.  Between the two lie the
lines of the open hunk, which count on both sides, except that the writer has not counted its `spread`. -/
structure Laid (L : List Bytes) (done : List Hunk) (h : Hunk) (last : Nat) (toLine : Int) (out : List Bytes) :
    Prop where
  tidy : Tidy (done ++ [h]) last toLine
  nonneg : 0 ≤ toLine
  inside : last ≤ L.length
  lags : Lags (done.map Hunk.part)
  level : Level (done.map Hunk.part) h.fromLine h.toLine
  behind : Level (done.map Hunk.part) (last + (news h.lines).length)
    (toLine + (olds h.lines).length + spread (h.lines.map Line.entry))
  applies : ∃ j o k, (done.map Hunk.part).foldlM (Part.step L) (0, []) = some (j, o) ∧ j ≤ k ∧ k ≤ last ∧
    h.fromLine = k + 1 ∧ olds h.lines = L.extract k last ∧ out = o ++ L.extract j k ++ news h.lines

/-- **The open hunk can be applied as it is.** -/
theorem Laid.foldlM (hl : Laid L done h last toLine out) :
    ((done ++ [h]).map Hunk.part).foldlM (Part.step L) (0, []) = some (last, out) := by
  obtain ⟨j, o, k, hdone, hjk, hk, hfrom, holds, hout⟩ := hl.applies
  have hlegible := hl.tidy.legible h (List.mem_append_right _ List.mem_cons_self)
  have hpos : h.part.position = k := by
    rw [part_position hlegible, hfrom]
    omega
  have hlen : (olds h.lines).length = last - k := by rw [holds, length_extract hl.inside]
  have hpre : (oldSide h.part.body).isPrefixOf (L.drop k) = true := by
    rw [List.isPrefixOf_iff_prefix, show oldSide h.part.body = olds h.lines from rfl, holds,
      List.extract_eq_take_drop]
    exact List.take_prefix _ _
  -- The hunk ends where the layout stands.
  have hfinish : h.part.finish = last := by
    rw [Part.finish, hpos, show oldSide h.part.body = olds h.lines from rfl, hlen]
    omega
  have hinside := hl.inside
  rw [List.map_append, List.foldlM_append, hdone]
  show (List.foldlM (Part.step L) (j, o) [h.part]) = some (last, out)
  rw [List.foldlM_cons, Part.step, hpos, if_pos ⟨part_wellFormed hlegible, hjk, by omega, hpre⟩, hfinish, hout]
  rfl

/-- More lines in the open hunk. -/
theorem Laid.extend {ls : List Line} (more : Nat) (hl : Laid L done h last toLine out)
    (hls : ∀ l ∈ ls, IsLine l.text) (hle : last ≤ stop) (hn : stop ≤ L.length)
    (holds : olds ls = L.extract last stop)
    (hspread : more + spread ((h.lines ++ ls).map Line.entry) =
      (news ls).length + spread (h.lines.map Line.entry)) :
    Laid L done { h with lines := h.lines ++ ls } stop (toLine + more) (out ++ news ls) where
  tidy := (hl.tidy.extend hls).mono hle (by omega)
  nonneg := by
    have := hl.nonneg
    omega
  inside := hn
  lags := hl.lags
  level := hl.level
  behind := by
    have hbehind := hl.behind
    have hlen : (olds ls).length = stop - last := by rw [holds, length_extract hn]
    unfold Level at hbehind ⊢
    dsimp only
    rw [olds_append, news_append, List.length_append, List.length_append]
    omega
  applies := by
    obtain ⟨j, o, k, hdone, hjk, hk, hfrom, holds', hout⟩ := hl.applies
    refine ⟨j, o, k, hdone, hjk, Nat.le_trans hk hle, hfrom, ?_, ?_⟩
    · rw [olds_append, holds', holds, extract_append_extract hk hle]
    · rw [news_append, hout, List.append_assoc _ (news h.lines)]

/-- Finished hunks: applied to the lines `L` up to `last`, and some lines further, they give `out` and those
lines.  A hunk that begins behind them is told to stand on the new side where `level` says. -/
structure Settled (L : List Bytes) (hs : List Hunk) (last : Nat) (toLine : Int) (out : List Bytes) : Prop where
  tidy : Tidy hs last toLine
  nonneg : 0 ≤ toLine
  lags : Lags (hs.map Hunk.part)
  level : Level (hs.map Hunk.part) last toLine
  applies : ∃ j, (hs.map Hunk.part).foldlM (Part.step L) (0, []) = some (j, out ++ L.extract last j) ∧
    last ≤ j ∧ j ≤ last + context

theorem settled_nil (L : List Bytes) : Settled L [] 0 0 [] where
  tidy := ⟨by simp, List.Pairwise.nil, by simp⟩
  nonneg := Int.le_refl 0
  lags := lags_nil
  level := rfl
  applies := ⟨0, by rw [extract_self]; rfl, Nat.le_refl 0, Nat.zero_le _⟩

section Lines

variable {ts : List (List Char)}

theorem olds_kept (i j : Nat) : olds (kept ts.toArray i j) = (ts.map Utf8.encodeAll).extract i j := by
  rw [kept_eq, olds_map _ (f := Line.keep) fun _ => rfl, if_neg (by decide), map_extract]

theorem news_kept (i j : Nat) : news (kept ts.toArray i j) = (ts.map Utf8.encodeAll).extract i j := by
  rw [kept_eq, news_map _ (f := Line.keep) fun _ => rfl, if_neg (by decide), map_extract]

theorem isLine_of_mem_kept (hts : ∀ t ∈ ts, IsLine t) {i j : Nat} :
    ∀ l ∈ kept ts.toArray i j, IsLine l.text := by
  intro l hl
  rw [kept_eq] at hl
  obtain ⟨t, ht, rfl⟩ := List.mem_map.mp hl
  exact hts t (mem_of_mem_extract ht)

theorem sign_of_mem_kept {i j : Nat} : ∀ e ∈ (kept ts.toArray i j).map Line.entry, e.sign = .keep := by
  intro e he
  rw [kept_eq, List.map_map] at he
  obtain ⟨t, -, rfl⟩ := List.mem_map.mp he
  rfl

variable (hts : ∀ t ∈ ts, IsLine t)

include hts

/-- Lines kept behind the last edit. -/
theorem Laid.keep (hl : Laid (ts.map Utf8.encodeAll) done h last toLine out) (hend : h.EndsChanged)
    (hle : last ≤ stop) (hn : stop ≤ ts.length) :
    Laid (ts.map Utf8.encodeAll) done { h with lines := h.lines ++ kept ts.toArray last stop } stop toLine
      (out ++ (ts.map Utf8.encodeAll).extract last stop) := by
  -- The hunk has a change in it, so lines that are kept behind it add to its spread.
  have hspread : 0 + spread ((h.lines ++ kept ts.toArray last stop).map Line.entry) =
      (news (kept ts.toArray last stop)).length + spread (h.lines.map Line.entry) := by
    rw [List.map_append, spread_append_kept hend.exists_change sign_of_mem_kept, news_kept, kept_eq,
      ← map_extract, List.length_map, List.length_map, List.length_map]
    omega
  have hmore := hl.extend 0 (isLine_of_mem_kept hts) hle (by rwa [List.length_map]) (olds_kept last stop) hspread
  rwa [news_kept, Int.natCast_zero, Int.add_zero] at hmore

/-- The open hunk is finished with lines behind the last edit. -/
theorem Laid.settled (hl : Laid (ts.map Utf8.encodeAll) done h last toLine out) (hend : h.EndsChanged) :
    Settled (ts.map Utf8.encodeAll)
      (done ++ [{ h with lines := h.lines ++ kept ts.toArray last (last + context) }]) last toLine out where
  tidy := hl.tidy.extend (isLine_of_mem_kept hts)
  nonneg := hl.nonneg
  lags := by
    have hlegible := (hl.tidy.extend (isLine_of_mem_kept hts (i := last) (j := last + context))).legible _
      (List.mem_append_right _ List.mem_cons_self)
    have hlevel := hl.level
    rw [List.map_append]
    refine hl.lags.concat ?_
    rw [part_newPosition hlegible, part_position hlegible]
    have hfrom := hlegible.fromLine
    have hto := hlegible.toLine
    unfold Level at hlevel
    dsimp only at hfrom hto ⊢
    omega
  level := by
    -- The context counts once on each side, and what was spread over the hunk lies between its changes now.
    obtain ⟨e, hlast, hsign⟩ := hend
    have hbehind := hl.behind
    have hinner : inner ((h.lines ++ kept ts.toArray last (last + context)).map Line.entry) =
        spread (h.lines.map Line.entry) := by
      rw [List.map_append, inner_append_kept hlast hsign sign_of_mem_kept]
    rw [List.map_append, List.map_singleton, level_concat]
    dsimp only [Hunk.part]
    rw [hinner, toCount_eq, fromCount_eq]
    show Level _ (last + (news _).length) (toLine + (olds _).length + _)
    rw [olds_append, news_append, olds_kept, news_kept, List.length_append, List.length_append]
    unfold Level at hbehind ⊢
    omega
  applies := by
    have hinside := hl.inside
    rw [List.length_map] at hinside
    -- There may be fewer lines left than the context asks for.
    have hstop : last ≤ min (last + context) ts.length := by omega
    have hkeep := (hl.keep hts hend hstop (Nat.min_le_right _ _)).foldlM
    rw [kept_eq, extract_min, ← kept_eq] at hkeep
    exact ⟨_, hkeep, by omega, by omega⟩

/-- The hunk that begins for an edit at line `start`, with `toLine` lines before the edit on the new side. -/
def opened (ts : List (List Char)) (start : Nat) (toLine : Int) : Hunk where
  fromLine := start + 1 - (kept ts.toArray (start - context) start).length
  toLine := toLine + 1 - (kept ts.toArray (start - context) start).length
  lines := kept ts.toArray (start - context) start

omit hts in
/-- Where the hunk begins on the two sides. -/
theorem opened_numbers (toLine : Int) (hn : start ≤ ts.length) :
    (opened ts start toLine).fromLine = (start - context : Nat) + 1 ∧
      (opened ts start toLine).toLine = toLine + 1 - (start - (start - context) : Nat) := by
  have hlen : (kept ts.toArray (start - context) start).length = start - (start - context) := by
    rw [kept_eq, List.length_map, length_extract hn]
  unfold opened
  rw [hlen]
  exact ⟨by dsimp only; omega, rfl⟩

theorem opened_legible (hn : start ≤ ts.length) (hto : (start - (start - context) : Nat) ≤ toLine)
    (htop : start = 0 → toLine = 0) : Legible (opened ts start toLine) := by
  obtain ⟨hfrom, hto'⟩ := opened_numbers toLine hn
  refine ⟨isLine_of_mem_kept hts, by omega, by omega, ?_⟩
  rcases Nat.eq_zero_or_pos start with rfl | hpos
  · have := htop rfl
    exact Or.inr ⟨by omega, by omega⟩
  · -- There is a line before the edit, and it is kept.
    have hlen : 0 < (ts.extract (start - context) start).length := by
      rw [length_extract hn]
      have : context = 3 := rfl
      omega
    obtain ⟨t, ht⟩ := List.exists_mem_of_length_pos hlen
    refine Or.inl ⟨.keep t, ?_, rfl⟩
    rw [opened, kept_eq]
    exact List.mem_map_of_mem ht

/-- A hunk begins at the top or well behind the last edit. -/
theorem Settled.fresh (hl : Settled (ts.map Utf8.encodeAll) hs last toLine out) (hle : last ≤ start)
    (hn : start ≤ ts.length) (hgap : last + 2 * context < start ∨ hs = [] ∧ last = 0 ∧ toLine = 0) :
    Laid (ts.map Utf8.encodeAll) hs (opened ts start (toLine + (start - last))) start (toLine + (start - last))
      (out ++ (ts.map Utf8.encodeAll).extract last start) := by
  have hthree : context = 3 := rfl
  have hnonneg := hl.nonneg
  obtain ⟨hfrom, hto⟩ := opened_numbers (toLine + (start - last)) hn
  obtain ⟨j, hfold, hlast, hj⟩ := hl.applies
  -- The context of the hunk begins behind the context of the one before.
  have hjk : j ≤ start - context := by
    rcases hgap with hgap | ⟨rfl, rfl, -⟩
    · omega
    · have hstart : 0 = j := (Prod.mk.inj (Option.some.inj hfold)).1
      omega
  have hlegible : Legible (opened ts start (toLine + (start - last))) :=
    opened_legible hts hn (by omega) (by omega)
  have habove : ∀ g ∈ hs, g.Above (opened ts start (toLine + (start - last))) := by
    intro g hg
    have hbelow := hl.tidy.below g hg
    rcases hgap with hgap | ⟨rfl, -⟩
    · exact ⟨by omega, by omega⟩
    · cases hg
  have hbefore : Tidy hs start (toLine + (start - last)) := hl.tidy.mono hle (by omega)
  have hlevel := hl.level
  refine ⟨⟨?_, ?_, ?_⟩, by omega, by rwa [List.length_map], hl.lags, ?_, ?_, ?_⟩
  · exact List.forall_mem_append.mpr ⟨hbefore.legible, List.forall_mem_singleton.mpr hlegible⟩
  · exact List.pairwise_append.mpr ⟨hbefore.ordered, List.pairwise_singleton _ _,
      fun g hg => List.forall_mem_singleton.mpr (habove g hg)⟩
  · exact List.forall_mem_append.mpr ⟨hbefore.below, List.forall_mem_singleton.mpr (by omega)⟩
  · unfold Level at hlevel ⊢
    omega
  · -- So far the hunk has nothing but context, which counts once on each side.
    have hlines : (opened ts start (toLine + (start - last))).lines = kept ts.toArray (start - context) start := rfl
    rw [hlines, olds_kept, news_kept, spread_of_kept sign_of_mem_kept]
    unfold Level at hlevel ⊢
    omega
  · refine ⟨j, _, start - context, hfold, hjk, Nat.sub_le _ _, hfrom, olds_kept _ _, ?_⟩
    have hnews : news (opened ts start (toLine + (start - last))).lines =
        (ts.map Utf8.encodeAll).extract (start - context) start := news_kept _ _
    rw [hnews, List.append_assoc out, extract_append_extract hlast hjk, List.append_assoc,
      extract_append_extract (Nat.le_trans hlast hjk) (Nat.sub_le _ _)]

/-- What a layout has come to: at the start, or with an open hunk. -/
inductive Stands (L : List Bytes) (s : Layout) (out : List Bytes) : Prop
  | start : s = {} → out = [] → Stands L s out
  | inside {h : Hunk} : s.current = some h → h.EndsChanged → Laid L s.done h s.last s.toLine out → Stands L s out

variable {s : Layout}

/-- Closing the open hunk, if there is one. -/
theorem close_settled (hs : Stands (ts.map Utf8.encodeAll) s out) :
    Settled (ts.map Utf8.encodeAll) (s.close ts.toArray) s.last s.toLine out := by
  cases hs with
  | start hs hout =>
    rw [hs, hout]
    exact settled_nil _
  | inside hcurrent hend hlaid =>
    rw [Layout.close, hcurrent]
    exact hlaid.settled hts hend

/-- An edit finds its hunk open up to its first line. -/
theorem openAt_laid (hs : Stands (ts.map Utf8.encodeAll) s out) (hle : s.last ≤ start)
    (hn : start ≤ ts.length) :
    Laid (ts.map Utf8.encodeAll) (s.openAt ts.toArray start).2.done (s.openAt ts.toArray start).1 start
      (s.openAt ts.toArray start).2.toLine (out ++ (ts.map Utf8.encodeAll).extract s.last start) := by
  have hclose := close_settled hts hs
  unfold Layout.openAt
  cases hs with
  | start hs hout =>
    subst hs
    exact hclose.fresh hts hle hn (Or.inr ⟨rfl, rfl, rfl⟩)
  | inside hcurrent hend hlaid =>
    rw [hcurrent]
    dsimp only
    split
    · -- The edit follows the one before without a line between them.
      rename_i heq
      rw [heq, extract_self, List.append_nil]
      exact hlaid
    · split
      · -- There are few lines between them, and they become part of the hunk.
        exact hlaid.keep hts hend hle hn
      · -- There are many, and a new hunk begins.
        rename_i hfar
        exact hclose.fresh hts hle hn (Or.inl (Nat.lt_of_not_le hfar))

end Lines

/-! ### A step and a run

A step is one edit (`add_stands`), and a run is all of them (`foldl_add_stands`). -/

variable {s : Layout}

/-- The lines of an edit: first those it removes, then those it adds. -/
def swapped (removed added : List (List Char)) : List Line := removed.map Line.remove ++ added.map Line.add

section Swapped

variable {removed added : List (List Char)}

/-- What an edit removes is on the old side. -/
theorem olds_swapped : olds (swapped removed added) = removed.map Utf8.encodeAll := by
  rw [swapped, olds_append, olds_map _ (f := Line.remove) fun _ => rfl, olds_map _ (f := Line.add) fun _ => rfl,
    if_neg (by decide), if_pos rfl, List.append_nil]

theorem news_swapped : news (swapped removed added) = added.map Utf8.encodeAll := by
  rw [swapped, news_append, news_map _ (f := Line.remove) fun _ => rfl, news_map _ (f := Line.add) fun _ => rfl,
    if_pos rfl, if_neg (by decide), List.nil_append]

theorem isLine_of_mem_swapped (hremoved : ∀ t ∈ removed, IsLine t) (hadded : ∀ t ∈ added, IsLine t) :
    ∀ l ∈ swapped removed added, IsLine l.text := by
  refine List.forall_mem_append.mpr ⟨fun l hl => ?_, fun l hl => ?_⟩
  · obtain ⟨t, ht, rfl⟩ := List.mem_map.mp hl
    exact hremoved t ht
  · obtain ⟨t, ht, rfl⟩ := List.mem_map.mp hl
    exact hadded t ht

theorem sign_of_mem_swapped : ∀ e ∈ (swapped removed added).map Line.entry, e.sign ≠ .keep := by
  intro e he
  obtain ⟨l, hl, rfl⟩ := List.mem_map.mp he
  rcases List.mem_append.mp hl with hl | hl
  · obtain ⟨t, -, rfl⟩ := List.mem_map.mp hl
    exact Sign.noConfusion
  · obtain ⟨t, -, rfl⟩ := List.mem_map.mp hl
    exact Sign.noConfusion

/-- A hunk that an edit is put into ends with a line of the edit, which is not kept. -/
theorem endsChanged_swapped (hne : removed ≠ [] ∨ added ≠ []) :
    Hunk.EndsChanged { h with lines := h.lines ++ swapped removed added } := by
  have hlast : (swapped removed added).map Line.entry ≠ [] := by
    rcases hne with hne | hne <;> simp [swapped, hne]
  refine ⟨((swapped removed added).map Line.entry).getLast hlast, ?_,
    sign_of_mem_swapped _ (List.getLast_mem hlast)⟩
  rw [List.map_append, List.getLast?_append_of_ne_nil _ hlast, List.getLast?_eq_some_getLast hlast]

end Swapped

/-- The layout behind an edit. -/
theorem add_eq (old : List Char) (s : Layout) (e : Edit) : s.add old (splitLines old).toArray e =
    { (s.openAt (splitLines old).toArray (lineNumber old e.start)).2 with
      current := some { (s.openAt (splitLines old).toArray (lineNumber old e.start)).1 with
        lines := (s.openAt (splitLines old).toArray (lineNumber old e.start)).1.lines ++
          swapped ((splitLines old).extract (lineNumber old e.start) (lineNumberBehind old e.stop))
            (splitLines e.text) }
      last := lineNumber old e.start +
        ((splitLines old).extract (lineNumber old e.start) (lineNumberBehind old e.stop)).length
      toLine := (s.openAt (splitLines old).toArray (lineNumber old e.start)).2.toLine +
        (splitLines e.text).length } := by
  simp [Layout.add, swapped]

/-- **One edit**: its lines are removed, and others added. -/
theorem add_stands (hs : Stands ((splitLines old).map Utf8.encodeAll) s out)
    (hle : s.last ≤ lineNumber old e.start) (hle' : lineNumber old e.start ≤ lineNumberBehind old e.stop)
    (hn : lineNumberBehind old e.stop ≤ (splitLines old).length)
    (hchange : lineNumber old e.start < lineNumberBehind old e.stop ∨ splitLines e.text ≠ []) :
    (s.add old (splitLines old).toArray e).last = lineNumberBehind old e.stop ∧
      Stands ((splitLines old).map Utf8.encodeAll) (s.add old (splitLines old).toArray e)
        (out ++ ((splitLines old).map Utf8.encodeAll).extract s.last (lineNumber old e.start) ++
          (splitLines e.text).map Utf8.encodeAll) := by
  have hlen : ((splitLines old).extract (lineNumber old e.start) (lineNumberBehind old e.stop)).length =
      lineNumberBehind old e.stop - lineNumber old e.start := length_extract hn
  have hlast : (s.add old (splitLines old).toArray e).last = lineNumberBehind old e.stop := by
    rw [add_eq]
    dsimp only
    omega
  have hends : (splitLines old).extract (lineNumber old e.start) (lineNumberBehind old e.stop) ≠ [] ∨
      splitLines e.text ≠ [] := hchange.imp_left fun hlt => List.ne_nil_of_length_pos (by omega)
  have hlines : ∀ l ∈ swapped ((splitLines old).extract (lineNumber old e.start) (lineNumberBehind old e.stop))
      (splitLines e.text), IsLine l.text :=
    isLine_of_mem_swapped (fun _ ht => isLine_of_mem_splitLines (mem_of_mem_extract ht))
      fun _ => isLine_of_mem_splitLines
  -- The writer counts just the lines that are added, and an edit keeps none.
  have hmore := (openAt_laid (fun _ => isLine_of_mem_splitLines) hs hle (Nat.le_trans hle' hn)).extend
    (splitLines e.text).length hlines hle' (by rwa [List.length_map]) (by rw [olds_swapped, map_extract])
    (by rw [List.map_append, spread_append_changed sign_of_mem_swapped, news_swapped, List.length_map])
  rw [news_swapped] at hmore
  refine ⟨hlast, .inside (by rw [add_eq]) (endsChanged_swapped hends) ?_⟩
  rw [hlast, add_eq]
  exact hmore

/-- **All edits**: from where the layout stands, they lead to the new lines. -/
theorem foldl_add_stands : ∀ (es : List Edit) (s : Layout) (out : List Bytes),
    Stands ((splitLines old).map Utf8.encodeAll) s out → LinesInOrder old s.last es →
    ∃ out', Stands ((splitLines old).map Utf8.encodeAll)
        (es.foldl (Layout.add old (splitLines old).toArray) s) out' ∧
      out' ++ ((splitLines old).map Utf8.encodeAll).drop
        (es.foldl (Layout.add old (splitLines old).toArray) s).last =
      out ++ (linesApplied old s.last es).map Utf8.encodeAll
  | [], s, out, hs, _ => ⟨out, hs, by rw [List.foldl_nil, linesApplied, List.map_drop]⟩
  | e :: es, s, out, hs, ⟨hle, hle', hn, hchange, horder⟩ => by
    obtain ⟨hlast, hstands⟩ := add_stands hs hle hle' hn hchange
    rw [← hlast] at horder
    obtain ⟨out', hstands', hout'⟩ := foldl_add_stands es _ _ hstands horder
    refine ⟨out', hstands', hout'.trans ?_⟩
    rw [linesApplied, hlast, List.map_append, List.map_append, map_extract, List.append_assoc,
      List.append_assoc, List.append_assoc]

/-- **The hunks between two texts turn the lines of the first into those of the second.** -/
theorem hunks_applied (old new : List Char) :
    Tidy (hunks old (lineEdits old (edits old new)))
        ((lineEdits old (edits old new)).foldl (Layout.add old (splitLines old).toArray) {}).last
        ((lineEdits old (edits old new)).foldl (Layout.add old (splitLines old).toArray) {}).toLine ∧
      Lags ((hunks old (lineEdits old (edits old new))).map Hunk.part) ∧
      ∃ j out, ((hunks old (lineEdits old (edits old new))).map Hunk.part).foldlM
          (Part.step ((splitLines old).map Utf8.encodeAll)) (0, []) = some (j, out) ∧
        out ++ ((splitLines old).map Utf8.encodeAll).drop j = (splitLines new).map Utf8.encodeAll := by
  obtain ⟨horder, hlines⟩ := lineEdits_lines old new
  obtain ⟨out, hstands, hout⟩ := foldl_add_stands (lineEdits old (edits old new)) {} [] (.start rfl rfl) horder
  have hsettled := close_settled (fun _ => isLine_of_mem_splitLines) hstands
  obtain ⟨j, hfold, hlast, -⟩ := hsettled.applies
  refine ⟨hsettled.tidy, hsettled.lags, j, _, hfold, ?_⟩
  rw [List.append_assoc, extract_append_drop hlast, hout, List.nil_append]
  exact congrArg (List.map Utf8.encodeAll) hlines

/-! ## 3. The patch

The hunks are written and read again, and then applied to the bytes of the old text. -/

/-- Hunks that can be applied in turn lie one behind the other. -/
theorem foldlM_ordered {L : List Bytes} : ∀ {ps : List Part} {s s' : Nat × List Bytes},
    ps.foldlM (Part.step L) s = some s' →
    (∀ p ∈ ps, s.1 ≤ p.position) ∧ ps.Pairwise fun p q => p.finish ≤ q.position
  | [], _, _, _ => ⟨by simp, List.Pairwise.nil⟩
  | p :: ps, s, s', h => by
    rw [List.foldlM_cons, Part.step] at h
    split at h
    · rename_i hp
      obtain ⟨hbehind, hordered⟩ := foldlM_ordered h
      refine ⟨List.forall_mem_cons.mpr ⟨hp.2.1, fun q hq => ?_⟩, List.pairwise_cons.mpr ⟨hbehind, hordered⟩⟩
      have hfinish : p.position ≤ p.finish := Nat.le_add_right _ _
      exact Nat.le_trans hp.2.1 (Nat.le_trans hfinish (hbehind q hq))
    · cases h

/-- Hunks that can be written are read in their order. -/
theorem part_above {g : Hunk} (hg : Legible g) (hh : Legible h) (habove : g.Above h) :
    g.part.head.fromLine < h.part.head.fromLine ∧ g.part.head.toLine < h.part.head.toLine := by
  have hfirst : ∀ (line : Int) (count : Nat), firstLine line count ≤ line.toNat := fun line count => by
    unfold firstLine
    split <;> omega
  obtain ⟨hfrom, hto⟩ := habove
  have hg1 := hg.fromLine
  have hg2 := hg.toLine
  -- The second hunk does not begin at the top, so it has lines on both sides.
  have hfrom' : firstLine h.fromLine h.fromCount = h.fromLine.toNat :=
    if_neg fun h0 => by
      have := hh.fromLine_eq h0
      omega
  have hto' : firstLine h.toLine h.toCount = h.toLine.toNat :=
    if_neg fun h0 => by
      have := hh.toLine_eq h0
      omega
  have h1 := hfirst g.fromLine g.fromCount
  have h2 := hfirst g.toLine g.toCount
  unfold Hunk.part
  dsimp only
  rw [hfrom', hto']
  omega

/-- **A patch is a diff that can be read and applied**, and it leads from the old content to the new one.  Its new
side lags, so it is well formed just if no hunk but the last keeps a line between two changes. -/
theorem unified_applies {oldName newName old new : Bytes} (hold : Utf8.isValid old = true)
    (hnew : Utf8.isValid new = true) (hne : old ≠ new) (hoName : oldName.Flat) (hnName : newName.Flat) :
    ∃ diff, Diff.read (unified oldName newName old new) = some diff ∧ diff.oldName = oldName ∧
      diff.newName = newName ∧ diff.Sequential ∧ diff.apply old = some new ∧ Lags diff.parts ∧
      (diff.WellFormed ↔ ∀ p ∈ diff.parts.dropLast, inner p.body = 0) := by
  obtain ⟨htidy, hlags, j, out, hfold, hout⟩ := hunks_applied (Utf8.chars old) (Utf8.chars new)
  rw [← lines_encodeAll, Utf8.encodeAll_chars old hold] at hfold hout
  rw [← lines_encodeAll, Utf8.encodeAll_chars new hnew] at hout
  -- Without hunks nothing would be changed, but the texts differ.
  have hhunks : hunks (Utf8.chars old)
      (lineEdits (Utf8.chars old) (edits (Utf8.chars old) (Utf8.chars new))) ≠ [] := by
    intro hnil
    rw [hnil] at hfold
    cases hfold
    rw [List.nil_append, List.drop_zero] at hout
    exact hne (by rw [← flatten_lines old, hout, flatten_lines])
  have hseq : Diff.Sequential ⟨oldName, newName, (hunks (Utf8.chars old)
      (lineEdits (Utf8.chars old) (edits (Utf8.chars old) (Utf8.chars new)))).map Hunk.part⟩ := by
    refine ⟨by simpa using hhunks, fun p hp => ?_, ?_⟩
    · obtain ⟨h, hh, rfl⟩ := List.mem_map.mp hp
      exact part_wellFormed (htidy.legible h hh)
    · have habove := htidy.ordered.imp_of_mem fun {g h} hg hh habove =>
        part_above (htidy.legible g hg) (htidy.legible h hh) habove
      exact (foldlM_ordered hfold).2.and (List.pairwise_map.mpr habove)
  refine ⟨_, read_render hoName hnName hhunks htidy.legible, rfl, rfl, hseq, ?_, hlags, hseq.wellFormed_iff hlags⟩
  rw [Diff.apply, hfold]
  dsimp only
  rw [hout, flatten_lines, if_pos rfl]

end AgentKit.Patch

namespace AgentKit.Compare

variable {w : Walk.Scope} {dest : Bytes} {d : Disk} {drift : Drift} {m : Modified}

/-- Every modified file was read on both sides, and its patch was made of what was read. -/
theorem exists_of_mem_modified {patch : Bool} (hrun : (run w dest patch d).drift = some drift)
    (hm : m ∈ drift.modified) : ∃ x ∈ files w d, ∃ installed kit, Found w dest d x (.modified installed kit) ∧
      m = ⟨x.rel, if patch then patchOf x.rel installed kit else []⟩ := by
  obtain ⟨-, -, rfl⟩ := run_drift.mp hrun
  rw [inOrder, mem_sortBy, gathered, lookForExtra_eq] at hm
  simp only [after, List.nil_append, List.mem_filterMap] at hm
  obtain ⟨x, hx, hchange⟩ := hm
  obtain ⟨installed, kit, hf⟩ := Finding.change?_isSome.mp (Option.isSome_of_eq_some hchange)
  rw [hf] at hchange
  exact ⟨x, hx, installed, kit, finding_eq_iff.mp hf, (Option.some.inj hchange).symm⟩

/-- **A patch leads from the installed to the kit content.**  For every modified file of a report with patches,
whose path stays within a line, the two contents were read and differ; and if both are UTF-8, the patch can be
read as a diff from `installed/` to `kit/` whose hunks have the counts of their lines and lie one behind the
other, and that, applied to the installed content, gives that of the kit.  On the new side its hunks lag, and it
is well formed just if no hunk but the last keeps a line between two changes. -/
theorem patch_applies (hrun : (run w dest true d).drift = some drift) (hm : m ∈ drift.modified)
    (hpath : byte '\n' ∉ m.path) :
    ∃ x ∈ files w d, ∃ installed kit, x.rel = m.path ∧ w.tree.read d x.name = .ok kit ∧
      d.read (Path.below dest x.rel) = .ok installed ∧ installed ≠ kit ∧
      (Utf8.isValid installed = true → Utf8.isValid kit = true →
        ∃ diff, Patch.Diff.read m.patch = some diff ∧ diff.oldName = "installed/" ++ m.path ∧
          diff.newName = "kit/" ++ m.path ∧ diff.Sequential ∧ diff.apply installed = some kit ∧
          Patch.Lags diff.parts ∧ (diff.WellFormed ↔ ∀ p ∈ diff.parts.dropLast, Patch.inner p.body = 0)) := by
  obtain ⟨x, hx, installed, kit, hfound, rfl⟩ := exists_of_mem_modified hrun hm
  cases hfound with
  | modified hkit hinst hne =>
    refine ⟨x, hx, installed, kit, rfl, hkit, hinst, hne.symm, fun hvalid hvalid' => ?_⟩
    have hflat : ∀ start : Bytes, start.Flat → (start ++ x.rel).Flat := fun start hs =>
      Bytes.flat_append.mpr ⟨hs, hpath⟩
    exact Patch.unified_applies hvalid hvalid' hne.symm (hflat _ (by decide)) (hflat _ (by decide))

/-- A file that differs from the one of the kit at both ends, and whose last line has no newline. -/
def changedAtBothEnds : Disk :=
  { entries :=
      [([("kit" : Bytes)], .dir 0o755),
        ([("kit" : Bytes), ("a" : Bytes)], .file 0o644 "b\n1\n2\n3\n4\n5\n6\n7\nz\n"),
        ([("here" : Bytes)], .dir 0o755),
        ([("here" : Bytes), ("a" : Bytes)], .file 0o644 "a\n1\n2\n3\n4\n5\n6\n7\nz")] }

/-- Its patch, in two hunks. -/
def patchAtBothEnds : Bytes :=
  "--- installed/a\n+++ kit/a\n" ++ "@@ -1,4 +1,4 @@\n-a\n+b\n 1\n 2\n 3\n" ++
    "@@ -6,4 +6,4 @@\n 5\n 6\n 7\n-z\n\\ No newline at end of file\n+z\n"

/-- The patch of the report is read and applied.  Each of its hunks has its changes in one place, so here the new
side is right as well. -/
theorem patch_applies_changedAtBothEnds :
    (run ⟨.onDisk "/kit", ".", []⟩ "/here" true changedAtBothEnds).drift =
        some ⟨[], [⟨"a", patchAtBothEnds⟩], [], 0⟩ ∧
      ∃ diff, Patch.Diff.read patchAtBothEnds = some diff ∧ diff.oldName = "installed/a" ∧
        diff.newName = "kit/a" ∧ diff.WellFormed ∧
        diff.apply "a\n1\n2\n3\n4\n5\n6\n7\nz" = some (Bytes.ofString "b\n1\n2\n3\n4\n5\n6\n7\nz\n") := by
  have hdrift : (run ⟨.onDisk "/kit", ".", []⟩ "/here" true changedAtBothEnds).drift =
      some ⟨[], [⟨"a", patchAtBothEnds⟩], [], 0⟩ := by decide +kernel
  have hfiles : files ⟨.onDisk "/kit", ".", []⟩ changedAtBothEnds = [⟨"a", "a", false⟩] := by decide +kernel
  obtain ⟨x, hx, installed, kit, -, hkit, hinst, -, hdiff⟩ :=
    patch_applies hdrift (List.mem_singleton.mpr rfl) (by decide)
  rw [hfiles, List.mem_singleton] at hx
  subst hx
  have hkit' := congrArg Except.toOption hkit
  have hinst' := congrArg Except.toOption hinst
  cases hkit'.symm.trans (show _ = some (Bytes.ofString "b\n1\n2\n3\n4\n5\n6\n7\nz\n") by decide +kernel)
  cases hinst'.symm.trans (show _ = some (Bytes.ofString "a\n1\n2\n3\n4\n5\n6\n7\nz") by decide +kernel)
  obtain ⟨diff, hread, hold, hnew, -, happly, -, hform⟩ := hdiff (by decide +kernel) (by decide +kernel)
  refine ⟨hdrift, diff, hread, hold, hnew, hform.mpr ?_, happly⟩
  have hinner : (Patch.Diff.read patchAtBothEnds).all fun diff =>
      diff.parts.dropLast.all fun p => Patch.inner p.body = 0 := by decide +kernel
  rw [show Patch.Diff.read patchAtBothEnds = some diff from hread] at hinner
  simpa using hinner

/-- Fourteen lines, of which the kit has the first, the fifth and the thirteenth in capitals. -/
def changedInThreePlaces : Disk :=
  { entries :=
      [([("kit" : Bytes)], .dir 0o755),
        ([("kit" : Bytes), ("a" : Bytes)], .file 0o644 "A\nb\nc\nd\nE\nf\ng\nh\ni\nj\nk\nl\nM\nn\n"),
        ([("here" : Bytes)], .dir 0o755),
        ([("here" : Bytes), ("a" : Bytes)], .file 0o644 "a\nb\nc\nd\ne\nf\ng\nh\ni\nj\nk\nl\nm\nn\n")] }

/-- Its patch.  No line is added or taken away, so the second hunk is at line 10 on both sides; but the three lines
that the first hunk keeps between its two changes are missing in `+7,5`. -/
def patchInThreePlaces : Bytes :=
  "--- installed/a\n+++ kit/a\n" ++
    "@@ -1,8 +1,8 @@\n-a\n+A\n b\n c\n d\n-e\n+E\n f\n g\n h\n" ++
    "@@ -10,5 +7,5 @@\n j\n k\n l\n-m\n+M\n n\n"

/-- **Not every patch is a well-formed diff.**  Both contents are UTF-8 and the path stays within a line, and still
the hunks of the patch overlap on the new side, where lines 7 and 8 belong to both. -/
theorem patch_not_wellFormed :
    (run ⟨.onDisk "/kit", ".", []⟩ "/here" true changedInThreePlaces).drift =
        some ⟨[], [⟨"a", patchInThreePlaces⟩], [], 0⟩ ∧
      ∃ diff, Patch.Diff.read patchInThreePlaces = some diff ∧ ¬ diff.WellFormed := by
  have hform : (Patch.Diff.read patchInThreePlaces).any fun diff => ¬ diff.WellFormed := by decide +kernel
  obtain ⟨diff, hread, hdiff⟩ := (Option.any_eq_true _ _).mp hform
  exact ⟨by decide +kernel, diff, hread, by simpa using hdiff⟩

end AgentKit.Compare
