import AgentKit.Proofs.Counting
/-!
# Files by top-level directory

While a walk goes on, one list of counts is kept.  A top-level directory enters it when it is visited, each file
adds to the count of the first name on its path, and the files beside the directories add to a count of their
own.  So the list grows in the order of the visits and is sorted in the end.

1. `bucket?`: the count that a visit goes to.  What one visit does to the names in the list and to the sum under
   a name (`mem_names_add`, `tally_add`), and **what a list of visits leaves** (`foldl_tallies`).
2. The count that a visit goes to, read off its path.  A file counts for a directory that the walk visits,
   because the walk comes to the file through it (`exists_directory`).
3. **The counts are what the visits say** (`bySubdir_buckets`), and there is no other list that is so.

The count of the files beside the directories goes by the name of a dot.  No directory can have this name, so the two kinds
of counts do not get mixed up.

Counts are machine integers.  All that is used of them here is that addition is associative and commutative, and for
small numbers that they are what they should be.
-/

namespace AgentKit.Count

variable {w : Walk.Scope} {d : Disk} {xs : List Visit} {x : Visit} {counts : List SubdirCount} {name m : Bytes}
  {c : SubdirCount}

/-! ## 1. Keeping counts

The list has no name twice.  So what it says is a function from names to numbers, and it is enough to follow this
function while visits are added. -/

/-- The count that a visit goes to, if it goes to one. -/
def bucket? (x : Visit) : Option Bytes :=
  match Bytes.cut (byte '/') x.rel, x.isDir with
  | some _, true => none
  | none, true => some x.rel
  | some (top, _), false => some top
  | none, false => some besides

/-- The sum of the counts under a name. -/
def tally (name : Bytes) (counts : List SubdirCount) : Int64 :=
  total (counts.filter (·.name = name))

theorem tally_cons : tally m (c :: counts) = (if c.name = m then c.files else 0) + tally m counts := by
  unfold tally
  by_cases h : c.name = m
  · rw [List.filter_cons_of_pos (by simpa using h), total_cons, if_pos h]
  · rw [List.filter_cons_of_neg (by simpa using h), if_neg h, Int64.zero_add]

theorem tally_add (n : Int64) : ∀ counts : List SubdirCount,
    tally m (add name n counts) = tally m counts + if name = m then n else 0
  | [] => by
    rw [add, tally_cons]
    exact Int64.add_comm _ _
  | c :: counts => by
    rw [add]
    split
    · rename_i h
      rw [tally_cons, tally_cons, ← h]
      by_cases hm : c.name = m
      · simp only [if_pos hm]
        rw [Int64.add_assoc, Int64.add_assoc, Int64.add_comm n]
      · simp only [if_neg hm, Int64.add_zero]
    · rw [tally_cons, tally_cons, tally_add n counts, Int64.add_assoc]

theorem mem_names_add (n : Int64) : ∀ counts : List SubdirCount,
    m ∈ (add name n counts).map (·.name) ↔ m = name ∨ m ∈ counts.map (·.name)
  | [] => by simp [add]
  | c :: counts => by
    rw [add]
    split
    · rename_i h
      simp only [List.map_cons, List.mem_cons, h]
      exact or_self_left.symm
    · rw [List.map_cons, List.mem_cons, mem_names_add n counts, List.map_cons, List.mem_cons]
      exact or_left_comm

theorem nodup_names_add (n : Int64) : ∀ {counts : List SubdirCount}, (counts.map (·.name)).Nodup →
    ((add name n counts).map (·.name)).Nodup
  | [], _ => by simp [add]
  | c :: counts, h => by
    obtain ⟨hnot, hnodup⟩ := List.nodup_cons.mp h
    rw [add]
    split
    · exact h
    · rename_i hne
      refine List.nodup_cons.mpr ⟨fun hmem => ?_, nodup_names_add n hnodup⟩
      rcases (mem_names_add n counts).mp hmem with heq | hmem
      · exact hne heq
      · exact hnot hmem

/-- With one count for each name, a count is the sum under its name. -/
theorem mem_iff_tally : ∀ {counts : List SubdirCount}, (counts.map (·.name)).Nodup →
    (c ∈ counts ↔ c.name ∈ counts.map (·.name) ∧ c.files = tally c.name counts)
  | [], _ => by simp
  | b :: counts, h => by
    simp only [List.map_cons, List.nodup_cons] at h
    obtain ⟨hnot, hnodup⟩ := h
    rw [tally_cons, List.mem_cons, List.map_cons, List.mem_cons, mem_iff_tally hnodup]
    by_cases hb : b.name = c.name
    · -- No other count has this name, so the sum under it is this count.
      have hnone : tally c.name counts = 0 := by
        rw [tally, List.filter_eq_nil_iff.mpr]
        · rfl
        · intro a ha hname
          refine hnot (List.mem_map.mpr ⟨a, ha, ?_⟩)
          rw [hb]
          exact of_decide_eq_true hname
      rw [if_pos hb, hnone, Int64.add_zero]
      constructor
      · rintro (rfl | ⟨hmem, -⟩)
        · exact ⟨Or.inl rfl, rfl⟩
        · exact absurd (hb ▸ hmem) hnot
      · rintro ⟨-, hfiles⟩
        left
        obtain ⟨n, f⟩ := b
        obtain ⟨n', f'⟩ := c
        cases hb
        cases hfiles
        rfl
    · rw [if_neg hb, Int64.zero_add]
      have hne : c ≠ b := fun heq => hb (heq ▸ rfl)
      simp [hne, Ne.symm hb]

/-- The counts have what the visits brought: one count for each name that a visit went to, with the number of
the files among these visits. -/
structure Tallies (xs : List Visit) (counts : List SubdirCount) : Prop where
  nodup : (counts.map (·.name)).Nodup
  names : ∀ m, m ∈ counts.map (·.name) ↔ ∃ x ∈ xs, bucket? x = some m
  files : ∀ m, tally m counts = Int64.ofNat (xs.countP fun x => !x.isDir && bucket? x = some m)

/-- What a visit does to the counts. -/
theorem seeBySubdir_eq (x : Visit) (counts : List SubdirCount) : seeBySubdir x counts =
    (bucket? x).elim counts fun name => add name (if x.isDir then 0 else 1) counts := by
  unfold seeBySubdir bucket?
  cases Bytes.cut (byte '/') x.rel <;> cases x.isDir <;> rfl

theorem Tallies.see (h : Tallies xs counts) (x : Visit) : Tallies (xs ++ [x]) (seeBySubdir x counts) := by
  rw [seeBySubdir_eq]
  cases hx : bucket? x with
  | none =>
    refine ⟨h.nodup, fun m => ?_, fun m => ?_⟩
    · rw [Option.elim_none, h.names]
      simp [hx]
    · rw [Option.elim_none, h.files, List.countP_append]
      simp [hx]
  | some name =>
    refine ⟨nodup_names_add _ h.nodup, fun m => ?_, fun m => ?_⟩
    · rw [Option.elim_some, mem_names_add, h.names]
      simp only [List.mem_append, List.mem_singleton, or_and_right, exists_or, exists_eq_left, hx,
        Option.some.injEq]
      rw [or_comm, eq_comm]
    · rw [Option.elim_some, tally_add, h.files, List.countP_append, Int64.ofNat_add]
      refine congrArg _ ?_
      cases hdir : x.isDir <;> by_cases hm : name = m <;> simp [hx, hm, hdir]

/-- **What a list of visits leaves.** -/
theorem foldl_tallies (xs : List Visit) :
    Tallies xs (xs.foldl (fun counts x => seeBySubdir x counts) []) := by
  induction xs using List.reverseRecOn with
  | nil => exact ⟨List.nodup_nil, by simp, fun _ => rfl⟩
  | append_singleton xs x ih =>
    rw [List.foldl_append]
    exact ih.see x

/-! ## 2. Counts and paths

The program looks for the first slash in a path.  What stands before it is the first name, because names have no
slashes. -/

/-- The files among the visits that are to count for a name: those in the top-level directory of that name, at
any depth, and for the dot those in no directory. -/
def filesIn (name : Bytes) (xs : List Visit) : Nat :=
  xs.countP fun x => !x.isDir &&
    if name = besides then !x.rel.contains (byte '/') else (name ++ "/").isPrefixOf x.rel

/-- A visit is made to something at the top, or to something in a directory. -/
theorem proper_cases (hx : x.Proper) :
    (Path.IsName x.rel ∧ bucket? x = some (if x.isDir then x.rel else besides)) ∨
      ∃ n rest, Path.IsName n ∧ x.path.head? = some n ∧ x.path ≠ [n] ∧ x.rel = n ++ byte '/' :: rest ∧
        bucket? x = if x.isDir then none else some n := by
  obtain ⟨hne, hnames, hrel⟩ := hx
  cases hpath : x.path with
  | nil => exact absurd hpath hne
  | cons n r =>
    rw [hpath] at hrel hnames
    have hn : Path.IsName n := hnames n (by simp)
    by_cases hr : r = []
    · subst hr
      rw [Path.join_singleton] at hrel
      rw [← hrel] at hn
      refine Or.inl ⟨hn, ?_⟩
      unfold bucket?
      rw [Bytes.cut_of_notMem hn.no_slash]
      cases x.isDir <;> rfl
    · rw [Path.join_cons n hr] at hrel
      refine Or.inr ⟨n, Path.join r, hn, rfl, by simpa using hr, hrel, ?_⟩
      unfold bucket?
      rw [hrel, Bytes.cut_append n _ hn.no_slash]
      cases x.isDir <;> rfl

/-- What begins with a name and a slash has that name first. -/
theorem isPrefixOf_slash {n : Bytes} (hname : byte '/' ∉ name) (hn : byte '/' ∉ n) (rest : Bytes) :
    (name ++ "/").isPrefixOf (n ++ byte '/' :: rest) = true ↔ n = name := by
  rw [List.isPrefixOf_iff_prefix, slash_eq]
  constructor
  · rintro ⟨t, heq⟩
    rw [List.append_assoc, List.singleton_append] at heq
    have hcut := congrArg (Bytes.cut (byte '/')) heq
    rw [Bytes.cut_append name t hname, Bytes.cut_append n rest hn, Option.some.injEq, Prod.mk.injEq] at hcut
    exact hcut.1.symm
  · rintro rfl
    exact ⟨rest, by simp⟩

/-- The files that go to a count are those that are to count for its name. -/
theorem countP_bucket? (hxs : ∀ x ∈ xs, x.Proper) (hname : byte '/' ∉ name) :
    (xs.countP fun x => !x.isDir && bucket? x = some name) = filesIn name xs := by
  refine List.countP_congr fun x hx => ?_
  cases hdir : x.isDir with
  | true => simp
  | false =>
    rcases proper_cases (hxs x hx) with ⟨hn, hb⟩ | ⟨n, rest, hn, -, -, hrel, hb⟩
    · rw [hb, hdir]
      by_cases hbesides : name = besides
      · simp [hbesides, hn.no_slash]
      · have hnot : (name ++ Bytes.ofString "/").isPrefixOf x.rel = false := by
          rw [Bool.eq_false_iff]
          intro hpre
          obtain ⟨t, ht⟩ := List.isPrefixOf_iff_prefix.mp hpre
          exact hn.no_slash (ht ▸ by simp [slash_eq])
        simp [hbesides, hnot, Ne.symm hbesides]
    · rw [hb, hdir, hrel]
      by_cases hbesides : name = besides
      · have hdot : n ≠ besides := hn.ne_dot
        simp [hbesides, hdot]
      · have hpre := isPrefixOf_slash hname hn.no_slash rest
        simp [hbesides, hpre]

section Visits

variable (ho : Walk.Orderly w d) (hok : (Walk.trace w d).2 = none)

include ho in
theorem trace_proper : ∀ x ∈ (Walk.trace w d).1, x.Proper :=
  fun _ hx => (Walk.trace_shaped ho.tidy).proper hx

include ho hok in
/-- What is in a directory is visited after the top-level directory on the way to it. -/
theorem exists_directory {n : Bytes} (hx : x ∈ (Walk.trace w d).1) (hfirst : x.path.head? = some n)
    (hmore : x.path ≠ [n]) : ∃ y ∈ (Walk.trace w d).1, y.isDir = true ∧ y.rel = n := by
  obtain ⟨r, isDir, hr, hs, rfl⟩ := (Walk.mem_trace_of_ok ho hok).mp hx
  obtain ⟨k, hreach⟩ := hs.reached
  rw [Walk.visitAt_path (hreach.names ho.tidy)] at hfirst hmore
  -- The way to the item goes over something at the top, and this is a directory as the way goes on.
  obtain ⟨ls, l, -, -, -, hpre, hreach', hdir⟩ := hreach.through ho List.nil_prefix hr
  rw [List.nil_append] at hpre hreach' hdir
  obtain ⟨r', rfl⟩ := hpre
  cases hfirst
  rw [hdir hmore] at hreach'
  have hvisited : w.visitAt [l.name] true ∈ (Walk.trace w d).1 :=
    (Walk.mem_trace_of_ok ho hok).mpr ⟨_, true, by simp, .dir hreach', rfl⟩
  exact ⟨_, hvisited, rfl, Path.join_singleton l.name⟩

include ho hok in
/-- Visits go to the counts of the top-level directories that are visited. -/
theorem exists_bucket?_iff (hname : name ≠ besides) :
    (∃ x ∈ (Walk.trace w d).1, bucket? x = some name) ↔
      ∃ x ∈ (Walk.trace w d).1, x.isDir = true ∧ x.rel = name ∧ byte '/' ∉ name := by
  constructor
  · rintro ⟨x, hx, hb⟩
    rcases proper_cases (trace_proper ho x hx) with ⟨hn, hb'⟩ | ⟨n, rest, hn, hfirst, hmore, -, hb'⟩
    · rw [hb', Option.some.injEq] at hb
      cases hdir : x.isDir with
      | true =>
        rw [hdir, if_pos rfl] at hb
        exact ⟨x, hx, hdir, hb, hb ▸ hn.no_slash⟩
      | false =>
        rw [hdir] at hb
        exact absurd hb.symm hname
    · rw [hb'] at hb
      split at hb
      · cases hb
      · cases hb
        obtain ⟨y, hy, hdir, hrel⟩ := exists_directory ho hok hx hfirst hmore
        exact ⟨y, hy, hdir, hrel, hn.no_slash⟩
  · rintro ⟨x, hx, hdir, rfl, hslash⟩
    refine ⟨x, hx, ?_⟩
    unfold bucket?
    rw [Bytes.cut_of_notMem hslash, hdir]

include ho in
/-- To the count beside the directories go the visits to files in none of them. -/
theorem exists_besides_iff : (∃ x ∈ (Walk.trace w d).1, bucket? x = some besides) ↔
    ∃ x ∈ (Walk.trace w d).1, x.isDir = false ∧ byte '/' ∉ x.rel := by
  refine exists_congr fun x => and_congr_right fun hx => ?_
  rcases proper_cases (trace_proper ho x hx) with ⟨hn, hb⟩ | ⟨n, rest, hn, -, -, hrel, hb⟩
  · have hdot : x.rel ≠ besides := hn.ne_dot
    rw [hb]
    cases x.isDir <;> simp [hn.no_slash, hdot]
  · have hdot : n ≠ besides := hn.ne_dot
    rw [hb, hrel]
    cases x.isDir <;> simp [hdot]

end Visits

/-! ## 3. The counts are what the visits say

Whatever list is sorted and has the right counts is the one that is kept. -/

/-- The counts of the visits, in ascending order of their names: one for each top-level directory that is
visited, and one for the dot if there is a file beside them. -/
structure Buckets (xs : List Visit) (counts : List SubdirCount) : Prop where
  ascending : counts.Pairwise (·.name < ·.name)
  directory : ∀ name, name ≠ besides → ((∃ c ∈ counts, c.name = name) ↔
    ∃ x ∈ xs, x.isDir = true ∧ x.rel = name ∧ byte '/' ∉ name)
  beside : (∃ c ∈ counts, c.name = besides) ↔ ∃ x ∈ xs, x.isDir = false ∧ byte '/' ∉ x.rel
  files : ∀ c ∈ counts, c.files = Int64.ofNat (filesIn c.name xs)

/-- There is one list of counts for a list of visits. -/
theorem Buckets.unique {counts' : List SubdirCount} (h : Buckets xs counts) (h' : Buckets xs counts') :
    counts = counts' := by
  have hnodup : ∀ {l : List SubdirCount}, l.Pairwise (·.name < ·.name) → l.Nodup := by
    intro l hl
    refine hl.imp fun {a b} hlt heq => ?_
    subst heq
    exact List.lt_irrefl _ hlt
  have hsub : ∀ {l l' : List SubdirCount}, Buckets xs l → Buckets xs l' → l ⊆ l' := by
    intro l l' hl hl' c hc
    have hsame : ∃ c' ∈ l', c'.name = c.name := by
      by_cases hname : c.name = besides
      · exact hname ▸ hl'.beside.mpr (hl.beside.mp ⟨c, hc, hname⟩)
      · exact (hl'.directory _ hname).mpr ((hl.directory _ hname).mp ⟨c, hc, rfl⟩)
    obtain ⟨c', hc', heq⟩ := hsame
    have hfiles : c'.files = c.files := by rw [hl'.files c' hc', hl.files c hc, heq]
    obtain ⟨n, f⟩ := c
    obtain ⟨n', f'⟩ := c'
    cases heq
    cases hfiles
    exact hc'
  -- Two ascending lists with the same members are the same.
  refine List.Perm.eq_of_pairwise (fun a b _ _ hab hba => absurd (List.lt_trans hab hba) (List.lt_irrefl _))
    h.ascending h'.ascending ?_
  rw [List.perm_ext_iff_of_nodup (hnodup h.ascending) (hnodup h'.ascending)]
  exact fun c => ⟨fun hc => hsub h h' hc, fun hc => hsub h' h hc⟩

theorem sorted_ascending (h : (counts.map (·.name)).Nodup) : (sorted counts).Pairwise (·.name < ·.name) := by
  have hnames : (sorted counts).map (·.name) = Bytes.sort (counts.map (·.name)) :=
    map_sortBy Bytes.le _ counts
  refine List.pairwise_map.mp ?_
  rw [hnames]
  exact Bytes.sort_pairwise_lt h

/-- What is left of the visits of a walk is as they say. -/
theorem buckets_of_trace (ho : Walk.Orderly w d) (hok : (Walk.trace w d).2 = none) :
    Buckets (Walk.trace w d).1
      (sorted ((Walk.trace w d).1.foldl (fun counts x => seeBySubdir x counts) [])) := by
  have h := foldl_tallies (Walk.trace w d).1
  generalize (Walk.trace w d).1.foldl (fun counts x => seeBySubdir x counts) [] = counts at h
  have hmem : ∀ name, (∃ c ∈ sorted counts, c.name = name) ↔
      ∃ x ∈ (Walk.trace w d).1, bucket? x = some name := by
    intro name
    rw [← h.names, List.mem_map]
    exact exists_congr fun c => and_congr_left fun _ => mem_sortBy _
  refine ⟨sorted_ascending h.nodup, fun name hname => ?_, ?_, fun c hc => ?_⟩
  · rw [hmem, exists_bucket?_iff ho hok hname]
  · rw [hmem, exists_besides_iff ho]
  · have hslash : byte '/' ∉ c.name := by
      by_cases hname : c.name = besides
      · rw [hname]
        decide
      · obtain ⟨-, -, -, -, hslash⟩ := (exists_bucket?_iff ho hok hname).mp ((hmem _).mp ⟨c, hc, rfl⟩)
        exact hslash
    rw [((mem_iff_tally h.nodup).mp ((mem_sortBy _).mp hc)).2, h.files,
      countP_bucket? (trace_proper ho) hslash]

theorem bySubdir_eq_ok : bySubdir w d = .ok counts ↔ Walk.checkPatterns w.exclude = .ok () ∧
    (Walk.trace w d).2 = none ∧
      counts = sorted ((Walk.trace w d).1.foldl (fun counts x => seeBySubdir x counts) []) := by
  cases hp : Walk.checkPatterns w.exclude with
  | error f =>
    unfold bySubdir
    rw [hp]
    simp [bind, Except.bind]
  | ok _ =>
    rw [bySubdir_eq hp]
    cases (Walk.trace w d).2 with
    | some f => simp
    | none => simp [eq_comm]

/-- **The counts are what the visits say.**  Counting by top-level directory succeeds with a list of counts if
the patterns can be read, the walk comes to its end, and the list is that of the visits: in strictly ascending
order of names, with a count for each top-level directory that is visited, which is the number of files visited
in it at any depth, and one for the dot if files are visited beside the directories, which is their number.  The
counts are these numbers as long as 64 bits can hold them. -/
theorem bySubdir_buckets (hd : d.Sound) (ht : w.tree.Proper) (counts : List SubdirCount) :
    (bySubdir w d = .ok counts ↔ Walk.checkPatterns w.exclude = .ok () ∧ (Walk.visits w d).2 = none ∧
      Buckets (Walk.visits w d).1 counts) ∧
    (bySubdir w d = .ok counts → ∀ c ∈ counts,
      (filesIn c.name (Walk.visits w d).1 : Int) ≤ Int64.maxValue.toInt →
        c.files.toInt = filesIn c.name (Walk.visits w d).1) := by
  have ho : Walk.Orderly w d := Walk.orderly hd ht
  rw [Walk.visits_eq_trace, bySubdir_eq_ok]
  refine ⟨and_congr_right fun _ => and_congr_right fun hok => ?_, ?_⟩
  · constructor
    · rintro rfl
      exact buckets_of_trace ho hok
    · exact fun h => h.unique (buckets_of_trace ho hok)
  · rintro ⟨-, hok, rfl⟩ c hc hsmall
    rw [Int64.toInt_maxValue] at hsmall
    rw [(buckets_of_trace ho hok).files c hc]
    exact Int64.toInt_ofNat_of_lt (by omega)

/-- A directory without files, one with files at two depths, a file beside them, and links to both kinds. -/
def filesAtTwoDepths : Disk :=
  { entries :=
      [([("src" : Bytes)], .dir 0o755),
        ([("src" : Bytes), ("-" : Bytes)], .dir 0o755),
        ([("src" : Bytes), ("a" : Bytes)], .dir 0o755),
        ([("src" : Bytes), ("a" : Bytes), ("b" : Bytes)], .dir 0o755),
        ([("src" : Bytes), ("a" : Bytes), ("b" : Bytes), ("jam" : Bytes)], .file 0o644 "1"),
        ([("src" : Bytes), ("a" : Bytes), ("tea" : Bytes)], .file 0o644 "2"),
        ([("src" : Bytes), ("a" : Bytes), ("salt" : Bytes)], .file 0o644 "3"),
        ([("src" : Bytes), ("flour" : Bytes)], .file 0o644 "4"),
        ([("src" : Bytes), ("rest" : Bytes)], .link "a"),
        ([("src" : Bytes), ("rye" : Bytes)], .link "flour")] }

/-- The link to the file counts beside the directories, between the two directories in the order of names. -/
theorem bySubdir_buckets_filesAtTwoDepths :
    filesAtTwoDepths.Sound ∧
      (bySubdir ⟨.onDisk "/src", ".", ["salt"]⟩ filesAtTwoDepths).toOption = some [⟨"-", 0⟩, ⟨".", 2⟩, ⟨"a", 2⟩] ∧
      Buckets (Walk.visits ⟨.onDisk "/src", ".", ["salt"]⟩ filesAtTwoDepths).1 [⟨"-", 0⟩, ⟨".", 2⟩, ⟨"a", 2⟩] ∧
      filesIn "a" (Walk.visits ⟨.onDisk "/src", ".", ["salt"]⟩ filesAtTwoDepths).1 = 2 := by
  have hsound : filesAtTwoDepths.Sound := Disk.sound_of_entries (by decide)
  have hcounts : (bySubdir ⟨.onDisk "/src", ".", ["salt"]⟩ filesAtTwoDepths).toOption =
      some [⟨"-", 0⟩, ⟨".", 2⟩, ⟨"a", 2⟩] := by decide +kernel
  have hbuckets := (bySubdir_buckets (w := ⟨.onDisk "/src", ".", ["salt"]⟩) hsound trivial _).1.mp
    (Disk.ok_of_toOption hcounts)
  exact ⟨hsound, hcounts, hbuckets.2.2, by decide +kernel⟩

end AgentKit.Count
