import AgentKit.Proofs.Sources
import Mathlib.Data.List.Nodup
/-!
# What a walk can reach

A walk ends at the first thing that cannot be read, so that what it visits depends on the order in which it
goes.  What there is to visit does not: an entry is reached if all directories on the way to it can be
listed and nothing on the way is excluded.

1. `Reached`, and what it takes to be reached.
2. No tree is deeper than a walk goes (`orderly`).
3. **What a walk visits** (`mem_trace_iff`): the files and directories that are reached and before which,
   in the order of their names, nothing is that cannot be read (`Blocked`).  **It fails nowhere** if there is
   no such thing at all (`trace_ok_iff`).
4. On disk: what is reached is what is there (`Reached.get?`, `reached_of_get?`).

`Walking` says of what shape a trace is, in terms of the trace itself.  Here it is said which visits are in it, in
terms of the tree, so that a later module can go from the files on a disk to the visits of a walk and back without
looking at the walk.  The two characterisations are about the same recursion but do not need each other.

That the walk stops at the first obstacle makes the statement less simple than it might be: the visits are not all that
is shown but only what comes before every obstacle.  A directory that cannot be listed is itself visited, since
it comes before the attempt to list it.
-/

namespace AgentKit

open Disk

namespace Walk

variable {w : Scope} {d : Disk} {q r : List Bytes} {n : Bytes} {k k' : Kind} {isDir : Bool}

/-! ## 1. Entries within reach

Being reached does not depend on any order, nor on a depth.  An item that is excluded is not reached, and so
nothing below it is, even if it does not match a pattern itself. -/

/-- What there is for a walk: the root, and the items of directories that can be listed, if they are not
excluded. -/
inductive Reached (w : Scope) (d : Disk) : List Bytes → Kind → Prop
  | root {info : Info} : w.tree.stat d w.root = .ok info → info.isDir = true → Reached w d [] .dir
  | item {q : List Bytes} {ls : List Listed} {l : Listed} : Reached w d q .dir →
      w.tree.list d (Path.nameAt w.root q) = .ok ls → l ∈ ls →
      Exclusion.excludes w.exclude (Path.join (q ++ [l.name])) = false →
      Reached w d (q ++ [l.name]) l.kind

/-- Neither the entry nor a directory on the way to it is excluded. -/
def Kept (exclude : List Bytes) (q : List Bytes) : Prop :=
  ∀ r, r ≠ [] → r <+: q → Exclusion.excludes exclude (Path.join r) = false

/-- A tree that is listed in order and is not deeper than a walk goes. -/
structure Orderly (w : Scope) (d : Disk) : Prop where
  tidy : ∀ dir ls, w.tree.list d dir = .ok ls → Tidy ls
  depth : ∀ q, Reached w d q .dir → q.length < w.tree.depth

/-- What is not the root is an item of a directory that is reached. -/
theorem Reached.of_concat (h : Reached w d (q ++ [n]) k) : ∃ ls l, Reached w d q .dir ∧
    w.tree.list d (Path.nameAt w.root q) = .ok ls ∧ l ∈ ls ∧ l.name = n ∧ l.kind = k ∧
      Exclusion.excludes w.exclude (Path.join (q ++ [n])) = false := by
  generalize hp : q ++ [n] = p at h
  cases h with
  | root => simp at hp
  | @item q' ls l hq hls hl hex =>
    obtain ⟨rfl, hn⟩ := List.append_inj' hp rfl
    rw [List.singleton_inj] at hn
    subst hn
    exact ⟨ls, l, hq, hls, hl, rfl, rfl, hex⟩

theorem Reached.rootIsDir (h : Reached w d q k) :
    ∃ info, w.tree.stat d w.root = .ok info ∧ info.isDir = true := by
  induction h with
  | root hstat hdir => exact ⟨_, hstat, hdir⟩
  | item _ _ _ _ ih => exact ih

theorem kept_nil (exclude : List Bytes) : Kept exclude [] :=
  fun _ hne hr => absurd (List.prefix_nil.mp hr) hne

theorem Kept.concat {exclude : List Bytes} (h : Kept exclude q)
    (hn : Exclusion.excludes exclude (Path.join (q ++ [n])) = false) : Kept exclude (q ++ [n]) := by
  intro r hne hr
  rcases List.prefix_concat_iff.mp hr with rfl | hr
  · exact hn
  · exact h r hne hr

theorem Kept.of_prefix {exclude : List Bytes} (h : Kept exclude q) (hr : r <+: q) : Kept exclude r :=
  fun r' hne hr' => h r' hne (hr'.trans hr)

/-- Whatever is reached is not excluded, nor is anything on the way. -/
theorem Reached.kept (h : Reached w d q k) : Kept w.exclude q := by
  induction h with
  | root => exact kept_nil w.exclude
  | item _ _ _ hex ih => exact ih.concat hex

theorem Reached.names (htidy : ∀ dir ls, w.tree.list d dir = .ok ls → Tidy ls)
    (h : Reached w d q k) : ∀ n ∈ q, Path.IsName n := by
  induction h with
  | root => simp
  | item _ hls hl _ ih => exact forall_isName_append ih (by simpa using (htidy _ _ hls).names _ hl)

theorem Tidy.eq_of_name {ls : List Listed} (h : Tidy ls) {l l' : Listed} (hl : l ∈ ls) (hl' : l' ∈ ls)
    (hn : l.name = l'.name) : l = l' := by
  have hdiff : (ls.map (·.name)).Nodup := by
    refine List.pairwise_map.mpr (h.ascending.imp fun {a b} hlt heq => ?_)
    rw [heq] at hlt
    exact List.lt_irrefl b.name hlt
  exact List.inj_on_of_nodup_map hdiff hl hl' hn

/-- An entry has one kind. -/
theorem Reached.kind_eq (ho : Orderly w d) (h : Reached w d q k) (h' : Reached w d q k') : k = k' := by
  cases q using List.reverseRecOn with
  | nil =>
    have hroot : ∀ {j}, Reached w d [] j → j = .dir := by
      intro j hj
      generalize hp : ([] : List Bytes) = p at hj
      cases hj with
      | root => rfl
      | item => simp at hp
    rw [hroot h, hroot h']
  | append_singleton q n =>
    obtain ⟨ls, l, -, hls, hl, hn, rfl, -⟩ := h.of_concat
    obtain ⟨ls', l', -, hls', hl', hn', rfl, -⟩ := h'.of_concat
    rw [hls, Except.ok.injEq] at hls'
    subst hls'
    rw [(ho.tidy _ _ hls).eq_of_name hl hl' (hn.trans hn'.symm)]

/-- What is below a directory is reached through one of its items. -/
theorem Reached.through (ho : Orderly w d) (h : Reached w d r k) : ∀ {q : List Bytes}, q <+: r → r ≠ q →
    ∃ ls l, Reached w d q .dir ∧ w.tree.list d (Path.nameAt w.root q) = .ok ls ∧ l ∈ ls ∧
      q ++ [l.name] <+: r ∧ Reached w d (q ++ [l.name]) l.kind ∧
      (r ≠ q ++ [l.name] → l.kind = .dir) := by
  induction h with
  | root => exact fun hq hne => absurd (List.prefix_nil.mp hq).symm hne
  -- Either `q` is the directory of the item, or the way has passed `q` before.
  | @item p ls l hp hls hl hex ih =>
    intro q hq hne
    rcases List.prefix_concat_iff.mp hq with rfl | hq'
    · exact absurd rfl hne
    · by_cases hqp : p = q
      · subst hqp
        exact ⟨ls, l, hp, hls, hl, List.prefix_refl _, .item hp hls hl hex, fun h => absurd rfl h⟩
      · obtain ⟨ls', l', hqd, hls', hl', hpre, hr, hdir⟩ := ih hq' hqp
        refine ⟨ls', l', hqd, hls', hl', hpre.trans (List.prefix_append p _), hr, fun _ => ?_⟩
        by_cases hpl : p = q ++ [l'.name]
        · exact (hr.kind_eq ho (hpl ▸ hp))
        · exact hdir hpl

/-! ## 2. How deep a walk goes

The walk is bounded by a depth so that it ends, and the bound must not cut anything off.  On disk paths have a
limit; in memory no name has more parts than the longest. -/

theorem reached_of_faulty {faults : List Fault} {t : Tree} {root : Bytes} {exclude : List Bytes}
    (h : Reached ⟨.faulty faults t, root, exclude⟩ d q k) : Reached ⟨t, root, exclude⟩ d q k := by
  induction h with
  | root hstat hdir => exact .root (Fault.orElse_eq_ok.mp hstat).2 hdir
  | item _ hls hl hex ih => exact .item ih (Tree.list_of_faulty hls) hl hex

/-- On disk the path of a directory that can be listed is shorter than the limit. -/
theorem length_of_list_onDisk {dir root : Bytes} {ls : List Listed} (hq : ∀ n ∈ q, Path.IsName n)
    (h : (Tree.onDisk dir).list d (Path.nameAt root q) = .ok ls) : q.length + 1 < pathLimit := by
  obtain ⟨path, p, e, hpath, hfind, -⟩ := Tree.list_onDisk.mp h
  have hshort := (locate_eq_ok.mp (find_eq_ok.mp hfind).1).1.short
  obtain ⟨-, -, -, -, -, before, rfl, hne⟩ := Tree.pathOf_ok hpath
  have hle : q.length ≤ (Path.nameAt root q).length := Path.length_le_nameAt hq
  have hpos := List.length_pos_of_ne_nil hne
  rw [List.length_append] at hshort
  omega

/-- A name in a tree has as many parts as there are names below the root, at least. -/
theorem length_splitOn_nameAt {root : Bytes} (hq : ∀ n ∈ q, Path.IsName n) :
    q.length ≤ (Bytes.splitOn (byte '/') (Path.nameAt root q)).length := by
  by_cases hnil : q = []
  · simp [hnil]
  · have hle : (Path.names (Path.nameAt root q)).length ≤
        (Bytes.splitOn (byte '/') (Path.nameAt root q)).length := List.length_filter_le _ _
    rw [Path.names_nameAt hnil hq, List.length_append] at hle
    omega

/-- In memory there is an entry with at least as many names. -/
theorem length_of_childToward {root path : Bytes} (hq : ∀ n ∈ q, Path.IsName n)
    (h : Path.childToward? (Path.nameAt root q) path = some n) :
    q.length + 1 ≤ (Bytes.splitOn (byte '/') path).length := by
  have hpos : 0 < (Bytes.splitOn (byte '/') path).length :=
    List.length_pos_of_ne_nil (Bytes.splitOn_ne_nil _ path)
  unfold Path.childToward? at h
  dsimp only at h
  split at h
  · rename_i rest hrest
    split at hrest
    · rename_i hdot
      -- Only the root of a tree is a dot.
      have hnil : q = [] := by
        by_contra hne
        exact Path.nameAt_ne_dot hne hq hdot
      simp [hnil]
      omega
    · split at hrest
      · rename_i hpre
        obtain ⟨rest', rfl⟩ := List.isPrefixOf_iff_prefix.mp hpre
        have hle : q.length ≤ (Bytes.splitOn (byte '/') (Path.nameAt root q)).length :=
          length_splitOn_nameAt hq
        rw [List.append_assoc, slash_eq, List.singleton_append, Bytes.splitOn_append_cons,
          List.length_append]
        have := List.length_pos_of_ne_nil (Bytes.splitOn_ne_nil (byte '/') rest')
        omega
      · cases hrest
  · cases h

/-- No directory that is reached is deeper than a walk goes. -/
theorem length_lt_depth (hq : ∀ n ∈ q, Path.IsName n) : ∀ {t : Tree} {root : Bytes} {exclude : List Bytes},
    Reached ⟨t, root, exclude⟩ d q k → q.length < t.depth
  | .onDisk dir, root, exclude, h => by
    cases q using List.reverseRecOn with
    | nil => exact Nat.succ_pos _
    | append_singleton q n =>
      obtain ⟨ls, l, -, hls, -⟩ := h.of_concat
      -- It is the directory around the entry that was listed, and its path was within the limit.
      have := length_of_list_onDisk (fun m hm => hq m (List.mem_append_left _ hm)) hls
      rw [List.length_append, List.length_singleton]
      exact this
  | .inMemory m, root, exclude, h => by
    cases q using List.reverseRecOn with
    | nil => exact Nat.succ_pos _
    | append_singleton q n =>
      obtain ⟨ls, l, -, hls, hl, rfl, -⟩ := h.of_concat
      obtain ⟨e, he, hchild⟩ := Memory.exists_of_mem_items hls hl
      have := length_of_childToward (fun m hm => hq m (List.mem_append_left _ hm)) hchild
      rw [List.length_append, List.length_singleton]
      exact Nat.lt_of_le_of_lt this (Memory.length_lt_depth he)
  | .faulty faults t, root, exclude, h => length_lt_depth hq (t := t) (reached_of_faulty h)

/-- **Walks can deal with all trees there are.** -/
theorem orderly (hd : d.Sound) (ht : w.tree.Proper) : Orderly w d := by
  have htidy : ∀ dir ls, w.tree.list d dir = .ok ls → Tidy ls := fun _ _ => Tree.list_tidy hd ht
  exact ⟨htidy, fun q hq => length_lt_depth (hq.names htidy) hq⟩

/-! ## 3. What a walk visits

The invariant is `Covers`.  It has two sets: the visits are about what is in `A`, and obstacles are looked for in
`B`.  For a directory that is entered they differ, since the visit to the directory itself comes before it is
listed but a failure to list it counts for what is in it. -/

/-- Something that is reached and cannot be read: a directory that cannot be listed, or a link that leads
nowhere. -/
inductive Blocked (w : Scope) (d : Disk) (q : List Bytes) : Prop
  | dir {f : Failure} : Reached w d q .dir → w.tree.list d (Path.nameAt w.root q) = .error f →
      Blocked w d q
  | link {f : Failure} : Reached w d q .link → w.tree.stat d (Path.nameAt w.root q) = .error f →
      Blocked w d q

/-- What is reached and shown to a visitor.  A link counts as the file that it leads to, and one that
leads to a directory is not shown. -/
inductive Shown (w : Scope) (d : Disk) (q : List Bytes) : Bool → Prop
  | dir : Reached w d q .dir → Shown w d q true
  | file : Reached w d q .file → Shown w d q false
  | link {info : Info} : Reached w d q .link → w.tree.stat d (Path.nameAt w.root q) = .ok info →
      info.isDir = false → Shown w d q false

theorem Blocked.reached (h : Blocked w d q) : ∃ k, Reached w d q k := by
  cases h with
  | dir h => exact ⟨_, h⟩
  | link h => exact ⟨_, h⟩

theorem Shown.reached (h : Shown w d q isDir) : ∃ k, Reached w d q k := by
  cases h with
  | dir h => exact ⟨_, h⟩
  | file h => exact ⟨_, h⟩
  | link h => exact ⟨_, h⟩

/-- What is shown is shown as a directory or as a file, and not as both. -/
theorem Shown.unique {isDir' : Bool} (ho : Orderly w d) (h : Shown w d q isDir)
    (h' : Shown w d q isDir') : isDir = isDir' := by
  cases h with
  | dir h =>
    cases h' with
    | dir => rfl
    | file h' => exact absurd (h.kind_eq ho h') (by simp)
    | link h' => exact absurd (h.kind_eq ho h') (by simp)
  | file h =>
    cases h' with
    | dir h' => exact absurd (h.kind_eq ho h') (by simp)
    | file => rfl
    | link => rfl
  | link h =>
    cases h' with
    | dir h' => exact absurd (h.kind_eq ho h') (by simp)
    | file => rfl
    | link => rfl

theorem blocked_dir_iff (ho : Orderly w d) (h : Reached w d q .dir) :
    Blocked w d q ↔ ∃ f, w.tree.list d (Path.nameAt w.root q) = .error f := by
  constructor
  · rintro (⟨-, herr⟩ | ⟨h', -⟩)
    · exact ⟨_, herr⟩
    · exact absurd (h.kind_eq ho h') (by simp)
  · rintro ⟨f, herr⟩
    exact .dir h herr

theorem blocked_link_iff (ho : Orderly w d) (h : Reached w d q .link) :
    Blocked w d q ↔ ∃ f, w.tree.stat d (Path.nameAt w.root q) = .error f := by
  constructor
  · rintro (⟨h', -⟩ | ⟨-, herr⟩)
    · exact absurd (h.kind_eq ho h') (by simp)
    · exact ⟨_, herr⟩
  · rintro ⟨f, herr⟩
    exact .link h herr

theorem not_blocked_file (ho : Orderly w d) (h : Reached w d q .file) : ¬ Blocked w d q := by
  rintro (⟨h', -⟩ | ⟨h', -⟩)
  · exact absurd (h.kind_eq ho h') (by simp)
  · exact absurd (h.kind_eq ho h') (by simp)

theorem Shown.of_link (ho : Orderly w d) (h : Reached w d q .link) (hs : Shown w d q isDir) :
    ∃ info, w.tree.stat d (Path.nameAt w.root q) = .ok info ∧ info.isDir = false := by
  cases hs with
  | dir h' => exact absurd (h.kind_eq ho h') (by simp)
  | file h' => exact absurd (h.kind_eq ho h') (by simp)
  | link _ hok hno => exact ⟨_, hok, hno⟩

/-- What is no directory has nothing below it. -/
theorem Reached.alone (ho : Orderly w d) (h : Reached w d q k) (hk : k ≠ .dir) (hr : Reached w d r k')
    (hpre : q <+: r) : r = q := by
  by_contra hne
  obtain ⟨-, -, hdir, -⟩ := hr.through ho hpre hne
  exact hk (h.kind_eq ho hdir)

/-- The trace has the visits to what is shown in `A`, up to the first thing that blocks it in `B`. -/
structure Covers (w : Scope) (d : Disk) (A B : List Bytes → Prop) (tr : Trace) : Prop where
  ok : tr.2 = none ↔ ∀ r, B r → ¬ Blocked w d r
  mem : ∀ x, x ∈ tr.1 ↔ ∃ r isDir, A r ∧ Shown w d r isDir ∧ x = w.visitAt r isDir ∧
    ∀ b, B b → Blocked w d b → ¬ b < r

section Covers

variable {A B A' B' : List Bytes → Prop} {a b tr : Trace}

/-- Only what is shown and what blocks matters for the two sets. -/
theorem Covers.congr (h : Covers w d A B tr) (hA : ∀ r isDir, Shown w d r isDir → (A r ↔ A' r))
    (hB : ∀ r, Blocked w d r → (B r ↔ B' r)) : Covers w d A' B' tr := by
  refine ⟨h.ok.trans ⟨fun hb r hr hblk => hb r ((hB r hblk).mpr hr) hblk,
    fun hb r hr hblk => hb r ((hB r hblk).mp hr) hblk⟩, fun x => (h.mem x).trans ?_⟩
  constructor
  · rintro ⟨r, isDir, hr, hs, hx, hb⟩
    exact ⟨r, isDir, (hA r isDir hs).mp hr, hs, hx,
      fun b hb' hblk => hb b ((hB b hblk).mpr hb') hblk⟩
  · rintro ⟨r, isDir, hr, hs, hx, hb⟩
    exact ⟨r, isDir, (hA r isDir hs).mpr hr, hs, hx,
      fun b hb' hblk => hb b ((hB b hblk).mp hb') hblk⟩

/-- Where nothing is shown there is nothing to visit. -/
theorem Covers.nothing (hA : ∀ r isDir, Shown w d r isDir → ¬ A r)
    (hB : ∀ r, Blocked w d r → ¬ B r) : Covers w d A B ([], none) := by
  refine ⟨⟨fun _ r hr hblk => hB r hblk hr, fun _ => rfl⟩,
    fun x => ⟨fun hx => absurd hx (by simp), ?_⟩⟩
  rintro ⟨r, isDir, hr, hs, -⟩
  exact absurd hr (hA r isDir hs)

/-- Where the first thing blocks there is nothing to visit either. -/
theorem Covers.stopped (f : Failure) (hb : B q) (hblk : Blocked w d q)
    (hA : ∀ r isDir, Shown w d r isDir → A r → q < r) : Covers w d A B ([], some f) := by
  refine ⟨⟨fun h => by simp at h, fun h => absurd hblk (h q hb)⟩,
    fun x => ⟨fun hx => absurd hx (by simp), ?_⟩⟩
  rintro ⟨r, isDir, hr, hs, -, hbefore⟩
  exact absurd (hA r isDir hs hr) (hbefore q hb hblk)

theorem Covers.single (ho : Orderly w d) (h : Shown w d q isDir) :
    Covers w d (· = q) (fun _ => False) ([w.visitAt q isDir], none) := by
  refine ⟨⟨fun _ _ hr => hr.elim, fun _ => rfl⟩, fun x => ?_⟩
  rw [List.mem_singleton]
  constructor
  · rintro rfl
    exact ⟨q, isDir, rfl, h, rfl, fun _ hr => hr.elim⟩
  · rintro ⟨r, isDir', rfl, hs, rfl, -⟩
    rw [hs.unique ho h]

/-- One part after the other, if that is their order. -/
theorem Covers.chain (ha : Covers w d A B a) (hb : Covers w d A' B' b)
    (hlt : ∀ r s, A r → B' s → ¬ s < r) (hgt : ∀ r s, B r → A' s → r < s) :
    Covers w d (fun r => A r ∨ A' r) (fun r => B r ∨ B' r) (Walk.chain a b) := by
  obtain ⟨xs, f⟩ := a
  cases f with
  | none =>
    have hfree := ha.ok.mp rfl
    refine ⟨?_, fun x => ?_⟩
    · rw [Walk.chain, hb.ok]
      exact ⟨fun h r hr => hr.elim (hfree r) (h r), fun h r hr => h r (Or.inr hr)⟩
    · rw [Walk.chain, List.mem_append, ha.mem, hb.mem]
      constructor
      · rintro (⟨r, isDir, hr, hs, hx, -⟩ | ⟨r, isDir, hr, hs, hx, hbefore⟩)
        · exact ⟨r, isDir, Or.inl hr, hs, hx,
            fun s hs' hblk => hs'.elim (fun h => absurd hblk (hfree s h)) (hlt r s hr)⟩
        · exact ⟨r, isDir, Or.inr hr, hs, hx,
            fun s hs' hblk => hs'.elim (fun h => absurd hblk (hfree s h)) (hbefore s · hblk)⟩
      · rintro ⟨r, isDir, hr | hr, hs, hx, hbefore⟩
        · exact Or.inl ⟨r, isDir, hr, hs, hx, fun s hs' => hbefore s (Or.inl hs')⟩
        · exact Or.inr ⟨r, isDir, hr, hs, hx, fun s hs' => hbefore s (Or.inr hs')⟩
  | some f =>
    -- The first part ended with a failure, so there is an obstacle in it, and all of the second part comes after
    -- it.
    have hblocked : ∃ s, B s ∧ Blocked w d s := by
      by_contra hno
      have hnone := ha.ok.mpr fun s hs hblk => hno ⟨s, hs, hblk⟩
      simp at hnone
    obtain ⟨s, hs, hblk⟩ := hblocked
    refine ⟨⟨fun h => by simp [Walk.chain] at h, fun h => absurd hblk (h s (Or.inl hs))⟩, fun x => ?_⟩
    rw [Walk.chain, ha.mem]
    constructor
    · rintro ⟨r, isDir, hr, hshown, hx, hbefore⟩
      exact ⟨r, isDir, Or.inl hr, hshown, hx,
        fun s hs' hblk => hs'.elim (hbefore s · hblk) (hlt r s hr)⟩
    · rintro ⟨r, isDir, hr | hr, hshown, hx, hbefore⟩
      · exact ⟨r, isDir, hr, hshown, hx, fun s hs' => hbefore s (Or.inl hs')⟩
      · exact absurd (hgt s r hs hr) (hbefore s (Or.inl hs) hblk)

/-- Nothing is visited of what is excluded. -/
theorem Covers.excluded (hq : q ≠ []) (hex : Exclusion.excludes w.exclude (Path.join q) = true) :
    Covers w d (q <+: ·) (q <+: ·) ([], none) := by
  have hnone : ∀ r k, Reached w d r k → ¬ q <+: r := fun r k hr hpre =>
    absurd (hex.symm.trans (hr.kept q hq hpre)) (by simp)
  exact .nothing (fun r _ hs => hnone r _ hs.reached.choose_spec)
    fun r hblk => hnone r _ hblk.reached.choose_spec

/-- A directory is visited before what is in it. -/
theorem Covers.entered (ho : Orderly w d) (h : Reached w d q .dir)
    (hin : Covers w d (fun r => q <+: r ∧ r ≠ q) (q <+: ·) tr) :
    Covers w d (q <+: ·) (q <+: ·) (Walk.chain ([w.visitAt q true], none) tr) := by
  refine ((Covers.single ho (.dir h)).chain hin ?_ fun _ _ h => h.elim).congr (fun r _ _ => ?_)
    fun r _ => by simp
  · rintro r s rfl hs hlt
    exact List.not_lt.mpr hs.le hlt
  · constructor
    · rintro (rfl | ⟨hr, -⟩)
      · exact List.prefix_refl _
      · exact hr
    · intro hr
      by_cases heq : r = q
      · exact Or.inl heq
      · exact Or.inr ⟨hr, heq⟩

/-- The visit to something that has nothing below it. -/
theorem Covers.leaf (ho : Orderly w d) (h : Shown w d q isDir) (hfree : ¬ Blocked w d q)
    (halone : ∀ r k, Reached w d r k → q <+: r → r = q) :
    Covers w d (q <+: ·) (q <+: ·) ([w.visitAt q isDir], none) := by
  refine (Covers.single ho h).congr (fun r _ hs => ?_) fun r hblk => ?_
  · obtain ⟨k, hk⟩ := hs.reached
    exact ⟨fun hr => hr ▸ List.prefix_refl q, halone r k hk⟩
  · obtain ⟨k, hk⟩ := hblk.reached
    exact ⟨False.elim, fun hr => hfree (halone r k hk hr ▸ hblk)⟩

/-- A link ends the walk, or is passed over, or counts as a file. -/
theorem traceLink_covers (ho : Orderly w d) (h : Reached w d q .link) {tr : Trace}
    (herror : ∀ f, w.tree.stat d (Path.nameAt w.root q) = .error f → ∃ g, tr = ([], some g))
    (hok : ∀ info, w.tree.stat d (Path.nameAt w.root q) = .ok info →
      tr = if info.isDir then ([], none) else ([w.visitAt q false], none)) :
    Covers w d (q <+: ·) (q <+: ·) tr := by
  have halone : ∀ r k, Reached w d r k → q <+: r → r = q := fun r k => h.alone ho (by simp)
  cases hstat : w.tree.stat d (Path.nameAt w.root q) with
  | error f =>
    obtain ⟨g, rfl⟩ := herror f hstat
    refine .stopped g (List.prefix_refl _) (.link h hstat) fun r isDir hs hr => ?_
    obtain ⟨k, hk⟩ := hs.reached
    cases halone r k hk hr
    obtain ⟨info, hsome, -⟩ := hs.of_link ho h
    exact absurd (hstat.symm.trans hsome) (by simp)
  | ok info =>
    have hfree : ¬ Blocked w d q := by
      rw [blocked_link_iff ho h, hstat]
      simp
    rw [hok info hstat]
    by_cases hinfo : info.isDir = true
    · rw [if_pos hinfo]
      refine .nothing (fun r isDir hs hr => ?_) fun r hblk hr => ?_
      · obtain ⟨k, hk⟩ := hs.reached
        cases halone r k hk hr
        obtain ⟨info', hsome, hno⟩ := hs.of_link ho h
        rw [hstat, Except.ok.injEq] at hsome
        exact absurd (hsome ▸ hinfo) (by simp [hno])
      · obtain ⟨k, hk⟩ := hblk.reached
        exact hfree (halone r k hk hr ▸ hblk)
    · rw [if_neg hinfo]
      exact .leaf ho (.link h hstat (by simpa using hinfo)) hfree halone

/-- **One item of a directory**, with all that is below it. -/
theorem traceItem_covers {ls : List Listed} {l : Listed} {inside : Bytes → Trace} (ho : Orderly w d)
    (hq : Reached w d q .dir) (hls : w.tree.list d (Path.nameAt w.root q) = .ok ls) (hl : l ∈ ls)
    (hin : Reached w d (q ++ [l.name]) .dir →
      Covers w d (fun r => q ++ [l.name] <+: r ∧ r ≠ q ++ [l.name]) (q ++ [l.name] <+: ·)
        (inside (Path.nameAt w.root (q ++ [l.name])))) :
    Covers w d (q ++ [l.name] <+: ·) (q ++ [l.name] <+: ·)
      (traceItem w d inside (Path.child (Path.nameAt w.root q) l.name) l.kind) := by
  have hnames : ∀ n ∈ q ++ [l.name], Path.IsName n :=
    forall_isName_append (hq.names ho.tidy) (by simpa using (ho.tidy _ _ hls).names l hl)
  have hvisit := visitOf_nameAt (w := w) (by simp) hnames
  rw [← Path.nameAt_concat]
  unfold traceItem
  rw [Path.relativeTo_nameAt (by simp) hnames]
  by_cases hex : Exclusion.excludes w.exclude (Path.join (q ++ [l.name])) = true
  · rw [if_pos hex]
    exact .excluded (by simp) hex
  rw [if_neg hex]
  have hreach : Reached w d (q ++ [l.name]) l.kind := .item hq hls hl (by simpa using hex)
  cases hk : l.kind with
  | file =>
    rw [hk] at hreach
    dsimp only
    rw [hvisit]
    exact .leaf ho (.file hreach) (not_blocked_file ho hreach) fun r k => hreach.alone ho (by simp)
  | dir =>
    rw [hk] at hreach
    dsimp only
    rw [hvisit]
    exact .entered ho hreach (hin hreach)
  | link =>
    rw [hk] at hreach
    dsimp only
    refine traceLink_covers ho hreach (fun f hstat => ?_) fun info hstat => ?_
    · rw [hstat]
      exact ⟨_, rfl⟩
    · rw [hstat, hvisit]

/-- What is below one name comes before what is below a later one. -/
theorem lt_of_names {m n : Bytes} {s : List Bytes} (hmn : m < n) (hr : q ++ [m] <+: r)
    (hs : q ++ [n] <+: s) : r < s := by
  obtain ⟨r', rfl⟩ := hr
  obtain ⟨s', rfl⟩ := hs
  rw [List.append_assoc, List.append_assoc]
  exact List.append_left_lt (List.cons_lt_cons_iff.mpr (Or.inl hmn))

/-- The items in order.  `lt_of_names` puts what is below one of them before what is below the next. -/
theorem traceItems_covers {ls : List Listed} {inside : Bytes → Trace} (ho : Orderly w d)
    (hq : Reached w d q .dir) (hls : w.tree.list d (Path.nameAt w.root q) = .ok ls)
    (hin : ∀ p, Reached w d p .dir → p.length = q.length + 1 →
      Covers w d (fun r => p <+: r ∧ r ≠ p) (p <+: ·) (inside (Path.nameAt w.root p))) :
    ∀ {part : List Listed}, part ⊆ ls → Tidy part →
      Covers w d (fun r => ∃ l ∈ part, q ++ [l.name] <+: r) (fun r => ∃ l ∈ part, q ++ [l.name] <+: r)
        (traceItems w d inside (Path.nameAt w.root q) part)
  | [], _, _ => .nothing (fun _ _ _ h => by simp at h) fun _ _ h => by simp at h
  | l :: part, hpart, htidy => by
    obtain ⟨hless, hasc⟩ := List.pairwise_cons.mp htidy.ascending
    have hrest := traceItems_covers ho hq hls hin (fun _ hm => hpart (List.mem_cons_of_mem _ hm))
      ⟨fun m hm => htidy.names m (List.mem_cons_of_mem _ hm), hasc⟩
    have hitem := traceItem_covers ho hq hls (hpart List.mem_cons_self) fun hr => hin _ hr (by simp)
    have hlt : ∀ r s, q ++ [l.name] <+: r → (∃ m ∈ part, q ++ [m.name] <+: s) → r < s := by
      rintro r s hr ⟨m, hm, hs⟩
      exact lt_of_names (hless m hm) hr hs
    exact (hitem.chain hrest (fun r s hr hs => List.lt_asymm (hlt r s hr hs)) hlt).congr
      (fun r _ _ => by simp) fun r _ => by simp

theorem lt_of_prefix (h : q <+: r) (hne : r ≠ q) : q < r := by
  obtain ⟨r', rfl⟩ := h
  cases r' with
  | nil => simp at hne
  | cons n r' =>
    nth_rewrite 1 [← List.append_nil q]
    exact List.append_left_lt (List.nil_lt_cons n r')

/-- By induction on the depth that is left, which is enough as long as directories are reached. -/
theorem traceDirectory_covers (ho : Orderly w d) : ∀ (depth : Nat) {q : List Bytes},
    Reached w d q .dir → w.tree.depth ≤ q.length + depth →
      Covers w d (fun r => q <+: r ∧ r ≠ q) (q <+: ·) (traceDirectory w d depth (Path.nameAt w.root q))
  | 0, q, hq, hdepth => absurd (ho.depth q hq) (Nat.not_lt.mpr hdepth)
  | depth + 1, q, hq, hdepth => by
    rw [traceDirectory]
    cases hls : w.tree.list d (Path.nameAt w.root q) with
    | error cause =>
      exact .stopped _ (List.prefix_refl q) (.dir hq hls) fun r _ _ hr => lt_of_prefix hr.1 hr.2
    | ok ls =>
      have hitems : Covers w d (fun r => ∃ l ∈ ls, q ++ [l.name] <+: r)
          (fun r => ∃ l ∈ ls, q ++ [l.name] <+: r)
          (traceItems w d (traceDirectory w d depth) (Path.nameAt w.root q) ls) :=
        traceItems_covers ho hq hls
          (fun p hp hlen => traceDirectory_covers ho depth hp (by omega)) (fun _ hm => hm)
          (ho.tidy _ _ hls)
      -- All that is below the directory is below one of its items.
      have hbelow : ∀ r k, Reached w d r k → q <+: r → r ≠ q → ∃ l ∈ ls, q ++ [l.name] <+: r := by
        intro r k hr hpre hne
        obtain ⟨ls', l, -, hls', hl, hpre', -⟩ := hr.through ho hpre hne
        rw [hls, Except.ok.injEq] at hls'
        exact ⟨l, hls' ▸ hl, hpre'⟩
      have habove : ∀ {r : List Bytes}, (∃ l ∈ ls, q ++ [l.name] <+: r) → q <+: r ∧ r ≠ q := by
        rintro r ⟨l, -, hpre⟩
        refine ⟨(List.prefix_append q _).trans hpre, ?_⟩
        rintro rfl
        have hlen := hpre.length_le
        rw [List.length_append] at hlen
        exact Nat.not_succ_le_self _ hlen
      refine hitems.congr (fun r _ hs => ?_) fun r hblk => ?_
      · obtain ⟨k, hk⟩ := hs.reached
        exact ⟨habove, fun hr => hbelow r k hk hr.1 hr.2⟩
      · obtain ⟨k, hk⟩ := hblk.reached
        refine ⟨fun hr => (habove hr).1, fun hr => hbelow r k hk hr ?_⟩
        rintro rfl
        obtain ⟨f, herr⟩ := (blocked_dir_iff ho hq).mp hblk
        exact absurd (hls.symm.trans herr) (by simp)

end Covers

theorem trace_covers (ho : Orderly w d) {info : Info} (hstat : w.tree.stat d w.root = .ok info) :
    Covers w d (· ≠ []) (fun _ => True) (trace w d) := by
  unfold trace
  rw [hstat]
  dsimp only
  by_cases hdir : info.isDir = true
  · rw [if_pos hdir]
    have hroot := traceDirectory_covers ho w.tree.depth (q := []) (.root hstat hdir) (Nat.le_add_left _ _)
    exact hroot.congr (fun r _ _ => by simp) fun r _ => by simp
  · rw [if_neg hdir]
    have hnone : ∀ r k, ¬ Reached w d r k := by
      intro r k hr
      obtain ⟨info', hstat', hdir'⟩ := hr.rootIsDir
      rw [hstat, Except.ok.injEq] at hstat'
      exact hdir (hstat' ▸ hdir')
    refine .nothing (fun r _ hs => ?_) fun r hblk => ?_
    · exact absurd hs.reached.choose_spec (hnone r _)
    · exact absurd hblk.reached.choose_spec (hnone r _)

/-- **When a walk fails nowhere**: there is something to walk and no obstacle in it. -/
theorem trace_ok_iff (ho : Orderly w d) : (trace w d).2 = none ↔
    (∃ info, w.tree.stat d w.root = .ok info) ∧ ∀ r, ¬ Blocked w d r := by
  constructor
  · intro h
    obtain ⟨info, hstat⟩ := root_of_trace_ok h
    exact ⟨⟨info, hstat⟩, fun r => (trace_covers ho hstat).ok.mp h r trivial⟩
  · rintro ⟨⟨info, hstat⟩, hfree⟩
    exact (trace_covers ho hstat).ok.mpr fun r _ => hfree r

/-- **What a walk visits**: what is shown and comes before every obstacle. -/
theorem mem_trace_iff (ho : Orderly w d) {x : Visit} : x ∈ (trace w d).1 ↔
    ∃ r isDir, r ≠ [] ∧ Shown w d r isDir ∧ x = w.visitAt r isDir ∧ ∀ b, Blocked w d b → ¬ b < r := by
  constructor
  · intro hx
    obtain ⟨info, hstat, -⟩ := root_of_mem_trace hx
    obtain ⟨r, isDir, hne, hs, hx, hbefore⟩ := ((trace_covers ho hstat).mem x).mp hx
    exact ⟨r, isDir, hne, hs, hx, fun b => hbefore b trivial⟩
  · rintro ⟨r, isDir, hne, hs, hx, hbefore⟩
    obtain ⟨k, hk⟩ := hs.reached
    obtain ⟨info, hstat, -⟩ := hk.rootIsDir
    exact ((trace_covers ho hstat).mem x).mpr ⟨r, isDir, hne, hs, hx, fun b _ => hbefore b⟩

/-! ## 4. On disk

For a directory on a sound disk the abstract tree is gone: an entry is reached if it is there and every directory
on the way to it can be listed. -/

section OnDisk

variable {dir root : Bytes} {exclude : List Bytes} {S P : Place} {e : Entry}

theorem kind_eq_dir (h : e.kind = .dir) : ∃ m, e = .dir m := by
  cases e with
  | dir m => exact ⟨m, rfl⟩
  | file m c => cases h
  | link t => cases h

/-- A directory that can be listed shows what is in it. -/
theorem list_eq_listing {m : Nat} {ls : List Listed} (hd : d.Sound) (hroot : Tree.RootAt d dir root S)
    (hq : ∀ n ∈ q, Path.IsName n) (hdir : d.get? (S ++ q) = some (.dir m))
    (hls : (Tree.onDisk dir).list d (Path.nameAt root q) = .ok ls) :
    ls = (d.listing (S ++ q)).map fun (n, k) => ⟨n, k⟩ := by
  obtain ⟨path, p, e, hpath, hfind, -, rfl⟩ := Tree.list_onDisk.mp hls
  rw [hroot.place hq (hd.paved hdir) hpath hfind]

theorem Reached.get? (hd : d.Sound) (hroot : Tree.RootAt d dir root S)
    (h : Reached ⟨.onDisk dir, root, exclude⟩ d q k) : ∃ e, d.get? (S ++ q) = some e ∧ e.kind = k := by
  induction h with
  | root =>
    obtain ⟨path, m, -, hfind⟩ := hroot
    rw [List.append_nil]
    exact ⟨_, (find_eq_ok.mp hfind).2.1, rfl⟩
  | @item q ls l hq hls hl _ ih =>
    obtain ⟨e, he, hk⟩ := ih
    obtain ⟨m, rfl⟩ := kind_eq_dir hk
    have hnames := hq.names fun _ _ => Tree.list_tidy hd (t := .onDisk dir) trivial
    rw [list_eq_listing hd hroot hnames he hls] at hl
    obtain ⟨⟨n, k⟩, hmem, rfl⟩ := List.mem_map.mp hl
    rw [← List.append_assoc]
    exact mem_listing.mp hmem

/-- Where all directories can be listed everything is reached that is not excluded. -/
theorem reached_of_get? (hd : d.Sound) (hroot : Tree.RootAt d dir root S)
    (hfree : ∀ r, ¬ Blocked ⟨.onDisk dir, root, exclude⟩ d r) : ∀ {q : List Bytes} {e : Entry},
    Kept exclude q → d.get? (S ++ q) = some e → Reached ⟨.onDisk dir, root, exclude⟩ d q e.kind := by
  intro q
  induction q using List.reverseRecOn with
  | nil =>
    intro e _ he
    obtain ⟨path, m, hpath, hfind⟩ := hroot
    rw [List.append_nil, (find_eq_ok.mp hfind).2.1, Option.some.injEq] at he
    subst he
    exact .root (Tree.onPathOf_eq_ok.mpr ⟨path, hpath, statusOf_eq_ok.mpr ⟨S, _, hfind, rfl⟩⟩) rfl
  | append_singleton q n ih =>
    intro e hkept he
    rw [← List.append_assoc] at he
    obtain ⟨m, hm⟩ := hd.parents _ n e he
    have hq : Reached ⟨.onDisk dir, root, exclude⟩ d q .dir :=
      ih (hkept.of_prefix (List.prefix_append q [n])) hm
    have hnames := hq.names fun _ _ => Tree.list_tidy hd (t := .onDisk dir) trivial
    cases hls : (Tree.onDisk dir).list d (Path.nameAt root q) with
    | error f => exact absurd (.dir hq hls) (hfree q)
    | ok ls =>
      have hmem : (⟨n, e.kind⟩ : Listed) ∈ ls := by
        rw [list_eq_listing hd hroot hnames hm hls]
        exact List.mem_map.mpr ⟨(n, e.kind), mem_listing.mpr ⟨e, he, rfl⟩, rfl⟩
      exact .item hq hls hmem (hkept _ (by simp) (List.prefix_refl _))

/-- The root of the tree in a directory is the directory. -/
theorem rootAt_dot {info : Info} {m : Nat} (h : (Tree.onDisk dir).stat d "." = .ok info)
    (hfind : d.find true dir = .ok (P, .dir m)) : Tree.RootAt d dir "." P := by
  obtain ⟨path, hpath, hs⟩ := Tree.onPathOf_eq_ok.mp h
  obtain ⟨S, e, hfind', -⟩ := statusOf_eq_ok.mp hs
  obtain ⟨hloc, hP, -⟩ := find_eq_ok.mp hfind
  obtain ⟨hloc', hS, -⟩ := find_eq_ok.mp hfind'
  have hfol := (locate_eq_ok.mp hloc).2
  have hfol' := (locate_eq_ok.mp hloc').2
  obtain ⟨-, -, -, habs, hnames, -⟩ := Tree.pathOf_ok hpath
  rw [Bool.true_or] at hfol hfol'
  rw [hnames, start, habs, ← start] at hfol'
  obtain ⟨r, hr, henter⟩ := hfol'.cut (by decide)
  have hrP : r = P :=
    Except.ok.inj ((followWithin_eq_ok.mpr hr).symm.trans (followWithin_eq_ok.mpr hfol))
  subst hrP
  obtain ⟨k, -, heq⟩ := hr.append_eq hP
  have hdot : followWithin d true k r (Path.names ".") = .ok r :=
    (followWithin_dot henter).trans followWithin_nil
  have hSr := heq d true (Path.names ".") (Keeps.refl d) (by decide)
  rw [followWithin_eq_ok.mpr hfol', hdot, Except.ok.injEq] at hSr
  subst hSr
  rw [hP, Option.some.injEq] at hS
  subst hS
  exact ⟨path, m, hpath, hfind'⟩

/-- **The files of a directory without links**, as a walk that fails nowhere sees them. -/
theorem mem_files_onDisk {rel : Bytes} (hd : d.Sound) (hroot : Tree.RootAt d dir root S)
    (hno : NoLinkIn S d) (hok : (trace ⟨.onDisk dir, root, exclude⟩ d).2 = none) :
    (∃ x ∈ (trace ⟨.onDisk dir, root, exclude⟩ d).1, x.isDir = false ∧ x.rel = rel) ↔
      ∃ q, q ≠ [] ∧ rel = Path.join q ∧ Kept exclude q ∧
        ∃ m c, d.get? (S ++ q) = some (.file m c) := by
  have ho : Orderly ⟨.onDisk dir, root, exclude⟩ d := orderly hd trivial
  have hfree := ((trace_ok_iff ho).mp hok).2
  constructor
  · rintro ⟨x, hx, hfile, rfl⟩
    obtain ⟨q, isDir, hne, hs, rfl, -⟩ := (mem_trace_iff ho).mp hx
    refine ⟨q, hne, rfl, ?_⟩
    cases hs with
    | dir => cases hfile
    | file h =>
      obtain ⟨e, he, hk⟩ := h.get? hd hroot
      cases e with
      | file m c => exact ⟨h.kept, m, c, he⟩
      | dir m => cases hk
      | link t => cases hk
    | link h =>
      obtain ⟨e, he, hk⟩ := h.get? hd hroot
      cases e with
      -- A link would be shown as the file that it leads to, but there is none.
      | link t => exact absurd he (hno _ t (List.prefix_append S q))
      | dir m => cases hk
      | file m c => cases hk
  · rintro ⟨q, hne, rfl, hkept, m, c, he⟩
    have hr := reached_of_get? hd hroot hfree hkept he
    exact ⟨Scope.visitAt _ q false, (mem_trace_iff ho).mpr
      ⟨q, false, hne, .file hr, rfl, fun b hb => absurd hb (hfree b)⟩, rfl, rfl⟩

end OnDisk

end Walk

end AgentKit
