import AgentKit.Proofs.Counting
/-!
# More patterns, fewer visits

A pattern takes an entry away from a walk, and with a directory all that is in it.  It may also take away
what the walk would have failed at: a directory that cannot be listed, a link that leads nowhere.  It can
never bring anything in.  With more patterns a walk that failed may go further, but one that came to its end
still does.

1. What a list of patterns excludes depends on the set of its patterns only (`excludes_mono`,
   `excludes_congr`).
2. **A walk that comes to its end comes to its end with more patterns**, and visits no more
   (`trace_thins`).  This needs nothing of the tree.
3. In a tree of proper names **what drops out is exactly what the patterns hide** (`trace_filter`): the
   entries that are excluded and those below a directory that is.
4. **Patterns that exclude the same lead to the same runs** (`run_congr`), whatever the visits do to the
   disk, and so to the same counts, comparisons and copies (`exclusion_monotone`).

The patterns themselves are not looked at here.  All that is used of them is whether they exclude a path, so what is
proved holds for any notion of pattern.  Only that they can be read matters besides, because each operation checks its
patterns before it does anything.
-/

namespace AgentKit

/-! ## 1. Sets of patterns

A path is excluded if one of the patterns covers it.  An entry is hidden if it is excluded itself or below
something that is, and a walk sees it as hidden because it never gets there. -/

namespace Exclusion

variable {P Q : List Bytes}

/-- More patterns exclude more. -/
theorem excludes_mono (h : P ⊆ Q) {rel : Bytes} (hex : excludes P rel = true) : excludes Q rel = true := by
  obtain ⟨p, hp, hcovers⟩ := List.any_eq_true.mp hex
  exact List.any_eq_true.mpr ⟨p, h hp, hcovers⟩

theorem excludes_congr (h : P ⊆ Q) (h' : Q ⊆ P) : excludes P = excludes Q := by
  funext rel
  exact Bool.eq_iff_iff.mpr ⟨excludes_mono h, excludes_mono h'⟩

/-- An entry is hidden unless it and all directories on the way to it are kept. -/
theorem hides_join {q : List Bytes} (hne : q ≠ []) (hq : ∀ n ∈ q, Path.IsName n) :
    hides Q (Path.join q) = false ↔ Walk.Kept Q q := by
  unfold hides
  rw [Path.splitOn_join hne fun n hn => (hq n hn).no_slash]
  dsimp only
  rw [List.any_eq_false]
  constructor
  · -- The beginnings of `q` are what is reached by taking some of its names, at least one.
    intro h r hr hpre
    obtain ⟨k, hk⟩ := Nat.exists_eq_succ_of_ne_zero (List.length_pos_of_ne_nil hr).ne'
    have hshort := hpre.length_le
    have hr' : q.take (k + 1) = r := by rw [List.prefix_iff_eq_take.mp hpre, hk]
    have hkeep := h k (List.mem_range.mpr (by omega))
    rw [hr', Bool.not_eq_true] at hkeep
    exact hkeep
  · intro h i hi
    have hlen := List.mem_range.mp hi
    rw [Bool.not_eq_true]
    refine h _ (fun hnil => ?_) (List.take_prefix _ _)
    have hzero := congrArg List.length hnil
    rw [List.length_take, List.length_nil] at hzero
    omega

end Exclusion

namespace Walk

variable {σ : Type} {w : Scope} {d : Disk} {Q : List Bytes} {a b a' b' : Trace} {name dir : Bytes}
  {kind : Kind} {q : List Bytes} {k : Kind} {isDir : Bool}

/-! ## 2. Walks that come to their end

The induction goes along the trace.  A failure of the walk with fewer patterns makes the statement empty, so
nothing has to be said about where the two walks fail. -/

/-- If the trace `a` comes to its end, so does `b`, which has no visits but those of `a`, in their order. -/
def Thins (a b : Trace) : Prop := a.2 = none → b.2 = none ∧ b.1.Sublist a.1

theorem Thins.refl (a : Trace) : Thins a a := fun h => ⟨h, List.Sublist.refl _⟩

theorem Thins.nothing (a : Trace) : Thins a ([], none) := fun _ => ⟨rfl, List.nil_sublist _⟩

theorem chain_of_ok (ha : a.2 = none) : chain a b = (a.1 ++ b.1, b.2) := by
  obtain ⟨xs, f⟩ := a
  cases ha
  rfl

/-- If both parts thin out, so does the whole, for if the whole comes to its end then both parts do. -/
theorem Thins.chain (ha : Thins a a') (hb : Thins b b') : Thins (Walk.chain a b) (Walk.chain a' b') := by
  intro hok
  have hfirst : a.2 = none := by
    obtain ⟨xs, f⟩ := a
    cases f with
    | none => rfl
    | some f => cases hok
  rw [chain_of_ok hfirst] at hok ⊢
  obtain ⟨hanone, hasub⟩ := ha hfirst
  obtain ⟨hbnone, hbsub⟩ := hb hok
  rw [chain_of_ok hanone]
  exact ⟨hbnone, hasub.append hbsub⟩

section Thins

variable (hmore : ∀ rel, Exclusion.excludes w.exclude rel = true → Exclusion.excludes Q rel = true)

include hmore

/-- What is no longer come to drops out, and with it a failure there may have been. -/
theorem traceItem_thins {inside inside' : Bytes → Trace} (hin : Thins (inside name) (inside' name)) :
    Thins (traceItem w d inside name kind) (traceItem { w with exclude := Q } d inside' name kind) := by
  unfold traceItem
  dsimp only
  by_cases hQ : Exclusion.excludes Q (Path.relativeTo w.root name) = true
  · rw [if_pos hQ]
    exact Thins.nothing _
  rw [if_neg hQ, if_neg fun hw => hQ (hmore _ hw)]
  cases kind with
  | file => exact Thins.refl _
  | dir => exact (Thins.refl _).chain hin
  | link => exact Thins.refl _

/-- The items of a directory. -/
theorem traceItems_thins {inside inside' : Bytes → Trace} (hin : ∀ n, Thins (inside n) (inside' n)) :
    ∀ ls : List Listed, Thins (traceItems w d inside dir ls)
      (traceItems { w with exclude := Q } d inside' dir ls)
  | [] => Thins.refl _
  | _ :: ls => (traceItem_thins hmore (hin _)).chain (traceItems_thins hin ls)

theorem traceDirectory_thins : ∀ (depth : Nat) (dir : Bytes),
    Thins (traceDirectory w d depth dir) (traceDirectory { w with exclude := Q } d depth dir)
  | 0, _ => Thins.refl _
  | depth + 1, dir => by
    unfold traceDirectory
    dsimp only
    cases w.tree.list d dir with
    | error cause => exact Thins.refl _
    | ok ls => exact traceItems_thins hmore (traceDirectory_thins depth) ls

/-- **A walk that comes to its end comes to its end with more patterns**, and visits no more. -/
theorem trace_thins : Thins (trace w d) (trace { w with exclude := Q } d) := by
  unfold trace
  dsimp only
  cases w.tree.stat d w.root with
  | error cause => exact Thins.refl _
  | ok info =>
    dsimp only
    split
    · exact traceDirectory_thins hmore _ _
    · exact Thins.refl _

/-! ## 3. What drops out

The characterisation of visits in `Reaching` reduces this to what is reached. -/

/-- **What is reached with more patterns** is what was reached and is kept by them. -/
theorem reached_more : Reached { w with exclude := Q } d q k ↔ Reached w d q k ∧ Kept Q q := by
  constructor
  · intro h
    refine ⟨?_, h.kept⟩
    induction h with
    | root hstat hinfo => exact .root hstat hinfo
    | item _ hls hl hex ih =>
      refine .item ih hls hl (Bool.eq_false_iff.mpr fun hw => ?_)
      exact absurd (hmore _ hw) (Bool.eq_false_iff.mp hex)
  · rintro ⟨h, hkept⟩
    induction h with
    | root hstat hinfo => exact .root hstat hinfo
    | @item q ls l _ hls hl _ ih =>
      exact .item (ih (hkept.of_prefix (List.prefix_append q _))) hls hl
        (hkept _ (by simp) (List.prefix_refl _))

/-- And so it is for what is shown. -/
theorem shown_more : Shown { w with exclude := Q } d q isDir ↔ Shown w d q isDir ∧ Kept Q q := by
  constructor
  · intro h
    cases h with
    | dir h => exact ⟨.dir ((reached_more hmore).mp h).1, h.kept⟩
    | file h => exact ⟨.file ((reached_more hmore).mp h).1, h.kept⟩
    | link h hstat hinfo => exact ⟨.link ((reached_more hmore).mp h).1 hstat hinfo, h.kept⟩
  · rintro ⟨h, hkept⟩
    cases h with
    | dir h => exact .dir ((reached_more hmore).mpr ⟨h, hkept⟩)
    | file h => exact .file ((reached_more hmore).mpr ⟨h, hkept⟩)
    | link h hstat hinfo => exact .link ((reached_more hmore).mpr ⟨h, hkept⟩) hstat hinfo

/-- **What drops out is exactly what the patterns hide.** -/
theorem trace_filter (hd : d.Sound) (ht : w.tree.Proper) (hok : (trace w d).2 = none) :
    (trace { w with exclude := Q } d).1 = (trace w d).1.filter fun x => !Exclusion.hides Q x.rel := by
  have ho : Orderly w d := orderly hd ht
  have ho' : Orderly { w with exclude := Q } d := orderly hd ht
  have hok' := (trace_thins hmore hok).1
  -- Both lists stand in the order of their paths, so it is enough to compare their members.
  have hsorted := (trace_shaped ho.tidy).sorted.filter fun x => !Exclusion.hides Q x.rel
  have hsorted' := (trace_shaped ho'.tidy).sorted
  have hnodup : ∀ {xs : List Visit}, xs.Pairwise (·.path < ·.path) → xs.Nodup := by
    intro xs h
    refine h.imp fun {x y} hlt heq => ?_
    subst heq
    exact List.lt_irrefl _ hlt
  refine List.Perm.eq_of_pairwise (fun x y _ _ hxy hyx => absurd (List.lt_trans hxy hyx)
    (List.lt_irrefl _)) hsorted' hsorted ?_
  rw [List.perm_ext_iff_of_nodup (hnodup hsorted') (hnodup hsorted)]
  intro x
  rw [List.mem_filter, mem_trace_of_ok ho' hok', mem_trace_of_ok ho hok, Bool.not_eq_true']
  constructor
  · rintro ⟨r, isDir, hr, hs, rfl⟩
    obtain ⟨hs, hkept⟩ := (shown_more hmore).mp hs
    obtain ⟨k, hreach⟩ := hs.reached
    exact ⟨⟨r, isDir, hr, hs, rfl⟩, (Exclusion.hides_join hr (hreach.names ho.tidy)).mpr hkept⟩
  · rintro ⟨⟨r, isDir, hr, hs, rfl⟩, hhides⟩
    obtain ⟨k, hreach⟩ := hs.reached
    have hkept := (Exclusion.hides_join hr (hreach.names ho.tidy)).mp hhides
    exact ⟨r, isDir, hr, (shown_more hmore).mpr ⟨hs, hkept⟩, rfl⟩

end Thins

/-! ## 4. Patterns that exclude the same

If the two lists exclude the same paths then the walks take the same decisions, step by step.  For copies this
has to be shown about the walk itself and not about its trace, since the copy may change what the walk sees. -/

section Same

variable {v : Visitor σ} (hsame : Exclusion.excludes w.exclude = Exclusion.excludes Q)

include hsame

theorem item_congr (enter : Bytes → σ → σ × Option Failure) (name : Bytes) (kind : Kind) (s : σ) :
    item { w with exclude := Q } v enter name kind s = item w v enter name kind s := by
  unfold item
  dsimp only
  rw [hsame]

theorem items_congr (enter : Bytes → σ → σ × Option Failure) (dir : Bytes) : ∀ (ls : List Listed) (s : σ),
    items { w with exclude := Q } v enter dir ls s = items w v enter dir ls s
  | [], _ => rfl
  | l :: ls, s => by
    rw [items, items, item_congr hsame]
    exact congrArg _ (funext fun s => items_congr enter dir ls s)

theorem directory_congr : ∀ (depth : Nat) (dir : Bytes) (s : σ),
    directory { w with exclude := Q } v depth dir s = directory w v depth dir s
  | 0, _, _ => rfl
  | depth + 1, dir, s => by
    have henter : directory { w with exclude := Q } v depth = directory w v depth :=
      funext fun dir => funext fun s => directory_congr depth dir s
    unfold directory
    dsimp only
    cases w.tree.list (v.disk s) dir with
    | error cause => rfl
    | ok ls =>
      dsimp only
      rw [henter, items_congr hsame]

/-- **Patterns that exclude the same lead to the same run**, whatever its visits do. -/
theorem run_congr (s : σ) : run { w with exclude := Q } v s = run w v s := by
  unfold run
  dsimp only
  cases w.tree.stat (v.disk s) w.root with
  | error cause => rfl
  | ok info =>
    dsimp only
    rw [directory_congr hsame]

end Same

end Walk

section Same

variable {w : Walk.Scope} {Q : List Bytes} (hw : Walk.checkPatterns w.exclude = .ok ())
  (hQ : Walk.checkPatterns Q = .ok ()) (hsame : Exclusion.excludes w.exclude = Exclusion.excludes Q)

include hw hQ hsame

theorem Count.files_same (d : Disk) : Count.files { w with exclude := Q } d = Count.files w d := by
  unfold Count.files
  rw [hw, hQ]
  exact Walk.run_congr hsame 0

theorem Count.bySubdir_same (d : Disk) :
    Count.bySubdir { w with exclude := Q } d = Count.bySubdir w d := by
  unfold Count.bySubdir
  rw [hw, hQ, Walk.run_congr hsame]

/-- A comparison walks twice, with the same patterns. -/
theorem Compare.run_same (dest : Bytes) (patch : Bool) (d : Disk) :
    Compare.run { w with exclude := Q } dest patch d = Compare.run w dest patch d := by
  have hextra : ∀ s, Compare.lookForExtra Q dest d s = Compare.lookForExtra w.exclude dest d s := by
    intro s
    have hrun := Walk.run_congr (w := ⟨.onDisk dest, ".", w.exclude⟩)
      (v := Walk.observer d Compare.seeInstalled) hsame s
    unfold Compare.lookForExtra
    rw [← hrun]
  unfold Compare.run
  dsimp only
  rw [hw, hQ]
  dsimp only
  rw [Walk.run_congr hsame]
  simp only [hextra]

theorem Copy.run_same (dest : Bytes) (dryRun : Bool) (d : Disk) :
    Copy.run { w with exclude := Q } dest dryRun d = Copy.run w dest dryRun d := by
  unfold Copy.run
  dsimp only
  rw [hw, hQ]
  dsimp only
  split
  · rfl
  · exact Walk.run_congr hsame _

end Same

namespace Walk

/-- **Patterns only take away, and neither their order nor their repetition matters.**  For lists of patterns
that can be read, all of the first among the second: if the walk with the first comes to its end so does the
walk with the second, its visits are some of those of the first, in their order, and its count succeeds and is
not larger.  In a tree of proper names the visits that are left are those to what the second list does not
hide.  If all patterns of the second list are among the first too, every count, comparison and copy is the
same, with its failures and with what it leaves on the disk. -/
theorem exclusion_monotone (t : Tree) (root : Bytes) (d : Disk) {P Q : List Bytes}
    (hP : checkPatterns P = .ok ()) (hQ : checkPatterns Q = .ok ()) (h : P ⊆ Q) :
    ((visits ⟨t, root, P⟩ d).2 = none →
      (visits ⟨t, root, Q⟩ d).2 = none ∧
      (visits ⟨t, root, Q⟩ d).1.Sublist (visits ⟨t, root, P⟩ d).1 ∧
      (d.Sound → t.Proper → (visits ⟨t, root, Q⟩ d).1 =
        (visits ⟨t, root, P⟩ d).1.filter fun x => !Exclusion.hides Q x.rel) ∧
      ∃ m n, Count.files ⟨t, root, P⟩ d = (m, none) ∧ Count.files ⟨t, root, Q⟩ d = (n, none) ∧ n ≤ m) ∧
    (Q ⊆ P →
      Count.files ⟨t, root, Q⟩ d = Count.files ⟨t, root, P⟩ d ∧
      Count.bySubdir ⟨t, root, Q⟩ d = Count.bySubdir ⟨t, root, P⟩ d ∧
      (∀ dest patch, Compare.run ⟨t, root, Q⟩ dest patch d = Compare.run ⟨t, root, P⟩ dest patch d) ∧
      ∀ dest dryRun, Copy.run ⟨t, root, Q⟩ dest dryRun d = Copy.run ⟨t, root, P⟩ dest dryRun d) := by
  have hmore : ∀ rel, Exclusion.excludes P rel = true → Exclusion.excludes Q rel = true :=
    fun _ => Exclusion.excludes_mono h
  constructor
  · intro hok
    rw [visits_eq_trace] at hok ⊢
    rw [visits_eq_trace]
    have hthins : Thins (trace ⟨t, root, P⟩ d) (trace ⟨t, root, Q⟩ d) :=
      trace_thins (w := ⟨t, root, P⟩) hmore
    obtain ⟨hnone, hsub⟩ := hthins hok
    refine ⟨hnone, hsub, fun hd ht => trace_filter (w := ⟨t, root, P⟩) hmore hd ht hok, _, _,
      (Count.files_eq hP).trans (Prod.ext rfl hok), (Count.files_eq hQ).trans (Prod.ext rfl hnone), ?_⟩
    exact ((hsub.filter _).map Visit.sight).length_le
  · intro h'
    have hsame := Exclusion.excludes_congr h h'
    exact ⟨Count.files_same (w := ⟨t, root, P⟩) hP hQ hsame d,
      Count.bySubdir_same (w := ⟨t, root, P⟩) hP hQ hsame d,
      fun dest patch => Compare.run_same (w := ⟨t, root, P⟩) hP hQ hsame dest patch d,
      fun dest dryRun => Copy.run_same (w := ⟨t, root, P⟩) hP hQ hsame dest dryRun d⟩

/-- A tree whose directory `c` cannot be listed. -/
def unlistableC : Tree :=
  .inMemory
    { entries :=
        [("a/b/apple", .file 0o644 "1"), ("a/pear", .file 0o644 "2"), ("c/plum", .file 0o644 "3"),
          ("fig", .file 0o644 "4")]
      faults := [⟨"c", .listing, .errno .denied⟩] }

/-- With `c` excluded the walk comes to its end, and two more patterns leave one file and no directory. -/
theorem exclusion_monotone_unlistableC :
    checkPatterns ["c"] = .ok () ∧ checkPatterns ["a", "**/p*", "c"] = .ok () ∧
      ([("c" : Bytes)] ⊆ ["a", "**/p*", "c"]) ∧
      (visits ⟨unlistableC, ".", []⟩ {}).2.isSome = true ∧
      ((visits ⟨unlistableC, ".", ["c"]⟩ {}).1.map (·.rel) =
        ["a", "a/b", "a/b/apple", "a/pear", "fig"]) ∧
      ((visits ⟨unlistableC, ".", ["a", "**/p*", "c"]⟩ {}).1.map (·.rel) = ["fig"]) ∧
      (visits ⟨unlistableC, ".", ["a", "**/p*", "c"]⟩ {}).2 = none ∧
      Count.files ⟨unlistableC, ".", ["c", "a", "c", "**/p*"]⟩ {} =
        Count.files ⟨unlistableC, ".", ["a", "**/p*", "c"]⟩ {} := by
  have hok : (visits ⟨unlistableC, ".", ["c"]⟩ {}).2 = none :=
    Option.isNone_iff_eq_none.mp (by decide +kernel)
  have hmono := exclusion_monotone unlistableC "." {} (P := ["c"]) (Q := ["a", "**/p*", "c"]) rfl rfl
    (by decide)
  have hsame := exclusion_monotone unlistableC "." {} (P := ["a", "**/p*", "c"])
    (Q := ["c", "a", "c", "**/p*"]) rfl rfl (by decide)
  exact ⟨rfl, rfl, by decide, by decide +kernel, by decide +kernel, by decide +kernel, (hmono.1 hok).1,
    (hsame.2 (by decide)).1⟩

end Walk

end AgentKit
