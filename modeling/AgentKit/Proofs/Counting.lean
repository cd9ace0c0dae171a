import AgentKit.Proofs.Installing
/-!
# Counting files

There are three ways to a number of files without copying them: counting them, counting them by top-level
directory, and a dry run of a copy.  They walk over a disk that stays as it is, and so they agree on every tree,
also on where they fail.

1. What a walk shows, as a list that does not depend on where the tree is.
2. Counts over a disk that stays: **what is counted by directory adds up** (`Count.total_bySubdir`).
3. **A dry run counts** (`Copy.run_dryRun_count`).

Counts by directory are machine integers in the program, and so is their total; it is compared with the number of files
as a machine integer.  The order in which the directories are listed does not matter for it.

The first section is for comparing walks over different trees, such as a source and what has been copied from it.  Two
such walks have no visits in common, because a visit has the name of the item in its tree.  What they can have in common
is the list of relative paths, and this is determined by which paths are in it, since it is in order.
-/

namespace AgentKit

open Disk

/-! ## 1. What a walk shows

A sight is what is left of a visit when the place of the tree is forgotten. -/

/-- What a visit shows, wherever the tree is. -/
def Visit.sight (x : Visit) : Bytes × Bool := (x.rel, x.isDir)

namespace Walk

variable {w w₁ w₂ : Scope} {d d₁ d₂ : Disk} {q : List Bytes} {isDir : Bool}

/-- Without failures a walk visits all that can be shown. -/
theorem mem_trace_of_ok (ho : Orderly w d) (hok : (trace w d).2 = none) {x : Visit} :
    x ∈ (trace w d).1 ↔ ∃ r isDir, r ≠ [] ∧ Shown w d r isDir ∧ x = w.visitAt r isDir := by
  have hfree := ((trace_ok_iff ho).mp hok).2
  rw [mem_trace_iff ho]
  constructor
  · rintro ⟨r, isDir, hr, hs, hx, -⟩
    exact ⟨r, isDir, hr, hs, hx⟩
  · rintro ⟨r, isDir, hr, hs, hx⟩
    exact ⟨r, isDir, hr, hs, hx, fun b hb => absurd hb (hfree b)⟩

/-- For a walk without failures, to be shown is to be visited. -/
theorem shown_iff_visited (ho : Orderly w d) (hok : (trace w d).2 = none) (hq : q ≠ []) :
    Shown w d q isDir ↔ ∃ x ∈ (trace w d).1, x.path = q ∧ x.isDir = isDir := by
  constructor
  · intro hs
    obtain ⟨k, hreach⟩ := hs.reached
    exact ⟨w.visitAt q isDir, (mem_trace_of_ok ho hok).mpr ⟨q, isDir, hq, hs, rfl⟩,
      visitAt_path (hreach.names ho.tidy) isDir, rfl⟩
  · rintro ⟨x, hx, hpath, rfl⟩
    obtain ⟨r, isDir, -, hs, rfl⟩ := (mem_trace_of_ok ho hok).mp hx
    obtain ⟨k, hreach⟩ := hs.reached
    rw [visitAt_path (hreach.names ho.tidy)] at hpath
    exact hpath ▸ hs

/-- Sights stand in the order of the paths that they spell. -/
def Ascending (l : List (Bytes × Bool)) : Prop :=
  l.Pairwise fun a b => Path.names a.1 < Path.names b.1

theorem Ascending.nodup {l : List (Bytes × Bool)} (h : Ascending l) : l.Nodup := by
  refine h.imp fun {a b} hab heq => ?_
  subst heq
  exact List.lt_irrefl _ hab

theorem Ascending.eq_of_mem {l l' : List (Bytes × Bool)} (h : Ascending l) (h' : Ascending l')
    (hmem : ∀ a, a ∈ l ↔ a ∈ l') : l = l' := by
  have hperm := (List.perm_ext_iff_of_nodup h.nodup h'.nodup).mpr hmem
  refine hperm.eq_of_pairwise (fun a b _ _ hab hba => ?_) h h'
  exact absurd (List.lt_trans hab hba) (List.lt_irrefl _)

/-- What a walk shows of the kinds to keep. -/
def sights (w : Scope) (d : Disk) (keep : Bool → Bool) : List (Bytes × Bool) :=
  ((trace w d).1.filter fun x => keep x.isDir).map Visit.sight

theorem sights_ascending (ho : Orderly w d) (keep : Bool → Bool) : Ascending (sights w d keep) :=
  List.pairwise_map.mpr ((trace_shaped ho.tidy).sorted.filter _)

theorem mem_sights (ho : Orderly w d) (hok : (trace w d).2 = none) {keep : Bool → Bool} {rel : Bytes} :
    (rel, isDir) ∈ sights w d keep ↔
      keep isDir = true ∧ ∃ r, r ≠ [] ∧ Shown w d r isDir ∧ rel = Path.join r := by
  unfold sights
  rw [List.mem_map]
  constructor
  · rintro ⟨x, hx, heq⟩
    obtain ⟨hx, hkeep⟩ := List.mem_filter.mp hx
    obtain ⟨r, isDir', hr, hs, rfl⟩ := (mem_trace_of_ok ho hok).mp hx
    cases heq
    exact ⟨hkeep, r, hr, hs, rfl⟩
  · rintro ⟨hkeep, r, hr, hs, rfl⟩
    exact ⟨w.visitAt r isDir,
      List.mem_filter.mpr ⟨(mem_trace_of_ok ho hok).mpr ⟨r, isDir, hr, hs, rfl⟩, hkeep⟩, rfl⟩

/-- **Walks that show the same paths show the same list.** -/
theorem sights_eq (ho₁ : Orderly w₁ d₁) (ho₂ : Orderly w₂ d₂) (hok₁ : (trace w₁ d₁).2 = none)
    (hok₂ : (trace w₂ d₂).2 = none) {keep : Bool → Bool}
    (h : ∀ r isDir, r ≠ [] → keep isDir = true → (Shown w₁ d₁ r isDir ↔ Shown w₂ d₂ r isDir)) :
    sights w₁ d₁ keep = sights w₂ d₂ keep := by
  refine (sights_ascending ho₁ keep).eq_of_mem (sights_ascending ho₂ keep) ?_
  rintro ⟨rel, isDir⟩
  rw [mem_sights ho₁ hok₁, mem_sights ho₂ hok₂]
  refine and_congr_right fun hkeep => exists_congr fun r => and_congr_right fun hr => ?_
  rw [h r isDir hr hkeep]

/-- A faulty tree that is walked without a failure is walked like the tree itself. -/
theorem trace_of_faulty {faults : List Fault} {t : Tree} {root : Bytes} {exclude : List Bytes}
    (hok : (trace ⟨.faulty faults t, root, exclude⟩ d).2 = none) :
    trace ⟨.faulty faults t, root, exclude⟩ d = trace ⟨t, root, exclude⟩ d := by
  have hfail := Tree.faulty_failsMore faults t
  -- The tree with faults fails more than the one without, so its walk plays a beginning of the other's trace.
  have hsees : SeesAlike True ⟨t, root, exclude⟩ (.faulty faults t) d d :=
    @Tree.FailsMore.seesAlike ⟨t, root, exclude⟩ _ _ _ hfail
      ⟨rfl, fun _ => Or.inl rfl, fun _ _ _ _ => Or.inl rfl⟩
  have hsteady : Steady True ⟨t, root, exclude⟩ (.faulty faults t) d
      (observer d fun x seen => seen ++ [x]) fun _ _ => True := ⟨fun _ => hsees, fun _ _ => trivial⟩
  obtain ⟨tr, hstops, hrun⟩ := run_plays (s := []) (fun _ _ _ => hsteady) trivial
    ((hfail.stat d root).imp_right fun hf => ⟨trivial, hf⟩)
  have htr : trace ⟨.faulty faults t, root, exclude⟩ d = tr := by
    rw [← visits_eq_trace, ← play_collect d tr]
    exact hrun
  rcases hstops with heq | ⟨-, -, hfailed⟩
  · exact htr.trans heq
  · exact absurd (htr ▸ hok) hfailed

end Walk

/-! ## 2. Counts over a disk that stays

Counting by directory keeps a list of names with numbers.  What it adds to the total at each visit is what
counting adds to the number of files, and that is the invariant. -/

namespace Count

variable {w : Walk.Scope} {d : Disk} {f : Failure}

/-- Counting is the length of the list of files, and fails where the walk does. -/
theorem files_eq (hp : Walk.checkPatterns w.exclude = .ok ()) :
    files w d = ((Walk.sights w d (!·)).length, (Walk.trace w d).2) := by
  unfold files
  rw [hp]
  dsimp only
  rw [Walk.run_observer, Compare.foldl_count, Nat.zero_add, Walk.sights, List.length_map]
  rfl

theorem total_cons (c : SubdirCount) (counts : List SubdirCount) :
    total (c :: counts) = c.files + total counts := by
  simp [total]

/-- To add to one of the numbers is to add to the total, whether the name is new or not. -/
theorem total_add (name : Bytes) (n : Int64) : ∀ counts : List SubdirCount,
    total (add name n counts) = total counts + n
  | [] => by simp [add, total]
  | c :: counts => by
    unfold add
    split
    · rw [total_cons, total_cons, Int64.add_assoc, Int64.add_assoc, Int64.add_comm n]
    · rw [total_cons, total_cons, total_add name n counts, Int64.add_assoc]

/-- A directory at the top gets a line with no files; a file counts for its top directory. -/
theorem total_seeBySubdir (x : Visit) (counts : List SubdirCount) :
    total (seeBySubdir x counts) = total counts + Int64.ofNat (see x 0) := by
  unfold seeBySubdir see
  cases Bytes.cut (byte '/') x.rel with
  | none =>
    cases x.isDir with
    | true => exact total_add x.rel 0 counts
    | false => exact total_add besides 1 counts
  | some parts =>
    cases x.isDir with
    | true => exact (Int64.add_zero _).symm
    | false => exact total_add parts.1 1 counts

theorem see_eq (x : Visit) (n : Nat) : see x n = see x 0 + n := by
  unfold see
  cases x.isDir with
  | true => simp
  | false =>
    simp only [Bool.false_eq_true, if_false]
    omega

/-- Each visit adds to the total what it adds to the number of files. -/
theorem total_foldl : ∀ (xs : List Visit) (counts : List SubdirCount) (n : Nat),
    total counts = Int64.ofNat n →
    total (xs.foldl (fun counts x => seeBySubdir x counts) counts) =
      Int64.ofNat (xs.foldl (fun n x => see x n) n)
  | [], _, _, h => h
  | x :: xs, counts, n, h => by
    refine total_foldl xs (seeBySubdir x counts) (see x n) ?_
    rw [total_seeBySubdir, h, see_eq x n, Int64.ofNat_add, Int64.add_comm]

theorem total_perm {counts counts' : List SubdirCount} (h : counts.Perm counts') :
    total counts = total counts' := by
  induction h with
  | nil => rfl
  | cons c _ ih => rw [total_cons, total_cons, ih]
  | swap c c' l =>
    rw [total_cons, total_cons, total_cons, total_cons, ← Int64.add_assoc, ← Int64.add_assoc,
      Int64.add_comm c'.files]
  | trans _ _ ih ih' => exact ih.trans ih'

theorem bySubdir_eq (hp : Walk.checkPatterns w.exclude = .ok ()) : bySubdir w d =
    match (Walk.trace w d).2 with
    | some f => .error f
    | none => .ok (sorted ((Walk.trace w d).1.foldl (fun counts x => seeBySubdir x counts) [])) := by
  unfold bySubdir
  rw [hp, Walk.run_observer]
  cases (Walk.trace w d).2 <;> rfl

/-- Counting by directory fails where counting does, malformed patterns included. -/
theorem bySubdir_error : bySubdir w d = .error f ↔ (files w d).2 = some f := by
  cases hp : Walk.checkPatterns w.exclude with
  | error g =>
    unfold bySubdir files
    rw [hp]
    simp [bind, Except.bind]
  | ok _ =>
    rw [bySubdir_eq hp, files_eq hp]
    cases (Walk.trace w d).2 <;> simp

/-- **What is counted by directory adds up.** -/
theorem total_bySubdir {counts : List SubdirCount} (h : bySubdir w d = .ok counts) :
    total counts = Int64.ofNat (files w d).1 := by
  cases hp : Walk.checkPatterns w.exclude with
  | error g =>
    unfold bySubdir at h
    rw [hp] at h
    cases h
  | ok _ =>
    rw [bySubdir_eq hp] at h
    cases hf : (Walk.trace w d).2 with
    | some f =>
      rw [hf] at h
      cases h
    | none =>
      rw [hf] at h
      cases h
      rw [sorted, total_perm (sortBy_perm _ _), total_foldl _ [] 0 rfl]
      unfold files
      rw [hp, Walk.run_observer]

/-- What is counted by top-level directory is what a walk shows. -/
theorem bySubdir_congr {w' : Walk.Scope} {d' : Disk} (hp : Walk.checkPatterns w.exclude = .ok ())
    (hp' : Walk.checkPatterns w'.exclude = .ok ()) (hok : (Walk.trace w d).2 = none)
    (hok' : (Walk.trace w' d').2 = none)
    (h : Walk.sights w d (fun _ => true) = Walk.sights w' d' fun _ => true) :
    bySubdir w d = bySubdir w' d' := by
  rw [bySubdir_eq hp, bySubdir_eq hp', hok, hok']
  have hfold : ∀ (xs : List Visit) (counts : List SubdirCount),
      xs.foldl (fun counts x => seeBySubdir x counts) counts =
        (xs.map Visit.sight).foldl (fun counts a => seeBySubdir ⟨[], a.1, a.2⟩ counts) counts := by
    intro xs counts
    rw [List.foldl_map]
    rfl
  unfold Walk.sights at h
  rw [List.filter_true, List.filter_true] at h
  dsimp only
  rw [hfold, hfold, h]

end Count

/-! ## 3. Dry runs

A dry run visits everything and writes nothing, so the disk stays and the walk plays its trace. -/

namespace Copy

variable {w : Walk.Scope} {dest : Bytes} {d : Disk}

/-- No visit of a dry run fails, and files are counted. -/
theorem replay_dryRun (t : Tree) (dest : Bytes) : ∀ (xs : List Visit) (s : State),
    ∃ s', Walk.replay { disk := State.disk, visit := visit t dest true } xs s = (s', none) ∧
      s'.count = xs.foldl (fun n x => Count.see x n) s.count
  | [], s => ⟨s, rfl, rfl⟩
  | x :: xs, s => by
    unfold Walk.replay
    rw [List.foldl_cons]
    cases hdir : x.isDir with
    | true =>
      have hv : visit t dest true x s = (s, none) := by simp [visit, hdir]
      have hsee : Count.see x s.count = s.count := by simp [Count.see, hdir]
      dsimp only
      rw [hv, hsee]
      exact replay_dryRun t dest xs s
    | false =>
      have hsee : Count.see x s.count = s.count + 1 := by simp [Count.see, hdir]
      dsimp only
      rw [hsee, visit, hdir]
      exact replay_dryRun t dest xs _

/-- **A dry run counts.** -/
theorem run_dryRun_count (w : Walk.Scope) (dest : Bytes) (d : Disk) :
    ((run w dest true d).1.count, (run w dest true d).2) = Count.files w d := by
  unfold run Count.files
  cases Walk.checkPatterns w.exclude with
  | error f => rfl
  | ok _ =>
    have hsteady : Walk.Steady False w w.tree d
        { disk := State.disk, visit := visit w.tree dest true } (fun _ s => s.disk = d) :=
      { sees := by
          rintro rest s rfl
          exact ⟨rfl, fun _ => Or.inl rfl, fun _ _ _ _ => Or.inl rfl⟩
        visit := fun {x _ s s'} hs hv => by
          have hdisk := visit_dryRun w.tree dest x s
          rw [show visit w.tree dest true x s = (s', none) from hv] at hdisk
          exact hdisk.trans hs }
    have hrun := Walk.run_eq_play (s := (⟨d, 0, []⟩ : State)) (fun _ _ _ => hsteady) rfl rfl
    obtain ⟨s', hreplay, hcount⟩ := replay_dryRun w.tree dest (Walk.trace w d).1 ⟨d, 0, []⟩
    rw [if_pos rfl]
    dsimp only
    rw [hrun, Walk.play, hreplay, Walk.run_observer, ← hcount]
    rfl

end Copy

end AgentKit
