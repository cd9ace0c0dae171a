import AgentKit.Proofs.Excluding
import AgentKit.Proofs.Outcomes
import AgentKit.Proofs.Repair
/-!
# The status after a fresh install

A status walks the kit in the project, a count walks the source.  After an install into a project that had no
kit both come to the same: whatever the install visited is there, as a directory or as a file, and nothing
else is (`Mirrors`).  Links are gone, since they were copied as files or passed over.

What the install excluded is not in the kit, and what the status excludes it does not see, so the status shows
what a walk over the source shows that excludes both.  A path is in reach of a walk that excludes by two lists
exactly if it is in reach of one that excludes by the first and is kept by the second, at every depth.

1. Excluding by two lists.
2. What a copy into a free place leaves there.
3. The walk over such a copy fails nowhere and shows what was visited.
4. **A status after a fresh install counts the source** (`look_after_install`).

There are two limits to this (`look_without_count`).  A count *before* the install may fail where the install and the
count after it do not: if a link of the source leads over the kit, then it leads somewhere only once the kit is
there.  And the kit is read as a tree, with `/.` behind its path, so that a kit can be made whose path is too long by
two bytes to be read.  A copy of a file needs as many bytes, so in such a kit there is nothing.
-/

namespace AgentKit

open Disk

/-! ## 1. Excluding by two lists

To be kept by a list that is put together is to be kept by both parts.  With this, what is known of a walk with more
patterns can be said of the part that was added. -/

namespace Walk

variable {t : Tree} {root : Bytes} {P Q : List Bytes} {d : Disk} {q : List Bytes} {isDir : Bool}

theorem kept_append : Kept (P ++ Q) q ↔ Kept P q ∧ Kept Q q := by
  have hboth : ∀ rel, Exclusion.excludes (P ++ Q) rel = false ↔
      Exclusion.excludes P rel = false ∧ Exclusion.excludes Q rel = false := by
    intro rel
    unfold Exclusion.excludes
    rw [List.any_append, Bool.or_eq_false_iff]
  constructor
  · intro h
    exact ⟨fun r hne hr => ((hboth _).mp (h r hne hr)).1, fun r hne hr => ((hboth _).mp (h r hne hr)).2⟩
  · rintro ⟨hP, hQ⟩ r hne hr
    exact (hboth _).mpr ⟨hP r hne hr, hQ r hne hr⟩

theorem excludes_of_left (rel : Bytes) (h : Exclusion.excludes P rel = true) :
    Exclusion.excludes (P ++ Q) rel = true :=
  Exclusion.excludes_mono (List.subset_append_left P Q) h

/-- **What is shown with two lists** is what is shown with one and kept by the other. -/
theorem shown_append :
    Shown ⟨t, root, P ++ Q⟩ d q isDir ↔ Shown ⟨t, root, P⟩ d q isDir ∧ Kept Q q := by
  rw [shown_more (w := ⟨t, root, P⟩) excludes_of_left, kept_append]
  constructor
  · rintro ⟨hs, -, hQ⟩
    exact ⟨hs, hQ⟩
  · rintro ⟨hs, hQ⟩
    obtain ⟨k, hreached⟩ := hs.reached
    exact ⟨hs, hreached.kept, hQ⟩

/-- Patterns are accepted exactly if each is well formed. -/
theorem checkPatterns_ok {patterns : List Bytes} :
    checkPatterns patterns = .ok () ↔ ∀ p ∈ patterns, Glob.wellFormed p = true := by
  unfold checkPatterns Exclusion.firstMalformed?
  cases h : patterns.find? fun p => !Glob.wellFormed p with
  | none => simpa using h
  | some p =>
    have hbad := List.find?_some h
    have hmem := List.mem_of_find?_eq_some h
    simp only [reduceCtorEq, false_iff, not_forall]
    exact ⟨p, hmem, by simpa using hbad⟩

theorem checkPatterns_append (hP : checkPatterns P = .ok ()) (hQ : checkPatterns Q = .ok ()) :
    checkPatterns (P ++ Q) = .ok () := by
  rw [checkPatterns_ok] at hP hQ ⊢
  intro p hp
  rcases List.mem_append.mp hp with hp | hp
  · exact hP p hp
  · exact hQ p hp

/-- A walk that comes to its end does so with more patterns. -/
theorem trace_append_ok (hok : (trace ⟨t, root, P⟩ d).2 = none) : (trace ⟨t, root, P ++ Q⟩ d).2 = none :=
  (trace_thins (w := ⟨t, root, P⟩) excludes_of_left hok).1

end Walk

/-! ## 2. A copy into a free place

Where nothing was before, there is nothing after the copy but what it has left. -/

namespace Copy

variable {w : Walk.Scope} {dest : Bytes} {P : Place} {d d₀ b : Disk} {s : State} {x : Visit} {q Q : List Bytes}
  {e : Entry}

/-- What the walk visits on the disk `d` is below `dest`, at `P`, and nothing else is. -/
structure Mirrors (w : Walk.Scope) (dest : Bytes) (P : Place) (d : Disk) : Prop where
  sound : d.Sound
  proper : w.tree.Proper
  walked : (Walk.trace w d).2 = none
  noLink : NoLinkIn P d
  visited : ∀ x ∈ (Walk.trace w d).1, ∃ e, d.find true (Path.below dest x.rel) = .ok (P ++ x.path, e) ∧
    ((x.isDir = true ∧ e = .dir directoryMode) ∨ (x.isDir = false ∧ ∃ m c, e = .file m c))
  only : ∀ q e, q ≠ [] → d.get? (P ++ q) = some e → ∃ x ∈ (Walk.trace w d).1, x.path = q

section

variable (h : Ended w dest (d.goal dest) d d₀ b s) (hmade : Made dest d d₀) (hclean : Path.clean dest = dest)

include h hmade hclean

/-- **A copy into a free place mirrors its source.** -/
theorem Ended.mirrors (hd : d.Sound) (hproper : w.tree.Proper) (hfree : d.get? (d.goal dest) = none) :
    Mirrors w dest (d.goal dest) s.disk := by
  have hbare : ∀ q, d.get? (d.goal dest ++ q) = none := hd.get?_below hfree
  have hvisits := Walk.visits_eq_trace w s.disk
  refine ⟨h.sound hd, hproper, hvisits ▸ h.walked, (noLinkIn_of_none hd hfree).keeps h.keeps,
    fun x hx => ?_, fun q e hq he => ?_⟩
  · rw [← hvisits] at hx
    cases hdir : x.isDir with
    | true =>
      obtain ⟨m, hfind, hold⟩ := h.of_dir hd hproper hx hdir
      rcases hold with hthere | ⟨-, rfl⟩
      · exact absurd ((hbare x.path).symm.trans hthere) (by simp)
      · exact ⟨_, hfind, Or.inl ⟨rfl, rfl⟩⟩
    | false =>
      obtain ⟨c, info, -, -, -, -, hfind⟩ := h.of_file hd hproper hx hdir
      exact ⟨_, hfind, Or.inr ⟨rfl, _, _, rfl⟩⟩
  · by_contra hnot
    rw [← hvisits] at hnot
    have hframe := h.settles (p := d.goal dest ++ q) (hclean.symm ▸ hmade.after) fun x hx heq =>
      hnot ⟨x, hx, (List.append_cancel_left heq).symm⟩
    rw [he, hmade.other _ (by simpa using hq), hbare] at hframe
    cases hframe

end

theorem Mirrors.get?_visited (h : Mirrors w dest P d) (hx : x ∈ (Walk.trace w d).1) :
    (x.isDir = true ∧ d.get? (P ++ x.path) = some (.dir directoryMode)) ∨
      (x.isDir = false ∧ ∃ m c, d.get? (P ++ x.path) = some (.file m c)) := by
  obtain ⟨e, hfind, hcase⟩ := h.visited x hx
  have hget := (find_eq_ok.mp hfind).2.1
  rcases hcase with ⟨hdir, rfl⟩ | ⟨hfile, m, c, rfl⟩
  · exact Or.inl ⟨hdir, hget⟩
  · exact Or.inr ⟨hfile, m, c, hget⟩

theorem Mirrors.shape (h : Mirrors w dest P d) (hx : x ∈ (Walk.trace w d).1) : x.Proper :=
  (Walk.trace_shaped fun _ _ hls => Tree.list_tidy h.sound h.proper hls).proper hx

/-- A directory of the copy has a name that a tree may have, since the walk over the source could list it there. -/
theorem Mirrors.isTreeName (h : Mirrors w dest P d) (hx : x ∈ (Walk.trace w d).1) (hdir : x.isDir = true) :
    Path.isTreeName (Path.join x.path) = true := by
  have horderly := Walk.orderly (w := w) h.sound h.proper
  have hshape := h.shape hx
  cases (Walk.shown_iff_visited horderly h.walked hshape.ne_nil).mpr ⟨x, hx, rfl, hdir⟩ with
  | dir hreached =>
    cases hls : w.tree.list d (Path.nameAt w.root x.path) with
    | error f => exact absurd (.dir hreached hls) (((Walk.trace_ok_iff horderly).mp h.walked).2 _)
    | ok ls =>
      exact Path.isTreeName_join hshape.ne_nil hshape.names (Tree.isTreeName_of_list h.proper hls)

/-- **What a copy leaves in a free place is what a walk over the source shows.** -/
theorem Mirrors.shown_iff (h : Mirrors w dest P d) (hq : q ≠ []) {isDir : Bool} :
    Walk.Shown w d q isDir ↔
      if isDir then d.get? (P ++ q) = some (.dir directoryMode)
      else ∃ m c, d.get? (P ++ q) = some (.file m c) := by
  rw [Walk.shown_iff_visited (Walk.orderly h.sound h.proper) h.walked hq]
  constructor
  · rintro ⟨x, hx, rfl, rfl⟩
    rcases h.get?_visited hx with ⟨hdir, hget⟩ | ⟨hfile, hget⟩
    · rw [hdir, if_pos rfl]
      exact hget
    · rw [hfile, if_neg (by simp)]
      exact hget
  · intro hget
    have hsome : ∃ e, d.get? (P ++ q) = some e := by
      cases isDir with
      | true => exact ⟨_, hget⟩
      | false =>
        obtain ⟨m, c, hget⟩ := hget
        exact ⟨_, hget⟩
    obtain ⟨e, he⟩ := hsome
    obtain ⟨x, hx, rfl⟩ := h.only q e hq he
    refine ⟨x, hx, rfl, ?_⟩
    rcases h.get?_visited hx with ⟨hdir, hx⟩ | ⟨hfile, m, c, hx⟩
    · cases isDir with
      | true => exact hdir
      | false =>
        obtain ⟨m, c, hget⟩ := hget
        rw [hx] at hget
        cases hget
    · cases isDir with
      | true =>
        rw [if_pos rfl, hx] at hget
        cases hget
      | false => exact hfile

end Copy

/-! ## 3. The walk over the copy

Directories were made with a mode under which they can be listed, and there are no links.  So nothing can block
the walk, and what is reached is what is on the disk. -/

namespace Disk

variable {d : Disk} {dest : Bytes} {P : Place} {m : Nat}

/-- The root of the tree in a directory can be looked at if the path is not too long with a dot behind it. -/
theorem stat_dot (h : Path.Settled dest) (hfind : d.find true dest = .ok (P, .dir m))
    (hsearch : searchable m = true) (hlen : dest.length + 2 < pathLimit) :
    (Tree.onDisk dest).stat d "." = .ok ⟨true, m⟩ := by
  have hpath := h.pathOf_dot
  obtain ⟨hl, hP, -⟩ := find_eq_ok.mp hfind
  obtain ⟨hu, hfol⟩ := locate_eq_ok.mp hl
  rw [Bool.true_or] at hfol
  have husable : Usable (dest ++ "/" ++ ".") := by
    refine ⟨fun hz => ?_, by simp [h.ne_nil], ?_⟩
    · rcases List.mem_append.mp hz with hz | hz
      · rcases List.mem_append.mp hz with hz | hz
        · exact hu.no_nul hz
        · exact absurd hz (by decide)
      · exact absurd hz (by decide)
    · rwa [Path.Settled.length_dot]
  have hnames : Path.names (dest ++ "/" ++ ".") = Path.names dest ++ [Bytes.ofString "."] := by
    have hsplit := Path.names_append_slash dest "."
    rw [slash_eq, List.append_assoc, List.singleton_append, hsplit]
    rfl
  have hstart : d.start (dest ++ "/" ++ ".") = d.start dest := by
    have habs := (Tree.pathOf_ok hpath).2.2.2.1
    rw [Disk.start, Disk.start, habs]
  obtain ⟨k, -, heq⟩ := hfol.append_eq hP
  have hlocate : d.locate true (dest ++ "/" ++ ".") = .ok P := by
    rw [locate_of_usable husable, Bool.true_or, hnames, hstart, heq d true _ (Keeps.refl d) (by simp),
      followWithin_dot ⟨m, hP, hsearch⟩, followWithin_nil]
  have hdot : d.find true (dest ++ "/" ++ ".") = .ok (P, .dir m) :=
    find_eq_ok.mpr ⟨hlocate, hP, fun _ => rfl⟩
  exact Tree.onPathOf_eq_ok.mpr ⟨_, hpath, statusOf_eq_ok.mpr ⟨P, _, hdot, rfl⟩⟩

theorem stat_dot_long (h : Path.Settled dest) (hlen : pathLimit ≤ dest.length + 2) (info : Info) :
    (Tree.onDisk dest).stat d "." ≠ .ok info := by
  intro hstat
  obtain ⟨path, hpath, hstatus⟩ := Tree.onPathOf_eq_ok.mp hstat
  obtain ⟨p, e, hf, -⟩ := statusOf_eq_ok.mp hstatus
  cases h.pathOf_dot.symm.trans hpath
  have hshort := (usable_of_locate (find_eq_ok.mp hf).1).short
  rw [Path.Settled.length_dot] at hshort
  omega

end Disk

namespace Copy

variable {w : Walk.Scope} {dest : Bytes} {P : Place} {d : Disk} {s : State} {q Q : List Bytes}
  {isDir : Bool}

section

variable (h : Mirrors w dest P d) (hdest : Path.Settled dest) (hroot : Tree.RootAt d dest "." P)
  (hmode : d.get? P = some (.dir directoryMode))

include h hdest hroot hmode

/-- **Nothing blocks a walk over the copy.** -/
theorem Mirrors.copy_free (r : List Bytes) : ¬ Walk.Blocked ⟨.onDisk dest, ".", Q⟩ d r := by
  intro hb
  cases hb with
  | @dir f hr hls =>
    obtain ⟨e, he, hkind⟩ := hr.get? h.sound hroot
    obtain ⟨m, rfl⟩ := Walk.kind_eq_dir hkind
    have hnames := hr.names fun _ _ => Tree.list_tidy h.sound (t := .onDisk dest) trivial
    -- The directory can be found under its path, and read.
    have hfound : ∃ path, Tree.pathOf dest (Path.nameAt "." r) = .ok path ∧
        d.find true path = .ok (P ++ r, .dir m) ∧ readable m = true := by
      by_cases hne : r = []
      · subst hne
        obtain ⟨path, m', hpath, hfind⟩ := hroot
        rw [List.append_nil] at he ⊢
        cases (find_eq_ok.mp hfind).2.1.symm.trans he
        cases hmode.symm.trans he
        exact ⟨path, hpath, hfind, rfl⟩
      · obtain ⟨x, hx, rfl⟩ := h.only r _ hne he
        obtain ⟨e, hfind, hcase⟩ := h.visited x hx
        rw [(h.shape hx).rel] at hfind
        obtain ⟨hloc, hget, -⟩ := find_eq_ok.mp hfind
        cases he.symm.trans hget
        rcases hcase with ⟨hdir, hmode⟩ | ⟨-, m', c, hfile⟩
        · cases hmode
          rw [Path.nameAt_dot hne hnames]
          exact ⟨_, hdest.pathOf_eq hne hnames (h.isTreeName hx hdir) (usable_of_locate hloc), hfind, rfl⟩
        · cases hfile
    obtain ⟨path, hpath, hfind, hread⟩ := hfound
    have hls' := Tree.list_onDisk.mpr ⟨path, P ++ r, _, hpath, hfind, hread, rfl⟩
    rw [hls] at hls'
    cases hls'
  | @link f hr _ =>
    obtain ⟨e, he, hkind⟩ := hr.get? h.sound hroot
    cases e with
    | link t => exact h.noLink _ t (List.prefix_append P r) he
    | file m c => cases hkind
    | dir m => cases hkind

/-- **A walk over the copy shows what the walk over the source shows**, as far as it is kept. -/
theorem Mirrors.copy_shown (hq : q ≠ []) : Walk.Shown ⟨.onDisk dest, ".", Q⟩ d q isDir ↔
    Walk.Shown w d q isDir ∧ Walk.Kept Q q := by
  rw [h.shown_iff hq]
  constructor
  · intro hs
    obtain ⟨k, hreach⟩ := hs.reached
    refine ⟨?_, hreach.kept⟩
    cases hs with
    | dir hr =>
      obtain ⟨e, he, hkind⟩ := hr.get? h.sound hroot
      obtain ⟨m, rfl⟩ := Walk.kind_eq_dir hkind
      obtain ⟨x, hx, rfl⟩ := h.only q _ hq he
      rcases h.get?_visited hx with ⟨-, hget⟩ | ⟨-, m', c, hget⟩
      · exact hget
      · cases he.symm.trans hget
    | file hr =>
      obtain ⟨e, he, hkind⟩ := hr.get? h.sound hroot
      cases e with
      | file m c => exact ⟨m, c, he⟩
      | dir m => cases hkind
      | link t => cases hkind
    | link hr _ _ =>
      obtain ⟨e, he, hkind⟩ := hr.get? h.sound hroot
      cases e with
      | link t => exact absurd he (h.noLink _ t (List.prefix_append P q))
      | file m c => cases hkind
      | dir m => cases hkind
  · rintro ⟨hget, hkept⟩
    have hfree := h.copy_free hdest hroot hmode (Q := Q)
    cases isDir with
    | true =>
      rw [if_pos rfl] at hget
      exact .dir (Walk.reached_of_get? h.sound hroot hfree hkept hget)
    | false =>
      obtain ⟨m, c, hget⟩ := hget
      exact .file (Walk.reached_of_get? h.sound hroot hfree hkept hget)

/-- Counting the copy is counting the source. -/
theorem Mirrors.copy_counts (hstat : ∃ info, (Tree.onDisk dest).stat d "." = .ok info)
    (hP : Walk.checkPatterns w.exclude = .ok ()) (hQ : Walk.checkPatterns Q = .ok ()) :
    Count.bySubdir ⟨.onDisk dest, ".", Q⟩ d = Count.bySubdir ⟨w.tree, w.root, w.exclude ++ Q⟩ d := by
  have hsource := Walk.orderly (w := ⟨w.tree, w.root, w.exclude ++ Q⟩) h.sound h.proper
  have hcopy := Walk.orderly (w := ⟨.onDisk dest, ".", Q⟩) h.sound trivial
  have hok : (Walk.trace ⟨w.tree, w.root, w.exclude ++ Q⟩ d).2 = none := Walk.trace_append_ok h.walked
  have hok' : (Walk.trace ⟨.onDisk dest, ".", Q⟩ d).2 = none :=
    (Walk.trace_ok_iff hcopy).mpr ⟨hstat, h.copy_free hdest hroot hmode⟩
  -- Neither walk fails, and so it is enough that they show the same.
  refine Count.bySubdir_congr hQ (Walk.checkPatterns_append hP hQ) hok' hok ?_
  refine Walk.sights_eq hcopy hsource hok' hok fun r isDir hr _ => ?_
  rw [h.copy_shown hdest hroot hmode hr]
  exact Walk.shown_append.symm

end

/-- A walk that excludes more shows as many files if it excludes nothing that is in reach. -/
theorem Mirrors.count_append (h : Mirrors w dest P d) (hP : Walk.checkPatterns w.exclude = .ok ())
    (hQ : Walk.checkPatterns Q = .ok ()) (hkept : ∀ q k, Walk.Reached w d q k → Walk.Kept Q q) :
    (Count.files ⟨w.tree, w.root, w.exclude ++ Q⟩ d).1 = (Count.files w d).1 := by
  have ho := Walk.orderly (w := w) h.sound h.proper
  have ho' := Walk.orderly (w := ⟨w.tree, w.root, w.exclude ++ Q⟩) h.sound h.proper
  have hsights : Walk.sights ⟨w.tree, w.root, w.exclude ++ Q⟩ d (!·) = Walk.sights w d (!·) := by
    refine Walk.sights_eq ho' ho (Walk.trace_append_ok h.walked) h.walked fun r isDir _ _ => ?_
    refine Walk.shown_append.trans (and_iff_left_of_imp fun hs => ?_)
    obtain ⟨k, hreach⟩ := hs.reached
    exact hkept r k hreach
  rw [Count.files_eq (Walk.checkPatterns_append hP hQ), hsights, Count.files_eq hP]

/-- If the path is too long with a dot behind it, nothing was visited. -/
theorem Mirrors.empty_of_long (h : Mirrors w dest P d) (hdest : Path.Settled dest)
    (hlen : pathLimit ≤ dest.length + 2) : (Walk.trace w d).1 = [] := by
  refine List.eq_nil_iff_forall_not_mem.mpr fun x hx => ?_
  obtain ⟨e, hfind, -⟩ := h.visited x hx
  have hx' := h.shape hx
  have hshort := (usable_of_locate (find_eq_ok.mp hfind).1).short
  have hslash : (Bytes.ofString "/").length = 1 := rfl
  have hpos : 0 < (Path.join x.path).length := List.length_pos_iff.mpr fun hnil =>
    hx'.ne_nil (Path.join_eq_nil (Path.forall_isName hx'.names) hnil)
  rw [hx'.rel, hdest.below_eq hx'.ne_nil hx'.names, List.length_append, List.length_append,
    hslash] at hshort
  omega

end Copy

/-! ## 4. The status

The status gives the counts of the walk over the kit, or its failure and nothing else. -/

namespace Count

variable {w : Walk.Scope} {d d' : Disk}

theorem bySubdir_of_trace (h : Walk.trace w d' = Walk.trace w d) : bySubdir w d' = bySubdir w d := by
  unfold bySubdir
  rw [Walk.run_observer, Walk.run_observer, h]

theorem files_of_trace (h : Walk.trace w d' = Walk.trace w d) : files w d' = files w d := by
  unfold files
  rw [Walk.run_observer, Walk.run_observer, h]

end Count

namespace Install

variable {i : Install} {source : Source} {project root : Bytes} {d d' : Disk} {r : Result} {t : Tree}
  {Q : List Bytes} {counts : List SubdirCount} {f : Failure}

section

variable (habs : d.absolute project = .ok root) (hkit : d.isDirectory (Project.kitPath root) = true)

include habs hkit

theorem look_ok (hc : Count.bySubdir ⟨.onDisk (Project.kitPath root), ".", Q⟩ d = .ok counts) :
    Status.look project Q d =
      { installed := true, path := Project.kitPath root, subdirs := counts, total := Count.total counts } := by
  unfold Status.look
  rw [absoluteOr_eq habs]
  dsimp only
  rw [if_neg (by simp [hkit]), hc]

theorem look_error (hc : Count.bySubdir ⟨.onDisk (Project.kitPath root), ".", Q⟩ d = .error f) :
    (Status.look project Q d).subdirs = [] ∧ (Status.look project Q d).total = 0 ∧
      (Status.look project Q d).failure = some f := by
  unfold Status.look
  rw [absoluteOr_eq habs]
  dsimp only
  rw [if_neg (by simp [hkit]), hc]
  exact ⟨rfl, rfl, rfl⟩

end

/-- The project has no kit, the place for it and the source are not inside each other, and no link of the
source ends there. -/
structure Vacant (source : Source) (project : Bytes) (d : Disk) : Prop where
  sound : d.Sound
  proper : ∀ t, source.tree = some t → t.Proper
  free : ∀ root, Project.resolve d project = .ok root →
    d.get? (d.goal (Project.kitPath root)) = none
  aloof : ∀ root t, Project.resolve d project = .ok root → source.tree = some t →
    t.Aloof source.root d (d.goal (Project.kitPath root))

theorem Vacant.detached (h : Vacant source project d) : Detached source project d := by
  intro root t hr ht
  have hclean := Project.clean_kitPath (Project.resolve_clean hr).1
  refine ⟨h.sound, h.proper t ht, hclean.symm ▸ noLinkIn_of_none h.sound (h.free root hr), ?_⟩
  exact hclean.symm ▸ h.aloof root t hr ht

theorem Vacant.not_isDirectory (h : Vacant source project d)
    (hr : Project.resolve d project = .ok root) : d.isDirectory (Project.kitPath root) = false := by
  by_contra hdir
  rw [Bool.not_eq_false] at hdir
  obtain ⟨p, m, hfind⟩ := isDirectory_iff.mp hdir
  have hfree := h.free root hr
  rw [goal_of_find hfind, (find_eq_ok.mp hfind).2.1] at hfree
  cases hfree

/-- What a fresh install leaves: the kit is a directory at the place that was free, with what was visited in
it.  A walk over the source that did not fail before comes to the same, and so does any walk if the links of
the source keep off the kit altogether. -/
structure Planted (i : Install) (t : Tree) (root : Bytes) (d : Disk) (s : Copy.State) : Prop where
  patterns : Walk.checkPatterns i.exclude = .ok ()
  mirrors : Copy.Mirrors ⟨t, i.source.root, i.exclude⟩ (Project.kitPath root)
    (d.goal (Project.kitPath root)) s.disk
  count : s.count = (Count.files ⟨t, i.source.root, i.exclude⟩ s.disk).1
  settled : Path.Settled (Project.kitPath root)
  find : s.disk.find true (Project.kitPath root) =
    .ok (d.goal (Project.kitPath root), .dir Copy.directoryMode)
  before : ∀ exclude, t.Apart i.source.root d (d.goal (Project.kitPath root)) ∨
      (Walk.trace ⟨t, i.source.root, exclude⟩ d).2 = none →
    Walk.trace ⟨t, i.source.root, exclude⟩ d = Walk.trace ⟨t, i.source.root, exclude⟩ s.disk

/-- **A fresh install plants the kit.** -/
theorem Vacant.planted {s : Copy.State} (h : Vacant i.source project d) (hc : i.source.check d = .ok t)
    (hr : Project.resolve d project = .ok root)
    (hrun : Copy.run ⟨t, i.source.root, i.exclude⟩ (Project.kitPath root) false d = (s, none)) :
    Planted i t root d s := by
  obtain ⟨htree, info, hstat, -⟩ := check_ok.mp hc
  have hsettled := settled_kitPath (Project.resolve_clean hr).1
  have hdet := h.detached root t hr htree
  obtain ⟨d₀, b, hended, hmade, hadv⟩ := copy_ended (w := ⟨t, i.source.root, i.exclude⟩) hr hdet hrun
  have hfree := h.free root hr
  have hno := noLinkIn_of_none h.sound hfree
  have hputs : Puts d (d.goal (Project.kitPath root)) (.dir Copy.directoryMode) d₀ := by
    rcases makeDirectories_cases hsettled.ne_nil (fun _ => Project.parent_kitPath hr) hended.made with
      ⟨hdir, -⟩ | ⟨-, -, hputs⟩
    · rw [h.not_isDirectory hr] at hdir
      cases hdir
    · exact hputs
  have hp := (Copy.run_ok hrun).1
  have hsound := hended.sound h.sound
  refine ⟨hp, hended.mirrors hmade hsettled.clean h.sound hdet.proper hfree,
    hended.count.trans (Compare.count_files hp).symm, hsettled, ?_, fun exclude hcase => ?_⟩
  · obtain ⟨p, m, hf⟩ := isDirectory_iff.mp hmade.after
    have hplace : p = d.goal (Project.kitPath root) := by
      rw [← goal_of_find hf, hmade.keeps.goal_eq]
    subst hplace
    exact find_keeps hended.onward.advances.toKeeps hf
      (hended.onward.advances.toKeeps.dir _ _ hputs.self)
  · -- The walk is not touched by the install at all, or else it went well and so goes well again.
    rcases hcase with hap | hok
    · exact (Tree.trace_eq h.sound hended.keeps (hended.outside hmade hsettled.clean) hno hap hstat).symm
    · rw [← Walk.visits_eq_trace] at hok ⊢
      rw [← Walk.visits_eq_trace, Walk.visits_advances h.sound hsound (h.aloof root t hr htree) hadv hok]

namespace Planted

variable {s : Copy.State}

/-- The source can be counted with what the status excludes left out. -/
theorem source_counts (h : Planted i t root d s) (hQ : Walk.checkPatterns Q = .ok ()) :
    (Walk.trace ⟨t, i.source.root, i.exclude ++ Q⟩ s.disk).2 = none ∧
      Walk.checkPatterns (i.exclude ++ Q) = .ok () :=
  ⟨Walk.trace_append_ok h.mirrors.walked, Walk.checkPatterns_append h.patterns hQ⟩

/-- Where the kit can be read as a tree, it is counted as the source. -/
theorem counts_eq (h : Planted i t root d s) (hQ : Walk.checkPatterns Q = .ok ())
    (hlen : (Project.kitPath root).length + 2 < pathLimit) :
    Count.bySubdir ⟨.onDisk (Project.kitPath root), ".", Q⟩ s.disk =
      Count.bySubdir ⟨t, i.source.root, i.exclude ++ Q⟩ s.disk := by
  have hstat := stat_dot h.settled h.find rfl hlen
  exact h.mirrors.copy_counts h.settled (Walk.rootAt_dot hstat h.find) (find_eq_ok.mp h.find).2.1
    ⟨_, hstat⟩ h.patterns hQ

/-- Where a kit cannot be counted there is nothing in it. -/
theorem empty_of_long (h : Planted i t root d s) (hQ : Walk.checkPatterns Q = .ok ())
    (hlen : pathLimit ≤ (Project.kitPath root).length + 2) :
    s.count = 0 ∧ Count.bySubdir ⟨t, i.source.root, i.exclude ++ Q⟩ s.disk = .ok [] ∧
      ∃ f, Count.bySubdir ⟨.onDisk (Project.kitPath root), ".", Q⟩ s.disk = .error f := by
  have hempty := h.mirrors.empty_of_long h.settled hlen
  obtain ⟨hok, hp⟩ := h.source_counts hQ
  have hsound := h.mirrors.sound
  have hproper := h.mirrors.proper
  refine ⟨?_, ?_, ?_⟩
  · rw [h.count, Compare.count_files h.patterns, Compare.files, Walk.visits_eq_trace, hempty]
    rfl
  · have hnone : (Walk.trace ⟨t, i.source.root, i.exclude ++ Q⟩ s.disk).1 = [] := by
      refine List.eq_nil_iff_forall_not_mem.mpr fun x hx => ?_
      have ho := Walk.orderly (w := ⟨t, i.source.root, i.exclude ++ Q⟩) hsound hproper
      obtain ⟨q, isDir, hq, hs, -⟩ := (Walk.mem_trace_of_ok ho hok).mp hx
      have hvisit := (Walk.mem_trace_of_ok (Walk.orderly hsound hproper) h.mirrors.walked).mpr
        ⟨q, isDir, hq, (Walk.shown_append.mp hs).1, rfl⟩
      rw [hempty] at hvisit
      cases hvisit
    rw [Count.bySubdir_eq hp, hok, hnone]
    rfl
  · cases hc : Count.bySubdir ⟨.onDisk (Project.kitPath root), ".", Q⟩ s.disk with
    | error f => exact ⟨f, rfl⟩
    | ok counts =>
      rw [Count.bySubdir_eq hQ] at hc
      cases hf : (Walk.trace ⟨.onDisk (Project.kitPath root), ".", Q⟩ s.disk).2 with
      | none =>
        obtain ⟨info, hstat⟩ := Walk.root_of_trace_ok hf
        exact absurd hstat (stat_dot_long h.settled hlen info)
      | some f =>
        rw [hf] at hc
        cases hc

/-- What a status makes of the kit.  It fails just if the kit's path is too long to be read with `/.` behind it,
and then there is nothing in the kit. -/
theorem look_eq (h : Planted i t root d s) (habs : s.disk.absolute project = .ok root)
    (hkit : s.disk.isDirectory (Project.kitPath root) = true) (hQ : Walk.checkPatterns Q = .ok ()) :
    Count.bySubdir ⟨t, i.source.root, i.exclude ++ Q⟩ s.disk = .ok (Status.look project Q s.disk).subdirs ∧
      (Status.look project Q s.disk).total = Count.total (Status.look project Q s.disk).subdirs ∧
      ((Status.look project Q s.disk).failure = none ↔ (Project.kitPath root).length + 2 < pathLimit) ∧
      (pathLimit ≤ (Project.kitPath root).length + 2 → s.count = 0) := by
  rcases Nat.lt_or_ge ((Project.kitPath root).length + 2) pathLimit with hlen | hlen
  · have hcounts := h.counts_eq hQ hlen
    obtain ⟨hok, hp⟩ := h.source_counts hQ
    have hsource := Count.bySubdir_eq (w := ⟨t, i.source.root, i.exclude ++ Q⟩) (d := s.disk) hp
    rw [hok] at hsource
    rw [look_ok habs hkit (hcounts.trans hsource)]
    exact ⟨hsource, rfl, iff_of_true rfl hlen, fun hlong => absurd hlong (Nat.not_le_of_lt hlen)⟩
  · obtain ⟨hcount, hnone, f, hf⟩ := h.empty_of_long hQ hlen
    obtain ⟨hsubdirs, htotal, hfailure⟩ := look_error habs hkit hf
    rw [hsubdirs, htotal, hfailure]
    exact ⟨hnone, rfl, iff_of_false (by simp) (Nat.not_lt_of_le hlen), fun _ => hcount⟩

/-- A count before the install that succeeds, or that no link of the source could change, comes to the same
as one after it. -/
theorem counts_before (h : Planted i t root d s) (hQ : Walk.checkPatterns Q = .ok ())
    (hcase : t.Apart i.source.root d (d.goal (Project.kitPath root)) ∨
      ∃ counts, Count.bySubdir ⟨t, i.source.root, i.exclude ++ Q⟩ d = .ok counts) :
    Walk.trace ⟨t, i.source.root, i.exclude ++ Q⟩ d = Walk.trace ⟨t, i.source.root, i.exclude ++ Q⟩ s.disk := by
  refine h.before _ (hcase.imp_right fun hcounts => ?_)
  obtain ⟨counts, hcounts⟩ := hcounts
  rw [Count.bySubdir_eq (h.source_counts hQ).2] at hcounts
  cases hf : (Walk.trace ⟨t, i.source.root, i.exclude ++ Q⟩ d).2 with
  | none => rfl
  | some f =>
    rw [hf] at hcounts
    cases hcounts

end Planted

/-- A fresh install that succeeds has planted the kit, and the project is found as before. -/
theorem Vacant.planted_of_run (h : Vacant i.source project d) (hreal : i.dryRun = false)
    (hok : (i.run project d).result = .ok r) : ∃ t root s, i.source.tree = some t ∧
      r.files = s.count ∧ r.destination = Project.kitPath root ∧ (i.run project d).disk = s.disk ∧
      Planted i t root d s ∧ s.disk.absolute project = .ok root ∧
      s.disk.isDirectory (Project.kitPath root) = true := by
  have hcourse := i.course project d
  rw [hok] at hcourse
  generalize (i.run project d).disk = d₂ at hcourse
  cases hcourse with
  | skipped _ hr hkit =>
    rw [h.not_isDirectory hr] at hkit
    cases hkit
  | @copied t root s hc hr _ hrun =>
    rw [hreal] at hrun
    have hup := Copy.run_upholds ⟨t, i.source.root, i.exclude⟩ (Project.kitPath root) false d
    rw [hrun] at hup
    exact ⟨t, root, s, (check_ok.mp hc).1, rfl, rfl, rfl, h.planted hc hr hrun,
      hup.absolute (Project.resolve_ok.mp hr).1, Copy.run_isDirectory hrun⟩

/-- **A status after a fresh install counts the source.**  It reports a kit with the files by directory that a
count of the source gives if what the install and the status exclude is left out; the total is that of the
count, and the number of installed files if the status excludes the same or nothing.  So it is for a count
after the install.  A count before it gives the same, unless there is a link in the source that leads over the
missing kit and for which the count fails.  The status has no failure as long as the system takes the path of the
kit with `/.` behind it.  If it does not, the install succeeds only where there is nothing to install. -/
theorem look_after_install (h : Vacant i.source project d) (hreal : i.dryRun = false)
    (hQ : Walk.checkPatterns Q = .ok ()) (hok : (i.run project d).result = .ok r) :
    (Status.look project Q (i.run project d).disk).installed = true ∧
    (∀ t d', i.source.tree = some t →
      d' = (i.run project d).disk ∨ (d' = d ∧ (t.Apart i.source.root d (d.goal r.destination) ∨
        ∃ counts, Count.bySubdir ⟨t, i.source.root, i.exclude ++ Q⟩ d = .ok counts)) →
      Count.bySubdir ⟨t, i.source.root, i.exclude ++ Q⟩ d' =
        .ok (Status.look project Q (i.run project d).disk).subdirs ∧
      (Status.look project Q (i.run project d).disk).total =
        Int64.ofNat (Count.files ⟨t, i.source.root, i.exclude ++ Q⟩ d').1) ∧
    (Q = i.exclude ∨ Q = [] →
      (Status.look project Q (i.run project d).disk).total = Int64.ofNat r.files) ∧
    ((Status.look project Q (i.run project d).disk).failure = none ↔ r.destination.length + 2 < pathLimit) ∧
    (pathLimit ≤ r.destination.length + 2 → r.files = 0) := by
  obtain ⟨t, root, s, ht, hfiles, hdest, hdisk, hplanted, habs, hkit⟩ := h.planted_of_run hreal hok
  rw [hfiles, hdest, hdisk]
  obtain ⟨hsubdirs, htotal, hfailure⟩ := hplanted.look_eq habs hkit hQ
  have hsum : (Status.look project Q s.disk).total =
      Int64.ofNat (Count.files ⟨t, i.source.root, i.exclude ++ Q⟩ s.disk).1 :=
    htotal.trans (Count.total_bySubdir hsubdirs)
  refine ⟨(look_installed habs Q).trans hkit, fun t' d' ht' hd' => ?_, fun hcase => ?_, hfailure⟩
  · cases ht.symm.trans ht'
    rcases hd' with rfl | ⟨rfl, hcase⟩
    · exact ⟨hsubdirs, hsum⟩
    · have htrace := hplanted.counts_before hQ hcase
      rw [Count.bySubdir_of_trace htrace, Count.files_of_trace htrace]
      exact ⟨hsubdirs, hsum⟩
  · rw [hsum]
    refine congrArg Int64.ofNat ((hplanted.mirrors.count_append hplanted.patterns hQ
      fun q k hreach => ?_).trans hplanted.count.symm)
    rcases hcase with rfl | rfl
    · exact hreach.kept
    · exact fun _ _ _ => rfl

/-! ### Two places where a status and a count differ -/

/-- A kit with a link that leads over the kit of a project, which is missing, one to a directory, and an empty
directory. -/
def linkOverMissingKit : Disk :=
  { entries :=
      [([("kit" : Bytes)], .dir 0o755),
        ([("kit" : Bytes), ("a" : Bytes)], .file 0o644 "1"),
        ([("kit" : Bytes), ("b" : Bytes)], .link "/p/.agent/../../kit/a"),
        ([("kit" : Bytes), ("bare" : Bytes)], .dir 0o755),
        ([("kit" : Bytes), ("more" : Bytes)], .link "sub"),
        ([("kit" : Bytes), ("sub" : Bytes)], .dir 0o755),
        ([("kit" : Bytes), ("sub" : Bytes), ("c" : Bytes)], .file 0o755 "2"),
        ([("kit" : Bytes), ("sub" : Bytes), ("d" : Bytes)], .file 0o644 "3"),
        ([("p" : Bytes)], .dir 0o755)] }

/-- The install of all files but `d`. -/
def installAllButD : Install :=
  { source := { tree := some (.onDisk "/kit"), label := "kit" }, exclude := ["d"] }

theorem linkOverMissingKit_vacant : Vacant installAllButD.source "/p" linkOverMissingKit := by
  have hroot : ∀ {root}, Project.resolve linkOverMissingKit "/p" = .ok root → root = "/p" :=
    fun h => (Project.resolve_absolute rfl h).trans (by decide)
  refine ⟨sound_of_entries (by decide), ?_, fun root h => ?_, fun root t h ht => ?_⟩
  · rintro t ht
    cases ht
    trivial
  · cases hroot h
    decide +kernel
  · cases hroot h
    cases ht
    intro path hpath
    cases hpath
    exact aloof_of_entries (by decide +kernel) (by decide +kernel) (by decide +kernel)

/-- The status leaves out `c` besides, and a count after the install comes to the same. -/
theorem look_after_install_linkOverMissingKit :
    Vacant installAllButD.source "/p" linkOverMissingKit ∧
      (installAllButD.run "/p" linkOverMissingKit).result.toOption = some ⟨.installed, 3, "/p/.agent"⟩ ∧
      (Status.look "/p" ["c"] (installAllButD.run "/p" linkOverMissingKit).disk).subdirs =
        [⟨".", 2⟩, ⟨"bare", 0⟩, ⟨"sub", 0⟩] ∧
      (Status.look "/p" ["c"] (installAllButD.run "/p" linkOverMissingKit).disk).failure = none ∧
      Count.bySubdir ⟨.onDisk "/kit", ".", ["d", "c"]⟩ (installAllButD.run "/p" linkOverMissingKit).disk =
        .ok (Status.look "/p" ["c"] (installAllButD.run "/p" linkOverMissingKit).disk).subdirs := by
  have hres : (installAllButD.run "/p" linkOverMissingKit).result.toOption =
      some ⟨.installed, 3, "/p/.agent"⟩ := by decide +kernel
  have hpatterns : Walk.checkPatterns [("c" : Bytes)] = .ok () :=
    Walk.checkPatterns_ok.mpr (by decide +kernel)
  obtain ⟨-, hcounts, -, hfailure, -⟩ :=
    look_after_install linkOverMissingKit_vacant rfl hpatterns (ok_of_toOption hres)
  exact ⟨linkOverMissingKit_vacant, hres, by decide +kernel, hfailure.mpr (by decide),
    (hcounts _ _ rfl (Or.inl rfl)).1⟩

/-- A link that leads to the directory in which it is, so that there are paths of any length. -/
def linkToTop : Disk := { entries := [([List.replicate 145 (byte 'l')], .link "/")] }

/-- The top directory, over the link 28 times. -/
def overLinkToTop : Bytes := (List.replicate 28 (byte '/' :: List.replicate 145 (byte 'l'))).flatten

/-- The install of a source with nothing in it. -/
def installNothing : Install := { source := { tree := some (.inMemory {}), label := "nothing" } }

theorem linkToTop_vacant : Vacant installNothing.source overLinkToTop linkToTop := by
  refine ⟨sound_of_entries (by decide +kernel), ?_, fun root h => ?_, fun root t h ht => ?_⟩
  · rintro t ht
    cases ht
    simp [Tree.Proper]
  · obtain rfl := Project.resolve_absolute (by decide +kernel) h
    decide +kernel
  · cases ht
    trivial

/-- **A status after a fresh install does not always show what a count of the source gives.**  Before the install the
link over the missing kit cannot be followed, so there is no count to compare with, though the install and the
status succeed.  And a kit whose path has 4095 bytes can be made but not be read as a tree, for which two more are
needed; there the install succeeds and the status fails. -/
theorem look_without_count :
    (Vacant installAllButD.source "/p" linkOverMissingKit ∧
      (installAllButD.run "/p" linkOverMissingKit).result.toOption = some ⟨.installed, 3, "/p/.agent"⟩ ∧
      (Status.look "/p" ["c"] (installAllButD.run "/p" linkOverMissingKit).disk).total = 2 ∧
      (Count.bySubdir ⟨.onDisk "/kit", ".", ["d", "c"]⟩ linkOverMissingKit).toOption = none) ∧
    (Vacant installNothing.source overLinkToTop linkToTop ∧
      ((installNothing.run overLinkToTop linkToTop).result.toOption.map
        fun r => (r.action, r.files, r.destination.length)) = some (.installed, 0, 4095) ∧
      (Status.look overLinkToTop [] (installNothing.run overLinkToTop linkToTop).disk).failure ≠ none) := by
  refine ⟨⟨linkOverMissingKit_vacant, by decide +kernel, by decide +kernel, by decide +kernel⟩, ?_⟩
  have hres : ((installNothing.run overLinkToTop linkToTop).result.toOption.map
      fun r => (r.action, r.files, r.destination.length)) = some (.installed, 0, 4095) := by decide +kernel
  refine ⟨linkToTop_vacant, hres, fun hnone => ?_⟩
  obtain ⟨r, hr, hvalues⟩ := Option.map_eq_some_iff.mp hres
  obtain ⟨t, root, s, -, -, hdest, hdisk, hplanted, habs, hkit⟩ :=
    linkToTop_vacant.planted_of_run rfl (ok_of_toOption hr)
  rw [hdisk] at hnone
  have hshort := (hplanted.look_eq habs hkit rfl).2.2.1.mp hnone
  have hlen : r.destination.length = 4095 := (Prod.mk.inj (Prod.mk.inj hvalues).2).2
  rw [← hdest, hlen] at hshort
  exact absurd hshort (by decide)

end Install

end AgentKit
