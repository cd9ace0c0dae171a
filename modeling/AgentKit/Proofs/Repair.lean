import AgentKit.Proofs.Installing
/-!
# Installing over a kit

A forced install copies the source over the kit that is there.  A comparison afterwards finds each file of
the source with the content of the source, or not readable, and beside them the files it would have found
before.

1. **What a comparison finds after a copy** (`Ended.found`): no file is missing, and none is modified.
2. **Files that only the destination has** (`Ended.extra_eq`) were there before the copy and stay.
3. The install, which is a copy into the project.

Both sides are known place by place, the copy from `Delivery` and the comparison from `Comparing`.  What remains is to put
the one into the other.  The comparison walks over the source again, on the disk that the copy has left.  That it visits
the same files is no more than what the copy itself is known by, since its visits are read off that disk too.

A copy may leave a file that cannot be read, if it was so before and may still be written.  Such a file is
neither missing nor modified but a failure of the comparison, and so there is something left to say about comparisons
that fail.
-/

namespace AgentKit

open Disk

namespace Copy

variable {w : Walk.Scope} {dest : Bytes} {P : Place} {d d₀ b : Disk} {s : State} {x : Visit} {patch : Bool}

section

variable (h : Ended w dest P d d₀ b s) (hd : d.Sound) (hproper : w.tree.Proper)

include h hd hproper

/-! ## 1. A comparison after a copy

Each file of the source is found to be the same or not readable. -/

/-- **What a comparison finds of a file that was copied.** -/
theorem Ended.found {finding : Compare.Finding} (hx : x ∈ Compare.files w s.disk)
    (hfound : Compare.Found w dest s.disk x finding) : finding = .unchanged ∨ ∃ f, finding = .failed f := by
  obtain ⟨hx, hfile⟩ := List.mem_filter.mp hx
  obtain ⟨c, info, hkit, -, -, -, hfind⟩ := h.of_file hd hproper hx (by simpa using hfile)
  rcases read_of_find hfind with hread | ⟨f, hread, habs⟩
  · exact Or.inl (hfound.eq (.unchanged hkit hread))
  · exact Or.inr ⟨_, hfound.eq (.noInstalled hkit hread habs)⟩

theorem Ended.missing (patch : Bool) :
    (Compare.inOrder (Compare.gathered w dest patch s.disk).drift).missing = [] := by
  refine List.eq_nil_iff_forall_not_mem.mpr fun rel hrel => ?_
  obtain ⟨x, hx, -, hr⟩ := ((Compare.gathered_sorts w dest patch s.disk).missing rel).mp hrel
  rcases h.found hd hproper hx hr with hf | ⟨f, hf⟩ <;> cases hf

theorem Ended.modified (patch : Bool) :
    (Compare.inOrder (Compare.gathered w dest patch s.disk).drift).modified = [] := by
  refine List.eq_nil_iff_forall_not_mem.mpr fun m hm => ?_
  obtain ⟨x, hx, -, installed, kit, hr⟩ := ((Compare.gathered_sorts w dest patch s.disk).modified m.path).mp
    (List.mem_map.mpr ⟨m, hm, rfl⟩)
  rcases h.found hd hproper hx hr with hf | ⟨f, hf⟩ <;> cases hf

/-- Without failures all files that were copied are unchanged, because every file is found to be something. -/
theorem Ended.unchanged (hp : Walk.checkPatterns w.exclude = .ok ()) (patch : Bool)
    (hf : Compare.fileFailures w dest s.disk = []) :
    (Compare.inOrder (Compare.gathered w dest patch s.disk).drift).unchanged = s.count := by
  have htotal := @Compare.gathered_total w dest s.disk patch hp
  have hcount : (Count.files w s.disk).1 = s.count := (Compare.count_files hp).trans h.count.symm
  rw [h.missing hd hproper, h.modified hd hproper, hf, hcount] at htotal
  simpa using htotal

/-! ## 2. Files that only the destination has

These are found by a second walk, over the destination.  A copy puts files there, but only such as the source
has. -/

/-- What was there when the copy began and was no file of the source is there in the end. -/
theorem Ended.get?_file {q : List Bytes} (hnot : ∀ x ∈ Compare.files w s.disk, x.path ≠ q) {m : Nat}
    {c : Bytes} :
    s.disk.get? (P ++ q) = some (.file m c) ↔ d.get? (P ++ q) = some (.file m c) := by
  by_cases hvisited : ∃ x ∈ (Walk.visits w s.disk).1, x.path = q
  · -- A directory was visited there, and that is no file before or after.
    obtain ⟨x, hx, rfl⟩ := hvisited
    have hdir : x.isDir = true := by
      by_contra hfile
      exact hnot x (List.mem_filter.mpr ⟨hx, by simpa using hfile⟩) rfl
    obtain ⟨k, hfind, hbefore⟩ := h.of_dir hd hproper hx hdir
    rw [(find_eq_ok.mp hfind).2.1]
    rcases hbefore with hk | ⟨hnone, -⟩
    · simp [hk]
    · simp [hnone]
  · have hrest := h.rest (p := P ++ q) fun x hx heq =>
      hvisited ⟨x, hx, (List.append_cancel_left heq).symm⟩
    rcases hrest with heq | ⟨hnone, hnew, -⟩
    · rw [heq]
    · simp [hnone, hnew]

end

end Copy

namespace Compare

variable {w : Walk.Scope} {dest : Bytes} {d : Disk} {exclude : List Bytes} {rel : Bytes}

/-- What is in the destination, where there may be none. -/
theorem installed_iff_goal (hd : d.Sound) (hno : NoLinkIn (d.goal dest) d)
    (hdest : d.isDirectory dest = true ∨ (d.isDirectory dest = false ∧ d.get? (d.goal dest) = none))
    (hs : searchFailure? exclude dest d = none) :
    (∃ x ∈ installed exclude dest d, x.rel = rel) ↔
      ∃ q, q ≠ [] ∧ rel = Path.join q ∧ Walk.Kept exclude q ∧
        ∃ m c, d.get? (d.goal dest ++ q) = some (.file m c) := by
  rcases hdest with hdir | ⟨hdir, hnone⟩
  · obtain ⟨P, m, hfind⟩ := isDirectory_iff.mp hdir
    rw [goal_of_find hfind] at hno ⊢
    exact installed_iff hd hfind hno hs
  · rw [installed, if_neg (by simp [hdir])]
    constructor
    · rintro ⟨x, hx, -⟩
      exact absurd hx (by simp)
    · rintro ⟨q, hq, -, -, m, c, hfile⟩
      obtain ⟨k, hk⟩ := hd.dir_of_prefix hq hfile
      exact absurd (hnone.symm.trans hk) (by simp)

end Compare

namespace Copy

variable {w : Walk.Scope} {dest : Bytes} {d d₀ b : Disk} {s : State}

/-- **The files that only the destination has are those it had before.** -/
theorem Ended.extra_eq (h : Ended w dest (d.goal dest) d d₀ b s) (hd : d.Sound) (hproper : w.tree.Proper)
    (hno : NoLinkIn (d.goal dest) d) (hmade : Made dest d d₀)
    (hvisits : Walk.visits w s.disk = Walk.visits w d)
    (hbefore : Compare.searchFailure? w.exclude dest d = none)
    (hafter : Compare.searchFailure? w.exclude dest s.disk = none) (patch patch' : Bool) :
    (Compare.inOrder (Compare.gathered w dest patch s.disk).drift).extra =
      (Compare.inOrder (Compare.gathered w dest patch' d).drift).extra := by
  have hfiles : Compare.files w s.disk = Compare.files w d := by rw [Compare.files, Compare.files, hvisits]
  have hsound := h.sound hd
  have hgoal := h.keeps.goal_eq dest
  have hdir : s.disk.isDirectory dest = true :=
    isDirectory_keeps h.onward.advances.toKeeps (makeDirectories_isDirectory h.made)
  have hnoLink : NoLinkIn (s.disk.goal dest) s.disk := hgoal ▸ hno.keeps h.keeps
  have hinstalled : ∀ {rel}, (∀ x ∈ Compare.files w d, x.rel ≠ rel) →
      ((∃ x ∈ Compare.installed w.exclude dest s.disk, x.rel = rel) ↔
        ∃ x ∈ Compare.installed w.exclude dest d, x.rel = rel) := by
    intro rel hnot
    rw [Compare.installed_iff_goal hsound hnoLink (Or.inl hdir) hafter,
      Compare.installed_iff_goal hd hno hmade.before hbefore, hgoal]
    refine exists_congr fun q => and_congr_right fun hq => and_congr_right fun hrel =>
      and_congr_right fun _ => exists_congr fun m => exists_congr fun c => h.get?_file hd hproper ?_
    rintro x hx rfl
    have hmem := (List.mem_filter.mp hx).1
    rw [Walk.visits_eq_trace] at hmem
    have hx' := (Walk.trace_shaped fun _ _ hls => Tree.list_tidy hsound hproper hls).proper hmem
    exact hnot x (hfiles ▸ hx) (hx'.rel.trans hrel.symm)
  -- Both lists are sorted and without repetitions, so it is enough that they have the same members.
  refine Bytes.sort_eq_of_mem_iff (Compare.gathered_extra_nodup hsound w dest patch)
    (Compare.gathered_extra_nodup hd w dest patch') fun rel => ?_
  rw [Compare.gathered_extra, Compare.gathered_extra, hfiles]
  exact and_congr_left hinstalled

end Copy

/-! ## 3. Installing

The source is accepted and the project is found again after the install, so the comparison gets as far as its
walks. -/

namespace Install

variable {i : Install} {source : Source} {project : Bytes} {d : Disk} {r : Result} {patch : Bool}

/-- The kit in the project and the source are not inside each other, no link of the source ends in the kit,
and there are no links in the kit. -/
def Detached (source : Source) (project : Bytes) (d : Disk) : Prop :=
  ∀ root t, Project.resolve d project = .ok root → source.tree = some t →
    Copy.Detached t source.root (Project.kitPath root) d

/-- **A forced install repairs a kit and leaves the rest of it alone.**  A comparison afterwards finds nothing
missing and nothing modified.  If nothing fails in it, all files that were copied are unchanged, and if
nothing failed in a comparison before either, the files that only the kit has are the same. -/
theorem run_repairs (h : Detached i.source project d) (hforce : i.force = true) (hreal : i.dryRun = false)
    (hok : (i.run project d).result = .ok r) :
    ∃ after, (diff i.source i.exclude project patch (i.run project d).disk).drift = some after ∧
      after.missing = [] ∧ after.modified = [] ∧
      ((diff i.source i.exclude project patch (i.run project d).disk).failure = none →
        after.unchanged = r.files ∧
        ∀ patch', (diff i.source i.exclude project patch' d).failure = none →
          ∃ before, (diff i.source i.exclude project patch' d).drift = some before ∧
            after.extra = before.extra) := by
  obtain ⟨t, root, s, hc, hr, hrun, hdisk, hfiles⟩ := run_ok hforce hreal hok
  obtain ⟨htree, info, hstat, hdir⟩ := check_ok.mp hc
  have hdet := h root t hr htree
  have hp := (Copy.run_ok hrun).1
  obtain ⟨d₀, b, hended, hmade, hadv⟩ := copy_ended (w := ⟨t, i.source.root, i.exclude⟩) hr hdet hrun
  have hno := hdet.noLink
  have hal := hdet.aloof
  rw [Project.clean_kitPath (Project.resolve_clean hr).1] at hno hal
  -- Source and project are found again.
  have hc' : i.source.check s.disk = .ok t :=
    check_ok.mpr ⟨htree, info, hal.leadsOut.stat hadv.toRetains hstat, hdir⟩
  have hr' := Project.resolve_keeps hadv.toKeeps hr
  rw [hdisk, diff_eq hc' hr']
  refine ⟨_, Compare.run_drift.mpr ⟨hp, hended.walked, rfl⟩, hended.missing hdet.sound hdet.proper patch,
    hended.modified hdet.sound hdet.proper patch, fun hnone => ?_⟩
  obtain ⟨hf, hs'⟩ := (Compare.failure_eq_none hp hended.walked).mp hnone
  refine ⟨(hended.unchanged hdet.sound hdet.proper hp patch hf).trans hfiles.symm, fun patch' hnone' => ?_⟩
  rw [diff_eq hc hr] at hnone' ⊢
  -- The walk through the source did not fail before, and so it came to the same.
  obtain ⟨before, hbefore⟩ := Compare.exists_drift hnone'
  obtain ⟨-, hvisits, rfl⟩ := Compare.run_drift.mp hbefore
  have hs := ((Compare.failure_eq_none hp hvisits).mp hnone').2
  exact ⟨_, hbefore, hended.extra_eq hdet.sound hdet.proper hno hmade
    (Walk.visits_advances hdet.sound (hended.sound hdet.sound) hal hadv hvisits) hs hs' patch patch'⟩

/-- A kit with a link that leads over a project, and an older kit in the project that has a file of its own. -/
def olderKitInProject : Disk :=
  { entries :=
      [([("kit" : Bytes)], .dir 0o755),
        ([("kit" : Bytes), ("a" : Bytes)], .file 0o644 "1"),
        ([("kit" : Bytes), ("b" : Bytes)], .link "/p/.agent/../../kit/a"),
        ([("kit" : Bytes), ("sub" : Bytes)], .dir 0o755),
        ([("kit" : Bytes), ("sub" : Bytes), ("c" : Bytes)], .file 0o755 "2"),
        ([("p" : Bytes)], .dir 0o755),
        ([("p" : Bytes), (".agent" : Bytes)], .dir 0o755),
        ([("p" : Bytes), (".agent" : Bytes), ("a" : Bytes)], .file 0o444 "0"),
        ([("p" : Bytes), (".agent" : Bytes), ("own" : Bytes)], .file 0o644 "3")] }

/-- The install of the kit. -/
def overwriteWithKit : Install :=
  { source := { tree := some (.onDisk "/kit"), label := "kit" }, force := true }

theorem olderKitInProject_detached : Detached overwriteWithKit.source "/p" olderKitInProject := by
  intro root t hr ht
  have hroot : root = "/p" := (Project.resolve_absolute rfl hr).trans (by decide)
  subst hroot
  cases ht
  refine ⟨sound_of_entries (by decide), trivial, noLinkIn_of_entries (by decide +kernel), ?_⟩
  intro path hpath
  cases hpath
  exact aloof_of_entries (by decide +kernel) (by decide +kernel) (by decide +kernel)

/-- Two files were missing and one was modified. -/
theorem run_repairs_olderKitInProject :
    Detached overwriteWithKit.source "/p" olderKitInProject ∧
      (diff overwriteWithKit.source [] "/p" false olderKitInProject).drift =
        some ⟨["b", "sub/c"], [⟨"a", []⟩], ["own"], 0⟩ ∧
      ∃ after, (diff overwriteWithKit.source [] "/p" false (overwriteWithKit.run "/p" olderKitInProject).disk).drift =
          some after ∧
        after.missing = [] ∧ after.modified = [] ∧ after.unchanged = 3 ∧ after.extra = ["own"] := by
  have hbefore : (diff overwriteWithKit.source [] "/p" false olderKitInProject).drift =
      some ⟨["b", "sub/c"], [⟨"a", []⟩], ["own"], 0⟩ := by decide +kernel
  have hnone : (diff overwriteWithKit.source [] "/p" false olderKitInProject).failure = none :=
    Option.isNone_iff_eq_none.mp (by decide +kernel)
  have hnone' :
      (diff overwriteWithKit.source [] "/p" false (overwriteWithKit.run "/p" olderKitInProject).disk).failure = none :=
    Option.isNone_iff_eq_none.mp (by decide +kernel)
  have hfiles : (overwriteWithKit.run "/p" olderKitInProject).result.toOption.map (·.files) = some 3 := by
    decide +kernel
  obtain ⟨r, hr, hthree⟩ := Option.map_eq_some_iff.mp hfiles
  obtain ⟨after, hafter, hmissing, hmodified, hrest⟩ :=
    run_repairs olderKitInProject_detached rfl rfl (ok_of_toOption hr)
  obtain ⟨hunchanged, hextra⟩ := hrest hnone'
  obtain ⟨before, hdrift, hsame⟩ := hextra false hnone
  cases hbefore.symm.trans hdrift
  exact ⟨olderKitInProject_detached, hbefore, after, hafter, hmissing, hmodified, hunchanged.trans hthree, hsame⟩

end Install

end AgentKit
