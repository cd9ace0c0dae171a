import AgentKit.Proofs.Counting
import AgentKit.Proofs.Delivery
/-!
# All counts agree

There are four ways to a number of files: counting them, counting them by top-level directory, a dry run of a
copy, and a copy.  The first three walk over a disk that stays as it is, and so they agree on every tree, also
on where they fail.

A copy first makes its destination, with all directories on the way to it, and then walks.  A link in the source
that led to such a directory was broken when the files were counted, and leads to a directory when they are
copied (`copied_though_not_counted`).  So does a link that leads over the destination and elsewhere.  Apart from
that a copy agrees too.

1. Outside of its destination a copy only adds directories (`Grows`), and **directories that are added show no
   files** (`Walk.sights_grows`).
2. **A walk over a source that is apart from all that is made is the same walk**
   (`Walk.trace_makeDirectories`, `Ended.trace_eq`).
3. **All counts agree** (`counts_agree`).

The first point is for a count that succeeded, and there no more is asked than for the copy itself: a new directory may
even be in the source, since it has no files in it and is not counted.  The second is for a count that failed.  If the
copy succeeded nevertheless, then something that it made must have helped, and the theorem says what it can have been.
-/

namespace AgentKit

open Disk

/-! ## 1. Directories that are added

Two walks that both come to their end are compared by what is shown to them.  A file that is shown now was there
before, as it is not in the destination and only directories have come elsewhere; a link to a file led to that
file before, or it would have been an obstacle then. -/

/-- From `d` to `d'` all stays that is outside of `P`, and only directories come there. -/
structure Disk.Grows (P : Place) (d d' : Disk) : Prop extends Retains P d d' where
  new : ∀ p e, ¬ P <+: p → d'.get? p = some e → d.get? p = some e ∨ ∃ m, e = .dir m

namespace Walk

variable {w : Scope} {d d' d₀ : Disk} {dir root : Bytes} {exclude : List Bytes} {P : Place} {mode : Nat}
  {q r : List Bytes} {k : Kind} {info : Info}

theorem trace_of_file (hstat : w.tree.stat d w.root = .ok info) (hfile : info.isDir = false) :
    trace w d = ([], none) := by
  unfold trace
  rw [hstat]
  exact if_neg (by simp [hfile])

theorem Reached.entered (h : Reached w d q k) (hk : k = .dir) : Entered w d (Path.nameAt w.root q) := by
  induction h with
  | root => exact .root
  | item _ hls hl _ ih =>
    rw [Path.nameAt_concat]
    exact .item (ih rfl) hls hl hk

/-- What a walk reaches in an aloof source does not lead into `P`. -/
theorem Reached.leadsOut (h : Reached w d q k) (hq : q ≠ []) (hd : d.Sound)
    (hal : w.tree.Aloof w.root d P) : w.tree.LeadsOut (Path.nameAt w.root q) d P := by
  cases h with
  | root => exact absurd rfl hq
  | item hr hls hl _ =>
    have hsight : Sighted w P (Path.nameAt w.root _) d := ⟨hd, hal, hr.rootIsDir, hr.entered rfl⟩
    rw [Path.nameAt_concat]
    exact hsight.item hls hl

/-- **Directories that are added show no files.** -/
theorem shown_file_grows (hd : d.Sound) (hd' : d'.Sound) (hgrows : Grows P d d')
    (hal : (Tree.onDisk dir).Aloof root d P) (hstat : (Tree.onDisk dir).stat d root = .ok info)
    (hdir : info.isDir = true) (hfree : ∀ r, ¬ Blocked ⟨.onDisk dir, root, exclude⟩ d r)
    (hfree' : ∀ r, ¬ Blocked ⟨.onDisk dir, root, exclude⟩ d' r) (hr : r ≠ []) :
    Shown ⟨.onDisk dir, root, exclude⟩ d r false ↔ Shown ⟨.onDisk dir, root, exclude⟩ d' r false := by
  obtain ⟨S, hroot, hS⟩ := hal.rootAt hstat hdir
  have hroot' : Tree.RootAt d' dir root S := by
    obtain ⟨path, m, hpath, hf⟩ := hroot
    exact ⟨path, m, hpath, find_keeps hgrows.toKeeps hf (hgrows.dir _ m (find_eq_ok.mp hf).2.1)⟩
  have houtside : ¬ P <+: S ++ r := hS.outside (List.prefix_append S r)
  have hforth : ∀ {k}, Reached ⟨.onDisk dir, root, exclude⟩ d r k →
      Reached ⟨.onDisk dir, root, exclude⟩ d' r k := by
    intro k hreach
    obtain ⟨e, he, rfl⟩ := hreach.get? hd hroot
    exact reached_of_get? hd' hroot' hfree' hreach.kept (hgrows.held _ e houtside he)
  have hback : ∀ {k}, k ≠ .dir → Reached ⟨.onDisk dir, root, exclude⟩ d' r k →
      Reached ⟨.onDisk dir, root, exclude⟩ d r k := by
    intro k hk hreach
    obtain ⟨e, he, rfl⟩ := hreach.get? hd' hroot'
    rcases hgrows.new _ e houtside he with hold | ⟨m, rfl⟩
    · exact reached_of_get? hd hroot hfree hreach.kept hold
    · exact absurd rfl hk
  have hlink : ∀ {info}, Reached ⟨.onDisk dir, root, exclude⟩ d r .link →
      (Tree.onDisk dir).stat d (Path.nameAt root r) = .ok info →
      (Tree.onDisk dir).stat d' (Path.nameAt root r) = .ok info :=
    fun hreach => (hreach.leadsOut hr hd hal).stat hgrows.toRetains
  constructor
  · intro hs
    cases hs with
    | file hreach => exact .file (hforth hreach)
    | link hreach hstat hnot => exact .link (hforth hreach) (hlink hreach hstat) hnot
  · intro hs
    cases hs with
    | file hreach => exact .file (hback (by simp) hreach)
    | link hreach hstat' hnot =>
      have hreach := hback (by simp) hreach
      -- The link could be looked at before, or the walk would have ended at it.
      cases hstat : (Tree.onDisk dir).stat d (Path.nameAt root r) with
      | error f => exact absurd (.link hreach hstat) (hfree r)
      | ok info =>
        cases hstat'.symm.trans (hlink hreach hstat)
        exact .link hreach hstat hnot

/-- Two walks without a failure, before and after directories were added, show the same files. -/
theorem sights_grows (hd : d.Sound) (hd' : d'.Sound) (hgrows : Grows P d d') :
    ∀ {t : Tree}, t.Aloof root d P → (trace ⟨t, root, exclude⟩ d).2 = none →
      (trace ⟨t, root, exclude⟩ d').2 = none →
      sights ⟨t, root, exclude⟩ d (!·) = sights ⟨t, root, exclude⟩ d' (!·)
  | .onDisk dir, hal, hok, hok' => by
    obtain ⟨info, hstat⟩ := root_of_trace_ok hok
    cases hdir : info.isDir with
    | false =>
      have hnone := trace_of_file hstat hdir
      have hnone' := trace_of_file (w := ⟨.onDisk dir, root, exclude⟩)
        (hal.leadsOut.stat hgrows.toRetains hstat) hdir
      unfold sights
      rw [hnone, hnone']
    | true =>
      have ho := orderly (w := ⟨.onDisk dir, root, exclude⟩) hd trivial
      have ho' := orderly (w := ⟨.onDisk dir, root, exclude⟩) hd' trivial
      refine sights_eq ho ho' hok hok' fun r isDir hr hfile => ?_
      rw [Bool.not_eq_true'] at hfile
      subst hfile
      exact shown_file_grows hd hd' hgrows hal hstat hdir ((trace_ok_iff ho).mp hok).2
        ((trace_ok_iff ho').mp hok').2 hr
  | .inMemory m, _, _, _ => by
    have htrace : trace ⟨.inMemory m, root, exclude⟩ d' = trace ⟨.inMemory m, root, exclude⟩ d :=
      trace_congr (fun _ _ _ => ⟨rfl, fun _ => Or.inl rfl, fun _ _ _ _ => Or.inl rfl⟩) rfl
    unfold sights
    rw [htrace]
  | .faulty faults t, hal, hok, hok' => by
    have heq := trace_of_faulty hok
    have heq' := trace_of_faulty hok'
    have hsights : sights ⟨t, root, exclude⟩ d (!·) = sights ⟨t, root, exclude⟩ d' (!·) :=
      sights_grows hd hd' hgrows (t := t) hal (heq ▸ hok) (heq' ▸ hok')
    unfold sights at hsights ⊢
    rw [heq, heq', hsights]

/-! ## 2. Sources apart from what is made

Here directories are made one by one, and after each of them the walk is the same as before it. -/

theorem stat_adds {name : Bytes} (h : Adds mode d d₀) : ∀ {t : Tree}, t.stat d name = .ok info →
    t.stat d₀ name = .ok info
  | .onDisk dir, hstat => by
    obtain ⟨path, hpath, hstatus⟩ := Tree.onPathOf_eq_ok.mp hstat
    obtain ⟨p, e, hf, he⟩ := statusOf_eq_ok.mp hstatus
    exact Tree.onPathOf_eq_ok.mpr ⟨path, hpath, statusOf_eq_ok.mpr ⟨p, e, h.find hf, he⟩⟩
  | .inMemory _, hstat => hstat
  | .faulty .., hstat => by
    obtain ⟨hnone, hstat⟩ := Fault.orElse_eq_ok.mp hstat
    exact Fault.orElse_eq_ok.mpr ⟨hnone, stat_adds h hstat⟩

/-- **A walk over a source that is apart from all directories that are made is the same walk.** -/
theorem trace_makeDirectories {dest : Bytes} (hd : d.Sound) (hstat : w.tree.stat d w.root = .ok info)
    (hapart : ∀ x, Above dest x → d.get? (d.goal x) = none → w.tree.Apart w.root d (d.goal x)) :
    trace w (d.makeDirectories dest mode).1 = trace w d := by
  -- The invariant: the directories made so far have changed nothing for the walk.
  let R : Disk → Prop := fun b => b.Sound ∧ Adds mode d b ∧ trace w b = trace w d
  have hbegin : R d := ⟨hd, Adds.refl mode d, rfl⟩
  refine (makeDirectories_rel hbegin fun {d₁ d₂ x} hx hR hlast => ?_).2.2
  obtain ⟨hd₁, hadds₁, htrace⟩ := hR
  have hadds₂ := makeLast_adds hlast
  refine ⟨makeLast_sound hd₁ hlast, hadds₁.trans hadds₂, ?_⟩
  rcases makeLast_ok hlast with hmade | ⟨rfl, -⟩
  · obtain ⟨p, hnone, hputs, hfind⟩ := makeDirectory_find hmade
    have hgoal : d.goal x = p :=
      ((hadds₁.trans hadds₂).keeps.goal_eq x).symm.trans (goal_of_find hfind)
    have hnone' : d.get? p = none := by
      cases hp : d.get? p with
      | none => rfl
      | some e =>
        rw [hadds₁.of_some hp] at hnone
        cases hnone
    have hap := (hgoal ▸ hapart x hx) hnone'
    have hag : AgreeOutside p d₁ d₂ := fun r hr => hputs.other fun h => hr (h ▸ List.prefix_refl p)
    rw [← htrace]
    exact Tree.trace_eq hd₁ hadds₂.keeps hag (noLinkIn_of_none hd₁ hnone) (hap.keeps hadds₁.keeps)
      (stat_adds hadds₁ hstat)
  · exact htrace

end Walk

namespace Copy

variable {w : Walk.Scope} {dest : Bytes} {P : Place} {d d₀ b : Disk} {s : State}

/-- What is made on the way to the clean form of the destination's path is below one place on that way. -/
theorem Grounds.within (h : Grounds dest d b) (hgoal : d.goal (Path.clean dest) = P) :
    ∃ p, p <+: P ∧ AgreeOutside p d b ∧ (p = P ∨ (d.get? p = none ∧
      d.isDirectory (Path.clean dest) = false ∧ ∃ y, Above (Path.clean dest) y ∧ d.goal y = p)) := by
  rcases h with rfl | ⟨hno, hcleared⟩
  · exact ⟨P, List.prefix_refl P, fun _ _ => rfl, Or.inl rfl⟩
  have haround : ∀ p, b.get? p ≠ d.get? p → p <+: P :=
    fun p hp => hgoal ▸ (hcleared.around p).resolve_left hp
  by_cases hsame : ∀ p, b.get? p = d.get? p
  · exact ⟨P, List.prefix_refl P, fun p _ => hsame p, Or.inl rfl⟩
  · -- The shortest of the places where something was made.
    classical
    rw [not_forall] at hsame
    have hlengths : ∃ n p, b.get? p ≠ d.get? p ∧ p.length = n := by
      obtain ⟨p, hp⟩ := hsame
      exact ⟨p.length, p, hp, rfl⟩
    obtain ⟨p, hp, hlen⟩ := Nat.find_spec hlengths
    have hleast : ∀ r, b.get? r ≠ d.get? r → p.length ≤ r.length :=
      fun r hr => hlen ▸ Nat.find_min' hlengths ⟨r, hr, rfl⟩
    refine ⟨p, haround p hp, fun r hr => ?_, Or.inr ⟨?_, hno, (hcleared.along p).resolve_left hp⟩⟩
    · by_contra hne
      exact hr (List.prefix_of_prefix_length_le (haround p hp) (haround r hne) (hleast r hne))
    · exact ((hcleared.toAdds.get? p).resolve_left hp).1

theorem Ended.grows (h : Ended w dest P d d₀ b s) : Grows P d s.disk := by
  refine ⟨h.along.1.retains.trans (makes_onward h.makes).advances.toRetains, fun p e hp he => ?_⟩
  rcases h.rest (p := p) fun x _ heq => hp (heq ▸ List.prefix_append P x.path) with hsame | ⟨-, hnew, -⟩
  · exact Or.inl (hsame.symm.trans he)
  · rw [he, Option.some.injEq] at hnew
    exact Or.inr ⟨_, hnew⟩

/-- The walk came to the same before the copy if the source is apart from the destination and from all that is
made on the way to it. -/
theorem Ended.trace_eq {info : Info} (h : Ended w dest (d.goal (Path.clean dest)) d d₀ b s) (hd : d.Sound)
    (hno : NoLinkIn (d.goal (Path.clean dest)) d) (hstat : w.tree.stat d w.root = .ok info)
    (hdest : w.tree.Apart w.root d (d.goal (Path.clean dest)))
    (hmade : ∀ x, Above dest x ∨ (¬ Straight dest d ∧ Above (Path.clean dest) x) →
      d.get? (d.goal x) = none → w.tree.Apart w.root d (d.goal x)) :
    Walk.trace w s.disk = Walk.trace w d := by
  have hadds := makeDirectories_adds d dest directoryMode
  have hsound := makeDirectories_sound hd dest directoryMode
  have htrace : Walk.trace w (d.makeDirectories dest directoryMode).1 = Walk.trace w d :=
    Walk.trace_makeDirectories hd hstat fun x hx => hmade x (Or.inl hx)
  rw [h.made] at hadds hsound htrace
  have hkeeps := hadds.keeps
  rw [← htrace]
  obtain ⟨p, hp, hag, hcase⟩ := h.grounds.within (hkeeps.goal_eq _)
  have houtside : AgreeOutside p d₀ s.disk := fun r hr =>
    (makes_settles (p := r) h.makes fun x _ heq =>
      hr (hp.trans (heq ▸ List.prefix_append _ x.path))).trans (hag r hr)
  -- Either only the destination itself was written, or a place above its clean form was free and all that is new
  -- is below that.
  have hplace : NoLinkIn p d₀ ∧ w.tree.Apart w.root d₀ p := by
    rcases hcase with rfl | ⟨hnone, hfalse, y, hy, rfl⟩
    · exact ⟨hno.keeps hkeeps, hdest.keeps hkeeps⟩
    · have hstraight : ¬ Straight dest d := fun hs => absurd ((hs d₀ h.made).symm.trans hfalse) (by simp)
      refine ⟨noLinkIn_of_none hsound hnone, ?_⟩
      rw [hkeeps.goal_eq] at hnone ⊢
      refine (hmade y (Or.inr ⟨hstraight, hy⟩) ?_).keeps hkeeps
      cases hy : d.get? (d.goal y) with
      | none => rfl
      | some e => exact absurd (hnone.symm.trans (hadds.of_some hy)) (by simp)
  exact Tree.trace_eq hsound h.onward.advances.toKeeps houtside hplace.1 hplace.2
    (Walk.stat_adds hadds hstat)

/-- A copy that succeeds counts the files that were there, if they could be counted. -/
theorem Detached.count_eq (h : Detached w.tree w.root dest d) (hrun : run w dest false d = (s, none))
    (hok : (Count.files w d).2 = none) : s.count = (Count.files w d).1 := by
  have hp := (run_ok hrun).1
  obtain ⟨d₀, b, hended⟩ := h.ended hrun
  have hwalked := hended.walked
  have hcount : s.count = (Count.files w s.disk).1 := hended.count.trans (Compare.count_files hp).symm
  rw [Walk.visits_eq_trace] at hwalked
  rw [Count.files_eq hp] at hok
  rw [hcount, Count.files_eq hp, Count.files_eq hp,
    Walk.sights_grows h.sound (hended.sound h.sound) hended.grows h.aloof hok hwalked]

/-- A copy that succeeds although the files could not be counted made a directory that the source leads to, or
the source leads over the destination. -/
theorem Detached.not_counted (h : Detached w.tree w.root dest d) (hrun : run w dest false d = (s, none))
    (hnot : (Count.files w d).2 ≠ none) :
    (∀ info, w.tree.stat d w.root ≠ .ok info) ∨ ∃ x, ¬ w.tree.Apart w.root d (d.goal x) ∧
      (x = Path.clean dest ∨ (d.get? (d.goal x) = none ∧
        (Above dest x ∨ (¬ Straight dest d ∧ Above (Path.clean dest) x)))) := by
  have hp := (run_ok hrun).1
  obtain ⟨d₀, b, hended⟩ := h.ended hrun
  by_contra hcause
  rw [not_or] at hcause
  obtain ⟨hstat, hapart⟩ := hcause
  rw [not_forall] at hstat
  obtain ⟨info, hstat⟩ := hstat
  have htrace := hended.trace_eq h.sound h.noLink (not_not.mp hstat)
    (by_contra fun hap => hapart ⟨_, hap, Or.inl rfl⟩)
    fun x hx hnone => by_contra fun hap => hapart ⟨x, hap, Or.inr ⟨hnone, hx⟩⟩
  rw [Count.files_eq hp, ← htrace, ← Walk.visits_eq_trace] at hnot
  exact hnot hended.walked

end Copy

/-! ## 3. All counts agree -/

namespace Count

/-- **All counts agree.**  A dry run gives what counting gives, the number and the failure; counting by
directory fails exactly if counting does, with the same failure, and else has the same total.  A copy that
succeeds has that number too if counting succeeds.  Counting can only fail where the copy succeeds if the root
of the source could not be looked at before, or the source leads over the destination or to a directory on the
way there that the copy made.  On the way are the directories above the destination's path, and those above its
clean form if this leads elsewhere. -/
theorem counts_agree (w : Walk.Scope) (dest : Bytes) (d : Disk) :
    ((Copy.run w dest true d).1.count, (Copy.run w dest true d).2) = files w d ∧
    (∀ f, bySubdir w d = .error f ↔ (files w d).2 = some f) ∧
    (∀ counts, bySubdir w d = .ok counts → total counts = Int64.ofNat (files w d).1) ∧
    (∀ s, Copy.Detached w.tree w.root dest d → Copy.run w dest false d = (s, none) →
      ((files w d).2 = none → s.count = (files w d).1) ∧
      ((files w d).2 ≠ none → (∀ info, w.tree.stat d w.root ≠ .ok info) ∨
        ∃ x, ¬ w.tree.Apart w.root d (d.goal x) ∧
          (x = Path.clean dest ∨ (d.get? (d.goal x) = none ∧
            (Above dest x ∨ (¬ Copy.Straight dest d ∧ Above (Path.clean dest) x)))))) :=
  ⟨Copy.run_dryRun_count w dest d, fun _ => bySubdir_error, fun _ => total_bySubdir,
    fun _ h hrun => ⟨h.count_eq hrun, h.not_counted hrun⟩⟩

/-- A source with a link to a directory that is not there yet. -/
def linkToLaterDirectory : Disk :=
  { entries :=
      [([("src" : Bytes)], .dir 0o755),
        ([("src" : Bytes), ("a" : Bytes)], .file 0o644 "x"),
        ([("src" : Bytes), ("l" : Bytes)], .link "../y"),
        ([("src" : Bytes), ("sub" : Bytes)], .dir 0o755),
        ([("src" : Bytes), ("sub" : Bytes), ("b" : Bytes)], .file 0o644 "")] }

theorem linkToLaterDirectory_detached : Copy.Detached (.onDisk "/src") "." "/y/out" linkToLaterDirectory := by
  refine ⟨sound_of_entries (by decide), trivial, noLinkIn_of_entries (by decide +kernel), ?_⟩
  intro path hpath
  cases hpath
  exact aloof_of_entries (by decide +kernel) (by decide +kernel) (by decide +kernel)

/-- Without the link all counts are the same. -/
theorem counts_agree_linkToLaterDirectory :
    Copy.Detached (.onDisk "/src") "." "/y/out" linkToLaterDirectory ∧
      (Copy.run ⟨.onDisk "/src", ".", ["l"]⟩ "/y/out" false linkToLaterDirectory).2.isNone = true ∧
      (Copy.run ⟨.onDisk "/src", ".", ["l"]⟩ "/y/out" false linkToLaterDirectory).1.count =
        (Copy.run ⟨.onDisk "/src", ".", ["l"]⟩ "/y/out" true linkToLaterDirectory).1.count ∧
      (bySubdir ⟨.onDisk "/src", ".", ["l"]⟩ linkToLaterDirectory).toOption = some [⟨".", 1⟩, ⟨"sub", 1⟩] := by
  obtain ⟨hdry, -, -, hcopy⟩ := counts_agree ⟨.onDisk "/src", ".", ["l"]⟩ "/y/out" linkToLaterDirectory
  have hnone : (Copy.run ⟨.onDisk "/src", ".", ["l"]⟩ "/y/out" false linkToLaterDirectory).2.isNone = true := by
    decide +kernel
  have hok : (files ⟨.onDisk "/src", ".", ["l"]⟩ linkToLaterDirectory).2 = none :=
    Option.isNone_iff_eq_none.mp (by decide +kernel)
  have hrun : Copy.run ⟨.onDisk "/src", ".", ["l"]⟩ "/y/out" false linkToLaterDirectory =
      ((Copy.run ⟨.onDisk "/src", ".", ["l"]⟩ "/y/out" false linkToLaterDirectory).1, none) :=
    Prod.ext rfl (Option.isNone_iff_eq_none.mp hnone)
  have hcount := (hcopy _ linkToLaterDirectory_detached hrun).1 hok
  exact ⟨linkToLaterDirectory_detached, hnone, hcount.trans (congrArg Prod.fst hdry).symm, by decide +kernel⟩

/-- **A copy can succeed where counting fails.**  The copy makes `/y` before it comes to the link. -/
theorem copied_though_not_counted :
    Copy.Detached (.onDisk "/src") "." "/y/out" linkToLaterDirectory ∧
      (files ⟨.onDisk "/src", ".", []⟩ linkToLaterDirectory).2.isSome = true ∧
      (Copy.run ⟨.onDisk "/src", ".", []⟩ "/y/out" true linkToLaterDirectory).2.isSome = true ∧
      (Copy.run ⟨.onDisk "/src", ".", []⟩ "/y/out" false linkToLaterDirectory).2.isNone = true ∧
      (Copy.run ⟨.onDisk "/src", ".", []⟩ "/y/out" false linkToLaterDirectory).1.count = 2 :=
  ⟨linkToLaterDirectory_detached, by decide +kernel, by decide +kernel, by decide +kernel, by decide +kernel⟩

end Count

end AgentKit
