import AgentKit.Proofs.Outcomes
/-!
# The source is left alone

An installation reads from one directory of a disk and writes to another.  It writes through whatever is
at its paths already.  So a link in the kit that leads into the source takes it there, however far apart
the two directories are (`source_emptied_through_link`).

`Clear` excludes just this: from the kit, no name that the source has leads over a place in the source.
It speaks of the disk before the installation, while the writing goes on with a disk that changes.  But
every change is an edit.  An edit makes no link, and where it takes one away it leaves a file
(`FewerLinks`).  So what a path leads to later is on the trail that it had at first, or is the end of it:
a link that is a file by now (`Follows.on_trail`).

1. Links that become files.
2. Edits below a directory.
3. Copies that keep out of their source.
4. Installations.

In contrast to what is proved about copies elsewhere, links are allowed in the destination here.  Then there is no
telling what is at the places of the files after the copy: two of them may be the same place by way of a link.  That the
source keeps all that it has can be told nevertheless, and also for an installation that fails.  For what was copied
there is a second part, with the stronger assumption that the kit has no links (`Fenced`).
-/

namespace AgentKit

namespace Disk

variable {d d' b d₁ d₂ : Disk} {follow : Bool} {n m : Nat} {p r S P : Place}
  {q ns ms exclude : List Bytes} {path dest x : Bytes} {e : Entry}

/-! ## 1. Links that become files

A link goes away when a file that may not be written is replaced: it is the link that is replaced and not what it
leads to.  This can only make paths shorter. -/

/-- No link has come.  Where one has gone there is a file. -/
structure FewerLinks (d d' : Disk) : Prop where
  link : ∀ p t, d'.get? p = some (.link t) → d.get? p = some (.link t)
  file : ∀ p m c, d.get? p = some (.file m c) → ∃ m' c', d'.get? p = some (.file m' c')
  gone : ∀ p t, d.get? p = some (.link t) →
    d'.get? p = some (.link t) ∨ ∃ m c, d'.get? p = some (.file m c)

theorem FewerLinks.refl (d : Disk) : FewerLinks d d :=
  ⟨fun _ _ h => h, fun _ m c h => ⟨m, c, h⟩, fun _ _ h => Or.inl h⟩

theorem FewerLinks.trans (h : FewerLinks d d₁) (h' : FewerLinks d₁ d₂) : FewerLinks d d₂ := by
  refine ⟨fun p t hp => h.link p t (h'.link p t hp), fun p m c hp => ?_, fun p t hp => ?_⟩
  · obtain ⟨m₁, c₁, hp₁⟩ := h.file p m c hp
    exact h'.file p m₁ c₁ hp₁
  · rcases h.gone p t hp with hp | ⟨m, c, hp⟩
    · exact h'.gone p t hp
    · exact Or.inr (h'.file p m c hp)

/-- An edit puts a file at a place, or a directory where nothing was. -/
theorem Edit.fewerLinks (h : Edit d path d') : FewerLinks d d' := by
  rcases h with @⟨p, m, c, _, hputs⟩ | @⟨p, m, _, hnone, hputs⟩
  · refine ⟨fun q t hq => ?_, fun q k a hq => ?_, fun q t hq => ?_⟩
    · rw [hputs.get?] at hq
      split at hq
      · cases hq
      · exact hq
    · rw [hputs.get?]
      split
      · exact ⟨_, c, rfl⟩
      · exact ⟨k, a, hq⟩
    · rw [hputs.get?]
      split
      · exact Or.inr ⟨_, c, rfl⟩
      · exact Or.inl hq
  · have hother : ∀ {q e}, d.get? q = some e → d'.get? q = some e := by
      intro q e hq
      have hne : q ≠ p := by
        rintro rfl
        rw [hnone] at hq
        cases hq
      rwa [hputs.other hne]
    refine ⟨fun q t hq => ?_, fun q k a hq => ⟨k, a, hother hq⟩, fun q t hq => Or.inl (hother hq)⟩
    rw [hputs.get?] at hq
    split at hq
    · cases hq
    · exact hq

/-- On a trail of the disk `d`, or a link that is one name off it. -/
def OnTrail (d : Disk) (trail : List Place) (r : Place) : Prop :=
  r ∈ trail ∨ (∃ t, d.get? r = some (.link t)) ∧ r.dropLast ∈ trail

theorem OnTrail.cons {trail : List Place} (h : d.OnTrail trail r) (p : Place) :
    d.OnTrail (p :: trail) r :=
  h.imp (List.mem_cons_of_mem p) fun h => ⟨h.1, List.mem_cons_of_mem p h.2⟩

theorem onTrail_link {name t : Bytes} (h : d.get? (p ++ [name]) = some (.link t)) :
    d.OnTrail (d.trailWithin n p ns) (p ++ [name]) := by
  refine Or.inr ⟨⟨t, h⟩, ?_⟩
  rw [List.dropLast_concat]
  exact mem_trailWithin_self

/-- **Names lead on along the trail that they had.**  Only at its end there may be a file in the place of
a link that the trail followed. -/
theorem Follows.on_trail (h : Follows d' follow n p ns r) (hf : FewerLinks d d') :
    d.OnTrail (d.trailWithin n p ns) r := by
  -- Along the derivation on the later disk.  The trail of the first disk goes the same steps as long as the
  -- links are there.
  induction h with
  | stop n p => exact Or.inl mem_trailWithin_self
  | dot _ _ ih =>
    rw [trailWithin_dot]
    exact ih.cons _
  | up _ _ ih =>
    rw [trailWithin_up]
    exact ih.cons _
  | @into n p r name rest k _ hn hk _ ih =>
    have hno : ∀ t, d.get? (p ++ [name]) ≠ some (.link t) := by
      intro t ht
      rcases hf.gone _ t ht with h | ⟨m, c, h⟩ <;> rw [hk] at h <;> cases h
    rw [trailWithin_on ⟨hn.ne_dot, hn.ne_up⟩ hno]
    exact ih.cons _
  | @last n p name _ hn _ =>
    -- There is no link now, but there may have been one.
    by_cases hlink : ∃ t, d.get? (p ++ [name]) = some (.link t)
    · obtain ⟨t, ht⟩ := hlink
      exact onTrail_link ht
    · rw [trailWithin_on ⟨hn.ne_dot, hn.ne_up⟩ fun t ht => hlink ⟨t, ht⟩]
      exact OnTrail.cons (Or.inl mem_trailWithin_self) _
  | link _ hn hk _ _ ih =>
    rw [trailWithin_link ⟨hn.ne_dot, hn.ne_up⟩ (hf.link _ _ hk)]
    exact ih.cons _
  | lastLink _ _ hk _ => exact onTrail_link (hf.link _ _ hk)

/-- From `P`, no name that `S` has leads over a place in `S`, except for those that are left out. -/
def Clear (d : Disk) (exclude : List Bytes) (S P : Place) : Prop :=
  ∀ q e, d.get? (S ++ q) = some e → Walk.Kept exclude q →
    ∀ r ∈ d.trailWithin maxLinks P q, ¬ S <+: r

theorem Clear.not_around (h : d.Clear exclude S P) (hS : d.get? S = some e) : ¬ S <+: P :=
  h [] e (by rwa [List.append_nil]) (Walk.kept_nil exclude) P mem_trailWithin_self

/-- Names lead into a directory without links, and no further. -/
theorem NoLinkIn.prefix_of_mem_trail (hno : NoLinkIn P d) : ∀ {q : List Bytes} {p : Place},
    (∀ n ∈ q, Path.IsName n) → P <+: p → r ∈ d.trailWithin n p q → P <+: r
  | [], p, _, hp, hr => by
    rw [trailWithin_nil, List.mem_singleton] at hr
    exact hr ▸ hp
  | name :: q, p, hq, hp, hr => by
    have hname := hq name (by simp)
    have hp' : P <+: p ++ [name] := hp.trans (List.prefix_append p [name])
    rw [trailWithin_on ⟨hname.ne_dot, hname.ne_up⟩ fun t => hno _ t hp', List.mem_cons] at hr
    rcases hr with rfl | hr
    · exact hp
    · exact hno.prefix_of_mem_trail (fun n hn => hq n (by simp [hn])) hp' hr

/-- A directory without links is clear of all that is not inside or around it. -/
theorem clear_of_noLink (hd : d.Sound) (hno : NoLinkIn P d) (hin : ¬ P <+: S) (haround : ¬ S <+: P) :
    d.Clear exclude S P := by
  intro q e hq _ r hr hS
  have hP := hno.prefix_of_mem_trail (hd.names_below hq) (List.prefix_refl P) hr
  exact (List.prefix_or_prefix_of_prefix hS hP).elim haround hin

theorem clear_of_entries (hS : S ≠ []) (h : ∀ x ∈ d.entries, S <+: x.1 →
      ∀ r ∈ d.trailWithin maxLinks P (x.1.drop S.length), ¬ S <+: r) : d.Clear exclude S P := by
  intro q e hq _
  have hmem := mem_entries (by simp [hS]) hq
  have hclear := h _ hmem (List.prefix_append S q)
  rwa [List.drop_left] at hclear

/-- **What is clear of the source stays clear of it while links become files.** -/
theorem Clear.outside (h : d.Clear exclude S P) (hS : d.get? S = some (.dir m)) (hf : FewerLinks d d')
    (hq : d.get? (S ++ q) = some e) (hkept : Walk.Kept exclude q) (hn : n ≤ maxLinks)
    (hr : Follows d' follow n P q r) : ¬ S <+: r := by
  have htrail : ∀ r ∈ d.trailWithin n P q, ¬ S <+: r :=
    fun r hr => h q e hq hkept r (trailWithin_subset hn P q hr)
  rcases hr.on_trail hf with hr | ⟨⟨t, ht⟩, hr⟩
  · exact htrail r hr
  · rintro ⟨u, rfl⟩
    by_cases hu : u = []
    · rw [hu, List.append_nil, hS] at ht
      cases ht
    · rw [List.dropLast_append_of_ne_nil hu] at hr
      exact htrail _ hr (List.prefix_append S _)

/-! ## 2. Edits below a directory

A copy edits at paths below its destination and on the way there.  Where the destination is there the way has
been made, so it is left alone. -/

/-- Before a path below a directory there are paths below it, and those that lead to it. -/
theorem Above.of_below (hdest : Path.Settled dest) (hne : q ≠ []) (hq : ∀ n ∈ q, Path.IsName n)
    (h : Above (Path.below dest (Path.join q)) x) :
    (∃ ms, ms ≠ [] ∧ ms <+: Path.cleanNames dest ∧ x = Path.spell true ms) ∨
      ∃ q', q' ≠ [] ∧ q' <+: q ∧ x = Path.below dest (Path.join q') := by
  rw [Path.below_join dest hne hq, hdest.absolute] at h
  obtain ⟨ms, hms, hpre, rfl⟩ := h.of_spell (by simp [hne]) (Path.forall_cleanNames_append dest hq)
  rcases List.prefix_or_prefix_of_prefix hpre (List.prefix_append (Path.cleanNames dest) q) with
    hms' | ⟨q', rfl⟩
  · exact Or.inl ⟨ms, hms, hms', rfl⟩
  · by_cases hq' : q' = []
    · subst hq'
      exact Or.inl ⟨_, hms, by simp, rfl⟩
    · have hpre' := (List.prefix_append_right_inj _).mp hpre
      refine Or.inr ⟨q', hq', hpre', ?_⟩
      rw [Path.below_join dest hq' fun n hn => hq n (hpre'.subset hn), hdest.absolute]

/-- The paths that lead to a directory lead to directories. -/
theorem locate_before (hdest : Path.Settled dest) (hfind : d.find true dest = .ok (P, .dir m))
    (hms : ms ≠ []) (hpre : ms <+: Path.cleanNames dest) (hu : Usable (Path.spell true ms)) :
    ∃ r k, d.locate true (Path.spell true ms) = .ok r ∧ d.get? r = some (.dir k) := by
  obtain ⟨hl, hP, -⟩ := find_eq_ok.mp hfind
  have hfol := (locate_eq_ok.mp hl).2
  have hwhole : ∀ n ∈ Path.cleanNames dest, n ≠ [] ∧ byte '/' ∉ n := fun _ => Path.mem_cleanNames
  have hpart : ∀ n ∈ ms, n ≠ [] ∧ byte '/' ∉ n := fun n hn => hwhole n (hpre.subset hn)
  have hstart : ∀ {ns : List Bytes}, d.start (Path.spell true ns) = [] := fun {ns} => by
    simp [Disk.start, Path.spell, Path.isAbsolute]
  rw [hdest.spelled, hstart, Path.names_spell true hdest.names hwhole] at hfol
  obtain ⟨rest, hrest⟩ := hpre
  rw [← hrest] at hfol
  have hleads : ∃ r k, Follows d true maxLinks [] ms r ∧ d.get? r = some (.dir k) := by
    by_cases hnil : rest = []
    · rw [hnil, List.append_nil] at hfol
      exact ⟨P, m, hfol, hP⟩
    · obtain ⟨r, hr, k, hk, -⟩ := hfol.cut hnil
      exact ⟨r, k, hr, hk⟩
  obtain ⟨r, k, hr, hk⟩ := hleads
  refine ⟨r, k, locate_eq_ok.mpr ⟨hu, ?_⟩, hk⟩
  rwa [hstart, Path.names_spell true hms hpart]

/-- A path below a directory leads on from where the directory is. -/
theorem follows_of_below (hdest : Path.Settled dest) (hfind : d.find true dest = .ok (P, .dir m))
    (hne : q ≠ []) (hq : ∀ n ∈ q, Path.IsName n)
    (hl : d.locate follow (Path.below dest (Path.join q)) = .ok r) :
    ∃ n ≤ maxLinks, ∃ follow', Follows d follow' n P q r := by
  obtain ⟨hl', hP, -⟩ := find_eq_ok.mp hfind
  have hdir := (locate_eq_ok.mp hl').2
  have hpath := (locate_eq_ok.mp hl).2
  have hclean : Path.names dest = Path.cleanNames dest := by
    conv_lhs => rw [hdest.spelled]
    exact Path.names_spell true hdest.names fun _ => Path.mem_cleanNames
  rw [hclean] at hdir
  rw [names_below dest hne hq, start_below d dest hne hq] at hpath
  obtain ⟨n, hn, heq⟩ := hdir.append_eq hP
  have hfollow := followWithin_eq_ok.mpr hpath
  rw [heq d _ q (Keeps.refl d) hne] at hfollow
  exact ⟨n, hn, _, followWithin_eq_ok.mp hfollow⟩

/-- What is left of the disk `b` after edits that keep out of `S`. -/
structure Spared (b : Disk) (S : Place) (d : Disk) : Prop where
  upholds : Upholds b d
  links : FewerLinks b d
  same : ∀ r, S <+: r → d.get? r = b.get? r

theorem Spared.refl (b : Disk) (S : Place) : Spared b S b :=
  ⟨Upholds.refl b, FewerLinks.refl b, fun _ _ => rfl⟩

section

variable {k : Nat} (hb : b.Sound) (hdest : Path.Settled dest)
  (hfind : b.find true dest = .ok (P, .dir m)) (hS : b.get? S = some (.dir k))
  (hclear : b.Clear exclude S P)
include hb hdest hfind hS hclear

/-- **An edit on the way to the copy of something in `S` keeps out of `S`.** -/
theorem Spared.edit (h : Spared b S d₁) (hne : q ≠ []) (hq : b.get? (S ++ q) = some e)
    (hkept : Walk.Kept exclude q) (hx : Above (Path.below dest (Path.join q)) x) (hedit : Edit d₁ x d₂) :
    Spared b S d₂ := by
  have hnames := hb.names_below hq
  have hfind₁ := h.upholds.find hfind
  refine ⟨h.upholds.trans hedit.upholds, h.links.trans hedit.fewerLinks, fun r hr => ?_⟩
  obtain ⟨p, e', follow, hl, hputs⟩ := hedit.puts
  rcases hx.of_below hdest hne hnames with ⟨ms, hms, hpre, rfl⟩ | ⟨q', hne', hpre, rfl⟩
  · -- Before the destination there are directories, and those are not edited.
    obtain ⟨r, j, hr, hj⟩ := locate_before hdest hfind₁ hms hpre (usable_of_locate hl)
    exact absurd hj (hedit.ne_dir hr j)
  · obtain ⟨n, hn, follow', hfol⟩ :=
      follows_of_below hdest hfind₁ hne' (fun n hn => hnames n (hpre.subset hn)) hl
    have hsome : b.get? (S ++ q') ≠ none := by
      intro hnone
      obtain ⟨rest, rfl⟩ := hpre
      rw [← List.append_assoc, hb.get?_below hnone] at hq
      cases hq
    obtain ⟨e'', hq'⟩ := Option.ne_none_iff_exists'.mp hsome
    have hout : ¬ S <+: p := hclear.outside hS h.links hq' (hkept.of_prefix hpre) hn hfol
    have hrp : r ≠ p := fun heq => hout (heq ▸ hr)
    rw [hputs.other hrp, h.same r hr]

theorem Spared.edits (h : Spared b S d₁) (hne : q ≠ []) (hq : b.get? (S ++ q) = some e)
    (hkept : Walk.Kept exclude q) (hedits : Edits (Above (Path.below dest (Path.join q))) d₁ d₂) :
    Spared b S d₂ := by
  induction hedits with
  | none => exact h
  | more _ hx hedit ih => exact ih.edit hb hdest hfind hS hclear hne hq hkept hx hedit

end

end Disk

/-! ## 3. Copies that keep out of their source

What is listed in the source is what it had at first, since nothing in it has changed.  This is used to know what
is visited, and so it has to be proved together with what the visits do. -/

/-- The directory on disk that a tree shows. -/
def Tree.directory? : Tree → Option Bytes
  | .onDisk dir => some dir
  | .inMemory _ => none
  | .faulty _ t => t.directory?

/-- A tree with faults lists what the directory under it has. -/
theorem Tree.list_directory {d : Disk} {dir name : Bytes} {ls : List Listed} : ∀ {t : Tree},
    t.directory? = some dir → t.list d name = .ok ls → (Tree.onDisk dir).list d name = .ok ls
  | .onDisk _, ht, h => by
    cases ht
    exact h
  | .faulty _ t, ht, h => list_directory (t := t) ht (list_of_faulty h)

theorem Tree.apart_directory {d : Disk} {dir root : Bytes} {P : Place} : ∀ {t : Tree},
    t.directory? = some dir → t.Apart root d P → (Tree.onDisk dir).Apart root d P
  | .onDisk _, ht, h => by
    cases ht
    exact h
  | .faulty _ t, ht, h => apart_directory (t := t) ht h

/-- What is listed in a source that is spared is in it. -/
theorem Disk.Spared.listed {b d : Disk} {S : Place} {t : Tree} {dir root : Bytes} {q : List Bytes} {m : Nat}
    {ls : List Listed} {l : Listed} (h : Spared b S d) (hb : b.Sound) (hdir : t.directory? = some dir)
    (hroot : Tree.RootAt b dir root S) (hq : b.get? (S ++ q) = some (.dir m))
    (hls : t.list d (Path.nameAt root q) = .ok ls) (hl : l ∈ ls) :
    ∃ e, b.get? (S ++ (q ++ [l.name])) = some e ∧ e.kind = l.kind := by
  obtain ⟨path, j, hpath, hfind⟩ := hroot
  have hroot' : Tree.RootAt d dir root S := ⟨path, j, hpath, h.upholds.find hfind⟩
  have hpaved : d.Paved S q := by
    intro r hr
    obtain ⟨i, hi⟩ := hb.paved hq r hr
    exact ⟨i, by rw [h.same _ (List.prefix_append S r), hi]⟩
  obtain ⟨path', p, e, hpath', hfind', -, rfl⟩ := Tree.list_onDisk.mp (Tree.list_directory hdir hls)
  have hp := hroot'.place (hb.names_below hq) hpaved hpath' hfind'
  obtain ⟨⟨n, kind⟩, hmem, rfl⟩ := List.mem_map.mp hl
  obtain ⟨e', he', hkind⟩ := mem_listing.mp hmem
  rw [hp, List.append_assoc, h.same _ (List.prefix_append S _)] at he'
  exact ⟨e', he', hkind⟩

namespace Copy

open Disk

variable {w : Walk.Scope} {dir dest : Bytes} {dryRun : Bool} {d b : Disk} {s : State} {S P : Place}
  {m k : Nat}

/-- A walk through a source that is spared keeps to it, and spares it. -/
theorem guided_spared (hb : b.Sound) (hdest : Path.Settled dest)
    (hfind : b.find true dest = .ok (P, .dir m)) (hclear : b.Clear w.exclude S P)
    (hdir : w.tree.directory? = some dir) (hroot : Tree.RootAt b dir w.root S) (dryRun : Bool) :
    Walk.Guided w { disk := State.disk, visit := visit w.tree dest dryRun }
      (fun q kind => Walk.Kept w.exclude q ∧ ∃ e, b.get? (S ++ q) = some e ∧ e.kind = kind)
      (fun s => Spared b S s.disk) (fun _ => True) := by
  have hS : ∃ j, b.get? S = some (.dir j) := by
    obtain ⟨path, j, -, hfindS⟩ := hroot
    exact ⟨j, (find_eq_ok.mp hfindS).2.1⟩
  obtain ⟨j, hS⟩ := hS
  constructor
  · intro s info _ _ _
    exact ⟨Walk.kept_nil _, _, by rwa [List.append_nil], rfl⟩
  · rintro s q ls l hs ⟨hkept, e, hq, he⟩ hls hl hsees
    obtain ⟨i, rfl⟩ := Walk.kind_eq_dir he
    obtain ⟨e', he', hkind⟩ := hs.listed hb hdir hroot hq hls hl
    unfold Walk.Scope.Sees at hsees
    rw [Path.relativeTo_nameAt (by simp) (hb.names_below he')] at hsees
    exact ⟨hkept.concat hsees, e', he', hkind⟩
  · rintro s q n kind isDir hs ⟨hkept, e, hq, -⟩
    refine ⟨?_, fun _ _ => trivial⟩
    have hedits := visit_edits w.tree dest dryRun (w.visitOf (Path.nameAt w.root (q ++ [n])) isDir) s
    have hrel : (w.visitOf (Path.nameAt w.root (q ++ [n])) isDir).rel = Path.join (q ++ [n]) :=
      Path.relativeTo_nameAt (by simp) (hb.names_below hq)
    rw [hrel] at hedits
    exact hs.edits hb hdest hfind hS hclear (by simp) hq hkept hedits
  · exact fun _ _ => trivial
  · exact fun _ _ => trivial

section

variable (hdest : Path.Settled dest) (hdir : w.tree.directory? = some dir)
  (hroot : Tree.RootAt d dir w.root S) (hclear : d.Clear w.exclude S (d.goal dest))
include hdest hdir hroot hclear

/-- **A walk that copies keeps out of the source**, once the destination is there. -/
theorem walk_spares (hmade : Made dest d b) (hb : b.Sound) (dryRun : Bool) {r : Place} (hr : S <+: r) :
    (Walk.run w { disk := State.disk, visit := visit w.tree dest dryRun } { disk := b }).1.disk.get? r =
      d.get? r := by
  obtain ⟨path, j, hpath, hfindS⟩ := hroot
  obtain ⟨P, m, hfind⟩ := isDirectory_iff.mp hmade.after
  have hgoal : d.goal dest = P := hmade.keeps.goal_eq dest ▸ goal_of_find hfind
  -- Making the destination changed nothing in the source, and no link.
  have hsame : ∀ r, S <+: r → b.get? r = d.get? r := fun r hr =>
    hmade.other r fun heq => hclear.not_around (find_eq_ok.mp hfindS).2.1 (heq ▸ hr)
  have hbclear : b.Clear w.exclude S P := by
    intro q e hq
    rw [hsame _ (List.prefix_append S q)] at hq
    rw [trailWithin_congr hmade.keeps.link, ← hgoal]
    exact hclear q e hq
  have hbroot : Tree.RootAt b dir w.root S := ⟨path, j, hpath, hmade.keeps.upholds.find hfindS⟩
  have hguided := guided_spared hb hdest hfind hbclear hdir hbroot dryRun
  have hspared := (hguided.run_behaves { disk := b } (Spared.refl b S)).1
  exact (hspared.same r hr).trans (hsame r hr)

/-- **A copy keeps out of a source that its destination is clear of**, even if it fails. -/
theorem run_spares (hd : d.Sound)
    (hpar : ∀ parent, parentPath? dest = some parent → d.isDirectory parent = true) (dryRun : Bool) :
    ∀ r, S <+: r → (run w dest dryRun d).1.disk.get? r = d.get? r := by
  intro r hr
  have hsound := makeDirectories_sound hd dest directoryMode
  have hcourse := course w dest dryRun d
  cases dryRun with
  | true => rw [run_dryRun]
  | false =>
    generalize run w dest false d = result at hcourse ⊢
    cases hcourse with
    | malformed _ => rfl
    | unmade _ hm => rw [makeDirectories_failed hdest.ne_nil hpar hm]
    | walked _ hm =>
      have hmade := made_of_parent hdest.ne_nil hpar hm
      rw [hm] at hsound
      exact walk_spares hdest hdir hroot hclear hmade hsound false hr

end

/-- **What is copied is what the source had**, if nothing leads from one to the other. -/
theorem Ended.find_before {x : Visit} {d₀ : Disk} (h : Ended w dest (d.goal dest) d d₀ b s)
    (hmade : Made dest d d₀) (hclean : Path.clean dest = dest) (hd : d.Sound) (hproper : w.tree.Proper)
    (hno : NoLinkIn (d.goal dest) d) (hap : w.tree.Apart w.root d (d.goal dest))
    (hx : x ∈ (Walk.trace w d).1) (hfile : x.isDir = false) :
    ∃ m c, w.tree.read d x.name = .ok c ∧
      s.disk.find true (Path.below dest x.rel) = .ok (d.goal dest ++ x.path, .file m c) := by
  obtain ⟨info, hstat, -⟩ := Walk.root_of_mem_trace hx
  -- What is read after the copy is what could be read before.
  have hsame := Tree.openFile_visited hd h.keeps (h.outside hmade hclean) hno hap hx
  rw [← h.trace_before hmade hclean hd hno hap hstat, ← Walk.visits_eq_trace] at hx
  obtain ⟨r, _, ho, -, hfail, hfind⟩ := h.opened hd hproper hx hfile
  exact ⟨_, r.content, Tree.read_eq_ok.mpr ⟨r, hsame ▸ ho, hfail, rfl⟩, hfind⟩

end Copy

/-! ## 4. Installations

A destination in a project needs no directories but its own. -/

namespace Install

open Disk

variable {i : Install} {project dir : Bytes} {d d' : Disk} {t : Tree} {S : Place}
  {result : Except Failure Result} {r : Result}

theorem Course.spares (h : i.Course project d d' result) (hd : d.Sound)
    (ht : i.source.tree = some t) (hdir : t.directory? = some dir)
    (hroot : Tree.RootAt d dir i.source.root S)
    (hclear : ∀ root, Project.resolve d project = .ok root →
      d.Clear i.exclude S (d.goal (Project.kitPath root))) :
    ∀ p, S <+: p → d'.get? p = d.get? p := by
  have hcopy : ∀ {t' root s f}, i.source.check d = .ok t' → Project.resolve d project = .ok root →
      Copy.run ⟨t', i.source.root, i.exclude⟩ (Project.kitPath root) i.dryRun d = (s, f) →
      ∀ p, S <+: p → s.disk.get? p = d.get? p := by
    intro t' root s f hc hr hrun
    have ht' := (check_ok.mp hc).1
    rw [ht, Option.some.injEq] at ht'
    subst ht'
    have hspares := Copy.run_spares (w := ⟨t, i.source.root, i.exclude⟩)
      (settled_kitPath (Project.resolve_clean hr).1) hdir hroot (hclear root hr) hd
      (fun _ => Project.parent_kitPath hr) i.dryRun
    rw [hrun] at hspares
    exact hspares
  cases h with
  | noSource _ => exact fun _ _ => rfl
  | noTarget _ _ => exact fun _ _ => rfl
  | skipped _ _ _ _ => exact fun _ _ => rfl
  | failed hc hr _ hrun => exact hcopy hc hr hrun
  | copied hc hr _ hrun => exact hcopy hc hr hrun

/-- The kit in the project and the source have nothing to do with each other, and there are no links in the
kit. -/
structure Fenced (source : Source) (project : Bytes) (d : Disk) : Prop where
  sound : d.Sound
  proper : ∀ t, source.tree = some t → t.Proper
  noLink : ∀ root, Project.resolve d project = .ok root → NoLinkIn (d.goal (Project.kitPath root)) d
  apart : ∀ root t, Project.resolve d project = .ok root → source.tree = some t →
    t.Apart source.root d (d.goal (Project.kitPath root))

/-- A fence between the source and the kit keeps the kit clear of the source. -/
theorem Fenced.clear {root : Bytes} (h : Fenced i.source project d) (ht : i.source.tree = some t)
    (hdir : t.directory? = some dir) (hroot : Tree.RootAt d dir i.source.root S)
    (hr : Project.resolve d project = .ok root) : d.Clear i.exclude S (d.goal (Project.kitPath root)) := by
  obtain ⟨path, m, hpath, hfind⟩ := hroot
  have hap := Tree.apart_directory hdir (h.apart root t hr ht) path hpath
  rw [goal_of_find hfind] at hap
  exact clear_of_noLink h.sound (h.noLink root hr) hap.not_inside hap.not_around

/-- If it has copied, each file of the source can be found in the kit. -/
theorem Course.reads_back (h : i.Course project d d' (.ok r)) (hfenced : Fenced i.source project d)
    (ht : i.source.tree = some t) (hreal : i.dryRun = false) (hcopied : r.action ≠ .skipped) :
    ∀ x ∈ (Walk.trace ⟨t, i.source.root, i.exclude⟩ d).1, x.isDir = false →
      ∃ p m c, t.read d x.name = .ok c ∧
        d'.find true (Path.below r.destination x.rel) = .ok (p, .file m c) := by
  intro x hx hfile
  cases h with
  | skipped _ _ _ _ => exact absurd rfl hcopied
  | @copied t' root s hc hr _ hrun =>
    have ht' := (check_ok.mp hc).1
    rw [ht, Option.some.injEq] at ht'
    subst ht'
    rw [hreal] at hrun
    have hclean := Project.clean_kitPath (Project.resolve_clean hr).1
    have hproper := hfenced.proper t ht
    have hno := hfenced.noLink root hr
    have hap := hfenced.apart root t hr ht
    have hdet : Copy.Detached t i.source.root (Project.kitPath root) d :=
      ⟨hfenced.sound, hproper, hclean.symm ▸ hno, hclean.symm ▸ hap.aloof⟩
    obtain ⟨d₀, b, hended, hmade, -⟩ := copy_ended (w := ⟨t, i.source.root, i.exclude⟩) hr hdet hrun
    obtain ⟨m, c, hread, hfind⟩ :=
      hended.find_before hmade hclean hfenced.sound hproper hno hap hx hfile
    exact ⟨_, m, c, hread, hfind⟩

/-- **The source is left alone.**  Nothing in the directory of the source changes, if the kit is clear of
it, whatever the options and even if the installation fails.  If moreover there is no link in the kit, and
none in the source leads there, then what is copied is what the source had before. -/
theorem run_spares_source (hd : d.Sound) (ht : i.source.tree = some t) (hdir : t.directory? = some dir)
    (hroot : Tree.RootAt d dir i.source.root S) :
    ((∀ root, Project.resolve d project = .ok root → d.Clear i.exclude S (d.goal (Project.kitPath root))) →
      ∀ p, S <+: p → (i.run project d).disk.get? p = d.get? p) ∧
    (Fenced i.source project d →
      (∀ p, S <+: p → (i.run project d).disk.get? p = d.get? p) ∧
      ∀ r, (i.run project d).result = .ok r → i.dryRun = false → r.action ≠ .skipped →
        ∀ x ∈ (Walk.visits ⟨t, i.source.root, i.exclude⟩ d).1, x.isDir = false →
          ∃ p m c, t.read d x.name = .ok c ∧
            (i.run project d).disk.find true (Path.below r.destination x.rel) =
              .ok (p, .file m c)) := by
  have hcourse := course i project d
  refine ⟨hcourse.spares hd ht hdir hroot, fun hfenced => ⟨?_, fun r hr hreal hcopied => ?_⟩⟩
  · exact hcourse.spares hd ht hdir hroot fun root hr => hfenced.clear ht hdir hroot hr
  · rw [Walk.visits_eq_trace]
    rw [hr] at hcourse
    exact hcourse.reads_back hfenced ht hreal hcopied

/-- A disk with a source, and a kit with links that lead elsewhere. -/
def linksLeadingAway : Disk :=
  { entries :=
      [([("log" : Bytes)], .file 0o644 "old"),
        ([("p" : Bytes)], .dir 0o755),
        ([("p" : Bytes), (".agent" : Bytes)], .dir 0o755),
        ([("p" : Bytes), (".agent" : Bytes), ("a" : Bytes)], .link "../../log"),
        ([("p" : Bytes), (".agent" : Bytes), ("sub" : Bytes)], .link "/var"),
        ([("src" : Bytes)], .dir 0o755),
        ([("src" : Bytes), ("a" : Bytes)], .file 0o644 "x"),
        ([("src" : Bytes), ("sub" : Bytes)], .dir 0o755),
        ([("src" : Bytes), ("sub" : Bytes), ("b" : Bytes)], .file 0o644 "y"),
        ([("var" : Bytes)], .dir 0o755)] }

/-- A disk with a source, and a kit with a link into it. -/
def linkIntoSource : Disk :=
  { entries :=
      [([("p" : Bytes)], .dir 0o755),
        ([("p" : Bytes), (".agent" : Bytes)], .dir 0o755),
        ([("p" : Bytes), (".agent" : Bytes), ("a" : Bytes)], .link "../../src/a"),
        ([("src" : Bytes)], .dir 0o755),
        ([("src" : Bytes), ("a" : Bytes)], .file 0o644 "x")] }

def overwriteFromSource : Install := { source := { tree := some (.onDisk "/src"), label := "src" }, force := true }

theorem rootAt_linksLeadingAway : Tree.RootAt linksLeadingAway "/src" "." [("src" : Bytes)] := ⟨_, _, rfl, rfl⟩

/-- A kit with a link, and a project with an older kit that has a file of its own. -/
def olderKitBesideKit : Disk :=
  { entries :=
      [([("kit" : Bytes)], .dir 0o755),
        ([("kit" : Bytes), ("a" : Bytes)], .file 0o644 "1"),
        ([("kit" : Bytes), ("b" : Bytes)], .link "a"),
        ([("kit" : Bytes), ("sub" : Bytes)], .dir 0o755),
        ([("kit" : Bytes), ("sub" : Bytes), ("c" : Bytes)], .file 0o755 "2"),
        ([("p" : Bytes)], .dir 0o755),
        ([("p" : Bytes), (".agent" : Bytes)], .dir 0o755),
        ([("p" : Bytes), (".agent" : Bytes), ("a" : Bytes)], .file 0o444 "0"),
        ([("p" : Bytes), (".agent" : Bytes), ("own" : Bytes)], .file 0o644 "3")] }

/-- The install of the kit. -/
def overwriteFromKit : Install := { source := { tree := some (.onDisk "/kit"), label := "kit" }, force := true }

theorem olderKitBesideKit_fenced : Fenced overwriteFromKit.source "/p" olderKitBesideKit := by
  have hroot : ∀ {root}, Project.resolve olderKitBesideKit "/p" = .ok root → root = "/p" :=
    fun h => (Project.resolve_absolute rfl h).trans (by decide)
  refine ⟨sound_of_entries (by decide), ?_, fun root h => ?_, fun root t h ht => ?_⟩
  · rintro t ht
    cases ht
    trivial
  · cases hroot h
    exact noLinkIn_of_entries (by decide +kernel)
  · cases hroot h
    cases ht
    intro path hpath
    cases hpath
    exact apart_of_entries (by decide +kernel) (by decide +kernel) (by decide +kernel)

theorem rootAt_olderKitBesideKit : Tree.RootAt olderKitBesideKit "/kit" "." [("kit" : Bytes)] := ⟨_, _, rfl, rfl⟩

/-- What is installed goes where the links lead.  On the disk without links it is where it belongs. -/
theorem run_spares_source_linksLeadingAway :
    (∀ p, [("src" : Bytes)] <+: p →
      (overwriteFromSource.run "/p" linksLeadingAway).disk.get? p = linksLeadingAway.get? p) ∧
      (overwriteFromSource.run "/p" linksLeadingAway).disk.get? [("log" : Bytes)] = some (.file 0o644 "x") ∧
      (overwriteFromSource.run "/p" linksLeadingAway).disk.get? [("var" : Bytes), ("b" : Bytes)] =
        some (.file 0o644 "y") ∧
      ∃ p m c, (Tree.onDisk "/kit").read olderKitBesideKit "sub/c" = .ok c ∧
        (overwriteFromKit.run "/p" olderKitBesideKit).disk.find true "/p/.agent/sub/c" = .ok (p, .file m c) := by
  have hclear : ∀ root, Project.resolve linksLeadingAway "/p" = .ok root →
      linksLeadingAway.Clear overwriteFromSource.exclude [("src" : Bytes)]
        (linksLeadingAway.goal (Project.kitPath root)) := by
    intro root h
    have hroot : root = "/p" := (Project.resolve_absolute rfl h).trans (by decide)
    subst hroot
    exact clear_of_entries (by decide) (by decide +kernel)
  have hspared : ∀ p, [("src" : Bytes)] <+: p →
      (overwriteFromSource.run "/p" linksLeadingAway).disk.get? p = linksLeadingAway.get? p :=
    (run_spares_source (sound_of_entries (by decide)) rfl rfl rootAt_linksLeadingAway).1 hclear
  have hkit := (run_spares_source olderKitBesideKit_fenced.sound rfl rfl rootAt_olderKitBesideKit).2
    olderKitBesideKit_fenced
  have hres : (overwriteFromKit.run "/p" olderKitBesideKit).result.toOption = some ⟨.updated, 3, "/p/.agent"⟩ := by
    decide +kernel
  exact ⟨hspared, by decide +kernel, by decide +kernel,
    hkit.2 _ (ok_of_toOption hres) rfl (by decide) ⟨"sub/c", "sub/c", false⟩ (by decide +kernel) rfl⟩

/-- **A link in the kit may cost the source its files.**  The file is emptied before it is read. -/
theorem source_emptied_through_link :
    linkIntoSource.Sound ∧ Tree.RootAt linkIntoSource "/src" "." [("src" : Bytes)] ∧
      linkIntoSource.goal (Project.kitPath "/p") = [("p" : Bytes), (".agent" : Bytes)] ∧
      (overwriteFromSource.run "/p" linkIntoSource).result.toOption = some ⟨.updated, 1, "/p/.agent"⟩ ∧
      linkIntoSource.get? [("src" : Bytes), ("a" : Bytes)] = some (.file 0o644 "x") ∧
      (overwriteFromSource.run "/p" linkIntoSource).disk.get? [("src" : Bytes), ("a" : Bytes)] =
        some (.file 0o644 "") :=
  ⟨sound_of_entries (by decide), ⟨_, _, rfl, rfl⟩, by decide +kernel, by decide +kernel,
    by decide +kernel, by decide +kernel⟩

end Install

end AgentKit
