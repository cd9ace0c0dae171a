import AgentKit.Proofs.Outcomes
/-!
# Scripts after an install

Helper scripts of the bundled kit may be run, and a new file that is copied from one may be run as well.
But a copy that finds a file it may write writes into it and leaves its mode alone.  So a script that is
installed over a file can be left without permission to run.

Where there are links, a path can lead anywhere, also to the file of another path.  What is true of all
disks is said with two invariants of a copy: whatever has been visited leads to a file that may be written,
and no later visit changes where it leads (`Served`); and every file has the mode it had in the beginning, or
the mode of some visit that leads to it (`Stems`).

1. Ways to files that may be written, which no edit breaks (`Edit.serves`).
2. What a visit keeps (`Traced.visit`), and what a copy from memory comes to (`run_traced`).
3. The bundled kit.
4. **Which scripts may be run after an install** (`run_scripts`), and one that may not
   (`script_left_without_permission`).

The two invariants need each other.  That a file stems from a visit is of use only as long as the visit still leads to it,
and it does because the file may be written and is therefore never replaced.  A file that may not be written can be
taken away to make room for another, and a link that leads to one as well; so ways to such files do break.

The kit is in memory and the walk through it sees the same whatever is on the disk.  This is why nothing has to be assumed
of the disk for the first part of the result.
-/

namespace AgentKit

namespace Disk

variable {d d' d₁ d₂ : Disk} {n : Nat} {p q : Place} {ns : List Bytes} {path : Bytes} {m mode : Nat}
  {c : Bytes}

/-! ## 1. Ways to files

An edit takes a link away only if it led neither to a directory nor to a file that may be written. -/

/-- Whatever leads to a file that may be written still leads to it, and the file has the same mode. -/
structure Serves (d d' : Disk) : Prop where
  here : d'.here = d.here
  leads : ∀ {n p ns q m c}, Follows d true n p ns q → d.get? q = some (.file m c) →
    writable m = true → Follows d' true n p ns q ∧ ∃ c', d'.get? q = some (.file m c')

theorem Serves.refl (d : Disk) : Serves d d := ⟨rfl, fun h hq _ => ⟨h, _, hq⟩⟩

theorem Serves.trans (h : Serves d d₁) (h' : Serves d₁ d₂) : Serves d d₂ := by
  refine ⟨h'.here.trans h.here, fun hf hq hw => ?_⟩
  obtain ⟨hf₁, c₁, hq₁⟩ := h.leads hf hq hw
  exact h'.leads hf₁ hq₁ hw

theorem Serves.find (h : Serves d d') (hw : writable m = true)
    (hf : d.find true path = .ok (q, .file m c)) : ∃ c', d'.find true path = .ok (q, .file m c') := by
  obtain ⟨hl, hq, hslash⟩ := find_eq_ok.mp hf
  obtain ⟨hu, hfol⟩ := locate_eq_ok.mp hl
  obtain ⟨hfol', c', hq'⟩ := h.leads hfol hq hw
  refine ⟨c', find_eq_ok.mpr ⟨locate_eq_ok.mpr ⟨hu, ?_⟩, hq', hslash⟩⟩
  have hstart : d'.start path = d.start path := by simp only [Disk.start, h.here]
  rwa [hstart]

/-- **No edit breaks a way to a file that may be written.** -/
theorem Edit.serves (h : Edit d path d') : Serves d d' := by
  refine ⟨h.here_eq, fun {n p ns q m c} hfol hq hw => ⟨?_, ?_⟩⟩
  · -- The way goes over directories and ends at a file that may be written, and none of these is lost.
    refine hfol.carry (fun e => (∃ m, e = .dir m) ∨ ∃ m c, e = .file m c ∧ writable m = true)
      (fun m => Or.inl ⟨m, rfl⟩) (fun _ _ hp => h.get?_dir hp) (fun p m c hp _ => ?_)
      (fun p t hp => (h.get?_link hp).imp_right fun hdead n r e hr he => ?_) hq
      (Or.inr ⟨m, c, rfl, hw⟩)
    · obtain ⟨m', c', hp', -⟩ := h.get?_file hp
      exact Or.inr ⟨m', c', hp'⟩
    · obtain ⟨k, a, rfl, hk⟩ := hdead n r e hr he
      rintro (⟨_, hdir⟩ | ⟨k', a', hfile, hk'⟩)
      · cases hdir
      · cases hfile
        rw [hk] at hk'
        cases hk'
  · obtain ⟨m', c', hq', hsame⟩ := h.get?_file hq
    cases hsame hw
    exact ⟨c', hq'⟩

theorem Edits.serves {near : Bytes → Prop} (h : Edits near d d') : Serves d d' := by
  induction h with
  | none => exact Serves.refl d
  | more _ _ he ih => exact ih.trans he.serves

/-- A path at which a file is put leads to the file. -/
theorem Opens.locate (h : d.Opens path p) (hs : Path.hasTrailingSlash path = false)
    (hputs : Puts d p (.file m c) d') : d'.locate true path = .ok p := by
  rcases h with ⟨hl, hp⟩ | @⟨t, hl, hp, hdead⟩
  · refine locate_keeps (hputs.keeps ⟨fun k hk => ?_, fun t => ⟨fun ht => ?_, by simp⟩⟩) hl
    · rcases hp with hp | ⟨_, _, hp⟩ <;> rw [hp] at hk <;> cases hk
    · rcases hp with hp | ⟨_, _, hp⟩ <;> rw [hp] at ht <;> cases ht
  · -- The link goes first, and then the file is put where there is nothing.
    have hne : p ≠ [] := by
      rintro rfl
      simp at hp
    have hnone : (d.erase p).get? p = none := by rw [get?_erase d p hne, if_pos rfl]
    have hputs' : Puts (d.erase p) p (.file m c) d' := by
      refine ⟨hputs.here, fun q => ?_⟩
      rw [hputs.get?, get?_erase d q hne]
      split <;> rfl
    obtain ⟨hu, hfol⟩ := locate_eq_ok.mp hl
    rw [hs] at hfol
    have hl' : (d.erase p).locate true path = .ok p :=
      locate_eq_ok.mpr ⟨hu, hfol.erase (Or.inr ⟨t, hp, hdead⟩)⟩
    exact locate_keeps (hputs'.keeps ⟨by simp [hnone], by simp [hnone]⟩) hl'

/-- Whether a file may be run once it has been written. -/
theorem searchable_settledMode (h : searchable mode = true) :
    searchable (d.settledMode p mode) = true ↔ ∀ k c, d.get? p = some (.file k c) →
      writable k = true → searchable k = true := by
  unfold settledMode
  cases hp : d.get? p with
  | none => simp [h]
  | some e =>
    cases e with
    | dir k => simp [h]
    | link t => simp [h]
    | file k a => cases hw : writable k <;> simp [h, hw]

end Disk

namespace Copy

open Disk

variable {w : Walk.Scope} {t : Tree} {dest : Bytes} {d d' d₀ d₁ : Disk} {x y : Visit}
  {xs ys : List Visit} {s s' : State} {mode : Visit → Nat} {q : Place} {m : Nat} {c : Bytes}

/-! ## 2. What a copy keeps

The induction is on the visits that have been made.  A step of it is one visit (`Traced.visit`), and the run is
`replay_traced`. -/

/-- The path that a visit is copied to leads to a file at `q`. -/
def LeadsTo (dest : Bytes) (d : Disk) (x : Visit) (q : Place) (m : Nat) : Prop :=
  ∃ c, d.find true (Path.below dest x.rel) = .ok (q, .file m c)

/-- All files that have been visited are there, and may be written. -/
def Served (dest : Bytes) (ys : List Visit) (d : Disk) : Prop :=
  ∀ y ∈ ys, y.isDir = false → ∃ q m, LeadsTo dest d y q m ∧ writable m = true

/-- Every file has the mode that it had on `d₀`, or the mode of a visit that leads to it. -/
def Stems (mode : Visit → Nat) (dest : Bytes) (d₀ : Disk) (ys : List Visit) (d : Disk) : Prop :=
  ∀ q m c, d.get? q = some (.file m c) → (∃ c₀, d₀.get? q = some (.file m c₀)) ∨
    ∃ y ∈ ys, y.isDir = false ∧ mode y = m ∧ LeadsTo dest d y q m

/-- What holds of a copy that began on `d₀` and has made the visits `ys`. -/
structure Traced (mode : Visit → Nat) (dest : Bytes) (d₀ : Disk) (ys : List Visit) (d : Disk) :
    Prop where
  served : Served dest ys d
  stems : Stems mode dest d₀ ys d

theorem LeadsTo.serves (h : LeadsTo dest d x q m) (hw : writable m = true) (hs : Serves d d') :
    LeadsTo dest d' x q m := by
  obtain ⟨c, hc⟩ := h
  exact hs.find hw hc

theorem LeadsTo.unique {q' : Place} {m' : Nat} (h : LeadsTo dest d x q m)
    (h' : LeadsTo dest d x q' m') : q = q' ∧ m = m' := by
  obtain ⟨c, hc⟩ := h
  obtain ⟨c', hc'⟩ := h'
  rw [hc] at hc'
  cases hc'
  exact ⟨rfl, rfl⟩

/-- A visited file leads to where it led. -/
theorem Served.leads (h : Served dest ys d) (hs : Serves d d') (hy : y ∈ ys) (hfile : y.isDir = false)
    (hl : LeadsTo dest d y q m) : LeadsTo dest d' y q m := by
  obtain ⟨q', m', hl', hw⟩ := h y hy hfile
  obtain ⟨rfl, rfl⟩ := hl.unique hl'
  exact hl.serves hw hs

theorem Served.serves (h : Served dest ys d) (hs : Serves d d') : Served dest ys d' := by
  intro y hy hfile
  obtain ⟨q, m, hl, hw⟩ := h y hy hfile
  exact ⟨q, m, hl.serves hw hs, hw⟩

/-- At the beginning nothing has been visited, and all modes are what they were. -/
theorem Traced.begin (mode : Visit → Nat) (dest : Bytes) (d : Disk) : Traced mode dest d [] d :=
  ⟨fun y hy => absurd hy (by simp), fun q m c hq => Or.inl ⟨c, hq⟩⟩

/-- Directories may be added. -/
theorem Traced.adds {k : Nat} (h : Traced mode dest d₀ ys d) (hs : Serves d d') (ha : Adds k d d') :
    Traced mode dest d₀ ys d' := by
  refine ⟨h.served.serves hs, fun q m c hq => ?_⟩
  rcases ha.get? q with heq | ⟨-, hdir⟩
  · rcases h.stems q m c (heq ▸ hq) with hold | ⟨y, hy, hfile, hm, hl⟩
    · exact Or.inl hold
    · exact Or.inr ⟨y, hy, hfile, hm, h.served.leads hs hy hfile hl⟩
  · rw [hdir] at hq
    cases hq

theorem Traced.more (h : Traced mode dest d₀ ys d) (hdir : x.isDir = true) :
    Traced mode dest d₀ (ys ++ [x]) d := by
  refine ⟨fun y hy hfile => ?_, fun q m c hq => ?_⟩
  · rcases List.mem_append.mp hy with hy | hy
    · exact h.served y hy hfile
    · cases List.mem_singleton.mp hy
      rw [hdir] at hfile
      cases hfile
  · exact (h.stems q m c hq).imp_right fun ⟨y, hy, hrest⟩ => ⟨y, List.mem_append_left _ hy, hrest⟩

/-- A file that is written has its own mode, or that of the file it is written into. -/
theorem Traced.file {p : Place} (h : Traced mode dest d₀ ys d) (hx : x.Proper) (hfile : x.isDir = false)
    (hmode : writable (mode x) = true) (ho : d.Opens (Path.below dest x.rel) p)
    (hputs : Puts d p (.file (d.settledMode p (mode x)) c) d') :
    Traced mode dest d₀ (ys ++ [x]) d' := by
  have hs : Serves d d' := (Edit.file ho hputs).serves
  have hslash : Path.hasTrailingSlash (Path.below dest x.rel) = false := by
    rw [hx.rel]
    exact below_noSlash dest hx.ne_nil hx.names
  have hlead : LeadsTo dest d' x p (d.settledMode p (mode x)) :=
    ⟨c, find_eq_ok.mpr ⟨ho.locate hslash hputs, hputs.self, by simp [hslash]⟩⟩
  have hold : ∀ {q m c}, d.get? q = some (.file m c) → (∃ c₀, d₀.get? q = some (.file m c₀)) ∨
      ∃ y ∈ ys ++ [x], y.isDir = false ∧ mode y = m ∧ LeadsTo dest d' y q m := by
    intro q m c hq
    refine (h.stems q m c hq).imp_right fun ⟨y, hy, hyfile, hm, hl⟩ => ?_
    exact ⟨y, List.mem_append_left _ hy, hyfile, hm, h.served.leads hs hy hyfile hl⟩
  -- The mode in the end is that of the visit, or there was a file that may be written and it is the mode of
  -- that.
  have hself : d.settledMode p (mode x) = mode x ∨
      ∃ c₀, d.get? p = some (.file (d.settledMode p (mode x)) c₀) ∧
        writable (d.settledMode p (mode x)) = true := by
    unfold settledMode
    cases hp : d.get? p with
    | none => exact Or.inl rfl
    | some e =>
      cases e with
      | dir k => exact Or.inl rfl
      | link t => exact Or.inl rfl
      | file k a =>
        dsimp only
        by_cases hw : writable k = true
        · rw [if_pos hw]
          exact Or.inr ⟨a, rfl, hw⟩
        · rw [if_neg hw]
          exact Or.inl rfl
  refine ⟨fun y hy hyfile => ?_, fun q m c' hq => ?_⟩
  · rcases List.mem_append.mp hy with hy | hy
    · exact h.served.serves hs y hy hyfile
    · cases List.mem_singleton.mp hy
      refine ⟨p, _, hlead, ?_⟩
      rcases hself with heq | ⟨_, _, hw⟩
      · rw [heq]
        exact hmode
      · exact hw
  · by_cases hqp : q = p
    · subst hqp
      rw [hputs.self] at hq
      cases hq
      rcases hself with heq | ⟨c₀, hp, -⟩
      · exact Or.inr ⟨x, by simp, hfile, heq.symm, hlead⟩
      · exact hold hp
    · rw [hputs.other hqp] at hq
      exact hold hq

/-- Files of the tree are copied with the modes `mode`. -/
structure Gives (t : Tree) (mode : Visit → Nat) : Prop where
  eq : ∀ {d : Disk} {x : Visit} {r : Reading} {info : Info}, t.openFile d x.name = .ok r →
    r.info = .ok info → r.failure = none → fileMode info = mode x

/-- **A visit keeps what is known of the modes.** -/
theorem Traced.visit (hg : Gives t mode) (h : Traced mode dest d₀ ys s.disk) (hx : x.Proper)
    (hv : visit t dest false x s = (s', none)) : Traced mode dest d₀ (ys ++ [x]) s'.disk := by
  unfold Copy.visit at hv
  dsimp only at hv
  cases hdir : x.isDir with
  | true =>
    have hedits := makeDirectories_edits s.disk (Path.below dest x.rel) directoryMode
    have hadds := makeDirectories_adds s.disk (Path.below dest x.rel) directoryMode
    rw [if_pos hdir, if_neg (by simp)] at hv
    cases congrArg Prod.fst hv
    exact (h.adds hedits.serves hadds).more hdir
  | false =>
    rw [if_neg (by simp [hdir]), if_neg (by simp)] at hv
    rcases file_cases t s.disk x.name (Path.below dest x.rel) with
      ⟨f, hf⟩ | ⟨r, info, p, c, d', ho, hi, hopens, hputs, hf⟩
    · rw [hf] at hv
      cases hv
    · rw [hf] at hv
      cases hfail : r.failure with
      | some f =>
        rw [hfail] at hv
        cases hv
      | none =>
        rw [hfail] at hv
        cases hv
        have hmode : fileMode info = mode x := hg.eq ho hi hfail
        rw [hmode] at hputs
        exact h.file hx hdir (hmode ▸ fileMode_writable info) hopens hputs

/-- **Visits one after the other keep what is known of the modes.** -/
theorem replay_traced (hg : Gives t mode) (hx : ∀ x ∈ xs, x.Proper)
    (h : Traced mode dest d₀ ys s.disk) (hr : Walk.replay (visitor t dest) xs s = (s', none)) :
    Traced mode dest d₀ (ys ++ xs) s'.disk := by
  induction xs generalizing ys s with
  | nil =>
    cases hr
    rwa [List.append_nil]
  | cons x xs ih =>
    obtain ⟨s₁, hv, hr⟩ := Walk.andThen_eq_ok.mp hr
    have h₁ := h.visit hg (hx x (by simp)) hv
    have h₂ := ih (fun y hy => hx y (by simp [hy])) h₁ hr
    rwa [List.append_assoc, List.singleton_append] at h₂

section

variable {memory : Memory} {root : Bytes} {exclude : List Bytes}

/-- A tree in memory looks the same whatever is on disk. -/
theorem walk_inMemory (v : Visitor State) (s : State) (d : Disk) :
    Walk.run ⟨.inMemory memory, root, exclude⟩ v s =
      Walk.play v (Walk.trace ⟨.inMemory memory, root, exclude⟩ d) s := by
  have hsteady : Walk.Steady False ⟨.inMemory memory, root, exclude⟩ (.inMemory memory) d v
      fun _ _ => True :=
    ⟨fun _ => ⟨rfl, fun _ => Or.inl rfl, fun _ _ _ _ => Or.inl rfl⟩, fun _ _ => trivial⟩
  exact Walk.run_eq_play (fun _ _ _ => hsteady) trivial rfl

/-- **What is known of the modes after a copy from memory.** -/
theorem run_traced (hm : (Tree.inMemory memory).Proper) (hg : Gives (.inMemory memory) mode)
    (h : run ⟨.inMemory memory, root, exclude⟩ dest false d = (s, none)) :
    Traced mode dest d (Walk.trace ⟨.inMemory memory, root, exclude⟩ d).1 s.disk := by
  obtain ⟨hp, d₀, hmade⟩ := run_ok h
  have hedits := makeDirectories_edits d dest directoryMode
  have hadds := makeDirectories_adds d dest directoryMode
  rw [hmade] at hedits hadds
  rw [run_eq_walk hp hmade, walk_inMemory _ _ d] at h
  obtain ⟨-, hreplay⟩ := Walk.play_eq_ok.mp h
  have hshaped := Walk.trace_shaped (w := ⟨.inMemory memory, root, exclude⟩) (d := d)
    fun _ _ hls => Memory.list_tidy hm hls
  have hbegun := (Traced.begin mode dest d).adds hedits.serves hadds
  exact replay_traced hg (fun x hx => hshaped.proper hx) hbegun hreplay

end

end Copy

/-! ## 3. The bundled kit

All that is used of the kit is that the mode of a file can be told from its name. -/

namespace Kit

open Copy

/-- The mode of a new file that is copied from the kit. -/
def copiedMode (x : Visit) : Nat := if isScript x.name then 0o755 else 0o644

theorem proper : tree.Proper := by
  show ∀ e ∈ memory.entries, Path.isTreeName e.1 = true
  decide

theorem lookup_files {name : Bytes} {e : Entry} (l : List (Bytes × Bytes))
    (h : (l.map fun (n, c) => (n, Entry.file (Kit.mode n) c)).lookup name = some e) :
    ∃ c, e = .file (Kit.mode name) c := by
  induction l with
  | nil => cases h
  | cons f l ih =>
    rw [List.map_cons, List.lookup_cons] at h
    cases hname : name == f.1 with
    | true =>
      rw [hname] at h
      cases h
      rw [eq_of_beq hname]
      exact ⟨_, rfl⟩
    | false =>
      rw [hname] at h
      exact ih h

/-- A file of the kit has the mode that its name gives it. -/
theorem mode_of_get? {name content : Bytes} {m : Nat}
    (h : memory.get? name = some (.file m content)) : m = Kit.mode name := by
  unfold Memory.get? at h
  cases hl : memory.entries.lookup name with
  | none =>
    rw [hl] at h
    dsimp only at h
    split at h <;> cases h
  | some e =>
    rw [hl] at h
    cases h
    obtain ⟨c, hc⟩ := lookup_files files hl
    cases hc
    rfl

theorem fileMode_eq {info : Info} {x : Visit} (h : info.mode = Kit.mode x.name) :
    fileMode info = copiedMode x := by
  unfold fileMode copiedMode
  rw [h, Kit.mode]
  cases isScript x.name <;> decide

/-- **The kit gives scripts with permission to run**, and other files without. -/
theorem gives : Gives tree copiedMode := by
  refine ⟨fun {d x r info} ho hi hfail => ?_⟩
  obtain ⟨e, he, hr⟩ := Disk.except_bind_ok.mp ho
  cases hr
  cases e with
  | file m c =>
    obtain ⟨-, he⟩ := Fault.orElse_eq_ok.mp he
    have hinfo : memory.infoOf x.name (.file m c) = .ok info := hi
    obtain ⟨-, hinfo⟩ := Fault.orElse_eq_ok.mp hinfo
    cases hinfo
    refine fileMode_eq (@mode_of_get? x.name c m ?_)
    cases hget : memory.get? x.name with
    | none =>
      rw [hget] at he
      cases he
    | some e =>
      rw [hget] at he
      cases he
      rfl
  | dir m => cases hfail
  | link t => cases hfail

end Kit

/-! ## 4. Installing

With links the mode of a script can be traced to its origin and no further.  Without links it is determined by
what was at its place. -/

namespace Install

open Disk Copy

variable {i : Install} {project root : Bytes} {d : Disk} {r : Result} {x : Visit} {s : State}
  {exclude : List Bytes}

/-- The files of the bundled kit that are copied. -/
def kitFiles (exclude : List Bytes) (d : Disk) : List Visit :=
  Compare.files ⟨Kit.tree, Kit.marker, exclude⟩ d

theorem mem_kitFiles : x ∈ kitFiles exclude d ↔
    x ∈ (Walk.trace ⟨Kit.tree, Kit.marker, exclude⟩ d).1 ∧ x.isDir = false := by
  rw [kitFiles, Compare.files, Walk.visits_eq_trace, Compare.filesOf, List.mem_filter, Bool.not_eq_true']

/-- An install of the bundled kit that copies. -/
theorem run_bundled (hsource : i.source = .bundled) (hreal : i.dryRun = false)
    (hok : (i.run project d).result = .ok r) (hact : r.action ≠ .skipped) :
    ∃ root s, Project.resolve d project = .ok root ∧
      Copy.run ⟨Kit.tree, Kit.marker, i.exclude⟩ (Project.kitPath root) false d = (s, none) ∧
      (i.run project d).disk = s.disk ∧ r.destination = Project.kitPath root ∧
      (r.action = .installed → d.isDirectory (Project.kitPath root) = false) := by
  have hcourse := course i project d
  rw [hok] at hcourse
  generalize (i.run project d).disk = d' at hcourse ⊢
  cases hcourse with
  | skipped => exact absurd rfl hact
  | @copied t root s hc hr hforce hrun =>
    rw [hsource] at hc hrun
    rw [hreal] at hrun
    obtain ⟨htree, -⟩ := check_ok.mp hc
    cases htree
    refine ⟨root, s, hr, hrun, rfl, rfl, fun hinst => ?_⟩
    unfold action at hinst
    rw [hreal, if_neg (by simp)] at hinst
    by_contra hdir
    rw [if_pos (by simpa using hdir)] at hinst
    cases hinst

/-- Where a script may not be run, its path leads to a file that kept its mode, or that another file of the
kit leads to as well. -/
theorem script_traced (h : Traced Kit.copiedMode (Project.kitPath root) d
      (Walk.trace ⟨Kit.tree, Kit.marker, exclude⟩ d).1 s.disk) (hx : x ∈ kitFiles exclude d) :
    ∃ q m, LeadsTo (Project.kitPath root) s.disk x q m ∧ writable m = true ∧
      (searchable m = true ∨ (∃ c, d.get? q = some (.file m c)) ∨
        ∃ y ∈ kitFiles exclude d, Kit.isScript y.name = false ∧
          LeadsTo (Project.kitPath root) s.disk y q m) := by
  obtain ⟨hx, hfile⟩ := mem_kitFiles.mp hx
  obtain ⟨q, m, ⟨c, hc⟩, hw⟩ := h.served x hx hfile
  refine ⟨q, m, ⟨c, hc⟩, hw, ?_⟩
  rcases h.stems q m c (find_eq_ok.mp hc).2.1 with hold | ⟨y, hy, hyfile, hm, hl⟩
  · exact Or.inr (Or.inl hold)
  · cases hscript : Kit.isScript y.name with
    | true =>
      rw [Kit.copiedMode, hscript, if_pos rfl] at hm
      exact Or.inl (hm ▸ by decide)
    | false => exact Or.inr (Or.inr ⟨y, mem_kitFiles.mpr ⟨hy, hyfile⟩, hscript, hl⟩)

/-- Where there are no links, whether a script may be run depends on the file that was there. -/
theorem script_settled (hd : d.Sound) (hr : Project.resolve d project = .ok root)
    (hno : NoLinkIn (d.goal (Project.kitPath root)) d)
    (hrun : Copy.run ⟨Kit.tree, Kit.marker, exclude⟩ (Project.kitPath root) false d = (s, none))
    (hx : x ∈ kitFiles exclude d) (hscript : Kit.isScript x.name = true) :
    ∃ m, LeadsTo (Project.kitPath root) s.disk x (d.goal (Project.kitPath root) ++ x.path) m ∧
      (searchable m = true ↔ ∀ k c,
        d.get? (d.goal (Project.kitPath root) ++ x.path) = some (.file k c) → writable k = true →
          searchable k = true) := by
  have hclean := Project.clean_kitPath (Project.resolve_clean hr).1
  have hdet : Copy.Detached Kit.tree Kit.marker (Project.kitPath root) d :=
    ⟨hd, Kit.proper, hclean.symm ▸ hno, trivial⟩
  obtain ⟨d₀, b, hended, hmade, -⟩ := copy_ended (w := ⟨Kit.tree, Kit.marker, exclude⟩) hr hdet hrun
  obtain ⟨hx, hfile⟩ := mem_kitFiles.mp hx
  obtain ⟨info, hstat, -⟩ := Walk.root_of_mem_trace hx
  rw [← hended.trace_before hmade hclean hd hno trivial hstat, ← Walk.visits_eq_trace] at hx
  obtain ⟨r, info, ho, hi, hfail, hfind⟩ := hended.opened hd Kit.proper hx hfile
  rw [Kit.gives.eq ho hi hfail, Kit.copiedMode, hscript, if_pos rfl] at hfind
  exact ⟨_, ⟨_, hfind⟩, searchable_settledMode (by decide)⟩

/-- **Which scripts may be run after an install of the bundled kit.**  Every script that is copied is there,
and may be run, or its path leads to a file that was there before and kept its mode, or to one that another
file of the kit, which is no script, leads to as well.  If there are no links in the kit that is installed
over, a script may be run exactly if no file was in its place that may be written but not run.  After a first
install all of them may be run. -/
theorem run_scripts (hsource : i.source = .bundled) (hreal : i.dryRun = false)
    (hok : (i.run project d).result = .ok r) (hact : r.action ≠ .skipped) :
    (∀ x ∈ kitFiles i.exclude d, Kit.isScript x.name = true →
      ∃ q m, LeadsTo r.destination (i.run project d).disk x q m ∧ writable m = true ∧
        (searchable m = true ∨ (∃ c, d.get? q = some (.file m c)) ∨
          ∃ y ∈ kitFiles i.exclude d, Kit.isScript y.name = false ∧
            LeadsTo r.destination (i.run project d).disk y q m)) ∧
    (d.Sound → NoLinkIn (d.goal r.destination) d →
      ∀ x ∈ kitFiles i.exclude d, Kit.isScript x.name = true →
        ∃ m, LeadsTo r.destination (i.run project d).disk x (d.goal r.destination ++ x.path) m ∧
          (searchable m = true ↔ ∀ k c, d.get? (d.goal r.destination ++ x.path) = some (.file k c) →
            writable k = true → searchable k = true)) ∧
    (d.Sound → r.action = .installed →
      ∀ x ∈ kitFiles i.exclude d, Kit.isScript x.name = true →
        ∃ q m, LeadsTo r.destination (i.run project d).disk x q m ∧ searchable m = true) := by
  obtain ⟨root, s, hr, hrun, hdisk, hdest, hfirst⟩ := run_bundled hsource hreal hok hact
  rw [hdisk, hdest]
  refine ⟨fun x hx _ => ?_, fun hd hno x hx hscript => ?_, fun hd hinst x hx hscript => ?_⟩
  · exact script_traced (run_traced Kit.proper Kit.gives hrun) hx
  · exact script_settled hd hr hno hrun hx hscript
  · obtain ⟨-, d₀, hmade⟩ := Copy.run_ok hrun
    have hclean := Project.clean_kitPath (Project.resolve_clean hr).1
    rcases (made_of_parent (hclean ▸ Path.clean_ne_nil _) (fun _ => Project.parent_kitPath hr) hmade).before
      with hdir | ⟨-, hnone⟩
    · rw [hfirst hinst] at hdir
      cases hdir
    · obtain ⟨m, hl, hiff⟩ :=
        script_settled hd hr (noLinkIn_of_none hd hnone) hrun hx hscript
      refine ⟨_, m, hl, hiff.mpr fun k c hk => ?_⟩
      rw [hd.get?_below hnone] at hk
      cases hk

/-- A project with an older checklist that has the given mode. -/
def olderChecklist (mode : Nat) : Disk :=
  { entries :=
      [([("p" : Bytes)], .dir 0o755),
        ([("p" : Bytes), Kit.marker], .dir 0o755),
        ([("p" : Bytes), Kit.marker, ("scripts" : Bytes)], .dir 0o755),
        ([("p" : Bytes), Kit.marker, ("scripts" : Bytes), ("checklist.py" : Bytes)], .file mode "old")] }

/-- The install of a new checklist. -/
def installChecklist : Install :=
  { source := .bundled, force := true, exclude := ["agents", "skills", "workflows", "scripts/[!c]*"] }

/-- The checklist that is installed. -/
def checklist : Visit := ⟨".agent/scripts/checklist.py", "scripts/checklist.py", false⟩

/-- A checklist that may not be written is replaced, and may be run. -/
theorem run_scripts_olderChecklist : checklist ∈ kitFiles installChecklist.exclude (olderChecklist 0o444) ∧
    ∃ m, LeadsTo "/p/.agent" (installChecklist.run "/p" (olderChecklist 0o444)).disk checklist
      [("p" : Bytes), Kit.marker, ("scripts" : Bytes), ("checklist.py" : Bytes)] m ∧
      searchable m = true := by
  have hmem : checklist ∈ kitFiles installChecklist.exclude (olderChecklist 0o444) := by decide +kernel
  have hsound : (olderChecklist 0o444).Sound := sound_of_entries (by decide)
  have hno : ∀ p, NoLinkIn p (olderChecklist 0o444) := fun p => noLinkIn_of_entries fun x hx _ => by
    have hnone : ∀ x ∈ (olderChecklist 0o444).entries, x.2.kind ≠ .link := by decide
    exact hnone x hx
  have hresult : (installChecklist.run "/p" (olderChecklist 0o444)).result.toOption =
      some ⟨.updated, 1, "/p/.agent"⟩ := by decide +kernel
  have hgoal : (olderChecklist 0o444).goal "/p/.agent" = [("p" : Bytes), Kit.marker] := by decide +kernel
  obtain ⟨-, hexact, -⟩ := run_scripts (i := installChecklist) rfl rfl (ok_of_toOption hresult) (by decide)
  obtain ⟨m, hl, hiff⟩ := hexact hsound (hno _) checklist hmem (by decide)
  rw [hgoal] at hl hiff
  refine ⟨hmem, m, hl, hiff.mpr fun k c hk hw => ?_⟩
  cases hk
  cases hw

/-- A checklist that may be written is written into, and may not be run then. -/
theorem script_left_without_permission :
    (installChecklist.run "/p" (olderChecklist 0o644)).result.toOption = some ⟨.updated, 1, "/p/.agent"⟩ ∧
      checklist ∈ kitFiles installChecklist.exclude (olderChecklist 0o644) ∧ Kit.isScript checklist.name = true ∧
      ((installChecklist.run "/p" (olderChecklist 0o644)).disk.stat (Path.below "/p/.agent" checklist.rel)).toOption =
        some ⟨false, 0o644⟩ ∧
      searchable 0o644 = false := by
  decide +kernel

end Install

end AgentKit
