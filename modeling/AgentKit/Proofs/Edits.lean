import AgentKit.Proofs.Copying
/-!
# What a copy changes

A copy writes through whatever is at its paths already: it opens files over links, makes directories
behind links, and removes what it may not write.  `Delivery` follows a copy into a directory without
links; here nothing is known of the disk.

All that a copy does comes down to two **edits**: it makes a directory where there is nothing, and it
puts a file where there is nothing, or a file, or a link that leads to no directory.  The last one is
the point of the removal.  A link is removed only if opening the path was denied.  If the link led to
a directory or to a file that may be written, the path would lead there too, and opening it would succeed,
or fail because of the directory, or because there are too many links.  So it leads to nothing of the kind
(`dead_of_denied`), and removing it breaks no way there.

Hence every way to a directory is as good after an edit as before (`Upholds`).

1. Links that lead to nothing that could be used.
2. Ways to directories.
3. Edits, and the calls of a copy as edits.
4. Walks over a disk that changes while they go on.
5. Copies as edits.

`Upholds` is weaker than `Keeps`, which asks for all links to stay, and it is as much as can be said of a copy onto an
arbitrary disk.  What follows from it is still enough for most purposes: a project that is a directory stays one, the
kit that was found before is found afterwards, and where something is written is the same at the beginning as at
the end of a copy, as long as it is a directory that is written to.
-/

namespace AgentKit

namespace Disk

variable {d d' d₁ d₂ : Disk} {follow : Bool} {n k : Nat} {p q r : Place} {ns : List Bytes}
  {path t : Bytes} {mode m : Nat} {e : Entry}

/-! ## 1. Dead links

Whether a link is dead does not depend on how many links may still be followed, so that it is a property of the
disk and the link alone.  This costs a lemma: a path that would lead somewhere with more links to spend fails for
want of links, which is not a denial (`Follows.within`). -/

/-- A link at `p` with this target would lead to nothing, or to a file that may not be written, over however
many links. -/
def Dead (d : Disk) (p : Place) (target : Bytes) : Prop :=
  ∀ n r e, Follows d true n (linkStart p.dropLast target) (hops target) r → d.get? r = some e →
    ∃ m c, e = .file m c ∧ writable m = false

theorem Dead.ne_dir (h : d.Dead p t) (hr : Follows d true n (linkStart p.dropLast t) (hops t) r)
    (m : Nat) : d.get? r ≠ some (.dir m) := by
  intro hm
  obtain ⟨_, _, hfile, -⟩ := h n r _ hr hm
  cases hfile

/-- Names that lead somewhere over enough links lead there over any number, or over too many. -/
theorem Follows.within (h : Follows d true n p ns q) (k : Nat) :
    followWithin d true k p ns = .ok q ∨ followWithin d true k p ns = .error .linkLoop := by
  induction h generalizing k with
  | stop n p => exact Or.inl followWithin_nil
  | dot hp _ ih =>
    rw [followWithin_dot hp]
    exact ih k
  | up hp _ ih =>
    rw [followWithin_up hp]
    exact ih k
  | into hp hn hk _ ih =>
    rw [followWithin_dir hp hn hk]
    exact ih k
  | last hp hn hk => exact Or.inl (followWithin_last hp hn hk)
  | link hp hn hk hr _ ih =>
    cases k with
    | zero => exact Or.inr (by rw [followWithin, followNames_link hp hn hk hr])
    | succ k =>
      rw [followWithin, followNames_link hp hn hk hr]
      exact ih k
  | lastLink _ _ _ hf => cases hf

/-- Names that end at a link lead to where the link leads, unless they end at the link itself even if
links are followed. -/
theorem Follows.over (h : Follows d false n p ns q) (hq : d.get? q = some (.link t))
    (hr : Follows d true k (linkStart q.dropLast t) (hops t) r) :
    (∃ j, Follows d true j p ns r) ∨ Follows d true n p ns q := by
  induction h with
  | stop n p => exact Or.inr (.stop n p)
  | dot hp _ ih =>
    rcases ih hq hr with ⟨j, hj⟩ | h
    · exact Or.inl ⟨j, .dot hp hj⟩
    · exact Or.inr (.dot hp h)
  | up hp _ ih =>
    rcases ih hq hr with ⟨j, hj⟩ | h
    · exact Or.inl ⟨j, .up hp hj⟩
    · exact Or.inr (.up hp h)
  | into hp hn hk _ ih =>
    rcases ih hq hr with ⟨j, hj⟩ | h
    · exact Or.inl ⟨j, .into hp hn hk hj⟩
    · exact Or.inr (.into hp hn hk h)
  | last hp hn hk =>
    rcases hk with hk | ⟨m, c, hk⟩ <;> rw [hk] at hq <;> cases hq
  | link hp hn hk _ _ ih =>
    rcases ih hq hr with ⟨j, hj⟩ | h
    · exact Or.inl ⟨j + 1, .link hp hn hk (Or.inr rfl) hj⟩
    · exact Or.inr (.link hp hn hk (Or.inr rfl) h)
  -- Here the names end at the link, which is followed now and leads to `r`.
  | @lastLink n p name t' hp hn hk _ =>
    rw [hk] at hq
    cases hq
    rw [List.dropLast_concat] at hr
    exact Or.inl ⟨k + 1, .link hp hn hk (Or.inr rfl) (by rwa [List.append_nil])⟩

/-- Names that end at a dead link do not lead to a directory. -/
theorem Follows.dead_end (h : Follows d false n p ns q) (hq : d.get? q = some (.link t))
    (hdead : d.Dead q t) (hr : followWithin d true k p ns = .ok r) (m : Nat) :
    d.get? r ≠ some (.dir m) := by
  induction h generalizing k with
  | stop n p =>
    rw [followWithin_nil] at hr
    cases hr
    simp [hq]
  | dot hp _ ih =>
    rw [followWithin_dot hp] at hr
    exact ih hq hdead hr
  | up hp _ ih =>
    rw [followWithin_up hp] at hr
    exact ih hq hdead hr
  | into hp hn hk _ ih =>
    rw [followWithin_dir hp hn hk] at hr
    exact ih hq hdead hr
  | last hp hn hk =>
    rcases hk with hk | ⟨m, c, hk⟩ <;> rw [hk] at hq <;> cases hq
  | link hp hn hk _ _ ih =>
    cases k with
    | zero => rw [followWithin, followNames_link hp hn hk (Or.inr rfl)] at hr; cases hr
    | succ k =>
      rw [followWithin, followNames_link hp hn hk (Or.inr rfl)] at hr
      exact ih hq hdead hr
  | @lastLink n p name t' hp hn hk _ =>
    rw [hk] at hq
    cases hq
    cases k with
    | zero => rw [followWithin, followNames_link hp hn hk (Or.inr rfl)] at hr; cases hr
    | succ k =>
      rw [followWithin, followNames_link hp hn hk (Or.inr rfl), List.append_nil] at hr
      exact hdead.ne_dir (by rw [List.dropLast_concat]; exact followWithin_eq_ok.mp hr) m

/-- Opening a path is never denied because of what it leads to, unless that is a file that may not be
written. -/
theorem openForWriting_ne_denied (hl : d.locate true path = .ok p) (hp : d.get? p = some e)
    (he : ∀ m c, e = .file m c → writable m = true) : d.openForWriting path mode ≠ .error .denied := by
  cases hs : Path.hasTrailingSlash path with
  | true =>
    unfold openForWriting
    rw [hl]
    simp only [bind, Except.bind, hs]
    exact fun h => by cases h
  | false =>
    rw [openForWriting_of_locate hl hs, hp]
    cases e with
    | dir m => simp
    | link t => simp
    | file m c => simp [he m c rfl]

/-- **Where opening a path is denied, a link at its end is dead.** -/
theorem dead_of_denied (h : d.openForWriting path mode = .error .denied)
    (hl : d.locate false path = .ok p) (hp : d.get? p = some (.link t)) : d.Dead p t := by
  intro k r e hr he
  by_contra hno
  have hgood : ∀ m c, e = .file m c → writable m = true := by
    intro m c hfile
    by_contra hw
    exact hno ⟨m, c, hfile, by simpa using hw⟩
  have hlink : ∀ m c, Entry.link t = .file m c → writable m = true := by simp
  obtain ⟨hu, hf⟩ := locate_eq_ok.mp hl
  cases hs : Path.hasTrailingSlash path with
  | true =>
    have hl' : d.locate true path = .ok p := locate_eq_ok.mpr ⟨hu, by rwa [hs] at hf ⊢⟩
    exact openForWriting_ne_denied hl' hp hlink h
  | false =>
    rw [hs] at hf
    -- The path leads to where the link leads, if there are links enough, or it was not the link that it ended
    -- at.
    rcases hf.over hp hr with ⟨j, hj⟩ | hf
    · rcases hj.within maxLinks with hw | hw
      · have hl' : d.locate true path = .ok r := by rw [locate_of_usable hu]; exact hw
        exact openForWriting_ne_denied hl' he hgood h
      · have hl' : d.locate true path = .error .linkLoop := by rw [locate_of_usable hu]; exact hw
        rw [openForWriting_of_error hl'] at h
        cases h
    · exact openForWriting_ne_denied (locate_eq_ok.mpr ⟨hu, hf⟩) hp hlink h

/-! ## 2. Ways to directories

A way to a directory leads over directories and live links only.  This is the whole argument, and `Follows.carry`
makes it for any property of entries that directories have; `Scripts` uses it for directories and files that
may be written. -/

/-- Whatever leads to a directory still leads to it. -/
structure Upholds (d d' : Disk) : Prop where
  here : d'.here = d.here
  leads : ∀ {n p ns q m}, Follows d true n p ns q → d.get? q = some (.dir m) →
    Follows d' true n p ns q ∧ d'.get? q = some (.dir m)

theorem Upholds.refl (d : Disk) : Upholds d d := ⟨rfl, fun h hq => ⟨h, hq⟩⟩

theorem Upholds.trans (h : Upholds d d₁) (h' : Upholds d₁ d₂) : Upholds d d₂ :=
  ⟨h'.here.trans h.here, fun hf hq => h'.leads (h.leads hf hq).1 (h.leads hf hq).2⟩

/-- **Only links that lead to nothing good may go.**  A way to something good leads over directories and over
links that lead to directories themselves, and to something good in the end. -/
theorem Follows.carry (good : Entry → Prop) (hgood : ∀ m, good (.dir m))
    (hdir : ∀ p m, d.get? p = some (.dir m) → d'.get? p = some (.dir m))
    (hfile : ∀ p m c, d.get? p = some (.file m c) → good (.file m c) → d'.Plot p)
    (hlink : ∀ p t, d.get? p = some (.link t) → d'.get? p = some (.link t) ∨
      ∀ n r e, Follows d true n (linkStart p.dropLast t) (hops t) r → d.get? r = some e → ¬ good e)
    (h : Follows d true n p ns q) (hq : d.get? q = some e) (he : good e) :
    Follows d' true n p ns q := by
  have henter : ∀ {p}, d.Enterable p → d'.Enterable p := fun ⟨m, hm, hs⟩ => ⟨m, hdir _ m hm, hs⟩
  induction h with
  | stop n p => exact .stop n p
  | dot hp _ ih => exact .dot (henter hp) (ih hq)
  | up hp _ ih => exact .up (henter hp) (ih hq)
  | into hp hn hk _ ih => exact .into (henter hp) hn (hdir _ _ hk) (ih hq)
  | last hp hn hk =>
    rcases hk with hk | ⟨m, c, hk⟩ <;> rw [hk] at hq <;> cases hq
    exact .last (henter hp) hn (hfile _ m c hk he)
  | @link n p q name rest t hp hn hk hr h ih =>
    rcases hlink _ _ hk with hk' | hnot
    · exact .link (henter hp) hn hk' hr (ih hq)
    · -- The link leads to `q` if it is the last name, and to a directory on the way otherwise.
      have hstart : linkStart (p ++ [name]).dropLast t = linkStart p t := by
        rw [List.dropLast_concat]
      by_cases hrest : rest = []
      · rw [hrest, List.append_nil] at h
        exact absurd he (hnot n q e (hstart ▸ h) hq)
      · obtain ⟨r, hr, k, hk, -⟩ := h.cut hrest
        exact absurd (hgood k) (hnot n r _ (hstart ▸ hr) hk)
  | lastLink _ _ _ hf => cases hf

/-- A disk with the same directories, where only dead links are gone. -/
theorem upholds_of (hhere : d'.here = d.here)
    (hdir : ∀ p m, d.get? p = some (.dir m) → d'.get? p = some (.dir m))
    (hlink : ∀ p t, d.get? p = some (.link t) → d'.get? p = some (.link t) ∨ d.Dead p t) :
    Upholds d d' := by
  refine ⟨hhere, fun {n p ns q m} h hq => ⟨?_, hdir q m hq⟩⟩
  refine h.carry (fun e => ∃ m, e = .dir m) (fun m => ⟨m, rfl⟩) hdir (by simp)
    (fun p t hp => (hlink p t hp).imp_right fun hdead n r e hr he => ?_) hq ⟨m, rfl⟩
  rintro ⟨k, rfl⟩
  exact hdead.ne_dir hr k he

theorem Keeps.upholds (h : Keeps d d') : Upholds d d' :=
  upholds_of h.here h.dir fun p t hp => Or.inl ((h.link p t).mpr hp)

theorem Upholds.start (h : Upholds d d') (path : Bytes) : d'.start path = d.start path := by
  simp only [Disk.start, h.here]

theorem Upholds.find (h : Upholds d d') (hf : d.find true path = .ok (p, .dir m)) :
    d'.find true path = .ok (p, .dir m) := by
  obtain ⟨hl, hp, -⟩ := find_eq_ok.mp hf
  obtain ⟨hu, hl⟩ := locate_eq_ok.mp hl
  obtain ⟨hl', hp'⟩ := h.leads hl hp
  exact find_eq_ok.mpr ⟨locate_eq_ok.mpr ⟨hu, by rwa [h.start]⟩, hp', fun _ => rfl⟩

theorem Upholds.isDirectory (h : Upholds d d') (hp : d.isDirectory path = true) :
    d'.isDirectory path = true := by
  obtain ⟨p, m, hf⟩ := isDirectory_iff.mp hp
  exact isDirectory_iff.mpr ⟨p, m, h.find hf⟩

/-- What the dot leads to is a directory, whatever else may be there. -/
theorem isDirectory_dot {info : Info} (h : d.statusOf "." = .ok info) : d.isDirectory "." = true := by
  obtain ⟨p, e, hfind, -⟩ := statusOf_eq_ok.mp h
  have hnames : Path.names "." = [Bytes.ofString "."] := by decide
  have hfol := (locate_eq_ok.mp (find_eq_ok.mp hfind).1).2
  rw [hnames, follows_dot_iff] at hfol
  obtain ⟨⟨m, hm, -⟩, rfl⟩ := hfol
  rw [(find_eq_ok.mp hfind).2.1, Option.some.injEq] at hm
  subst hm
  exact isDirectory_iff.mpr ⟨_, m, hfind⟩

/-- The absolute form of a path depends only on where relative paths start. -/
theorem Upholds.absolute {root : Bytes} (hup : Upholds d d') (h : d.absolute path = .ok root) :
    d'.absolute path = .ok root := by
  unfold Disk.absolute at h ⊢
  by_cases habs : Path.isAbsolute path = true
  · rw [if_pos habs] at h ⊢
    exact h
  · rw [if_neg habs] at h ⊢
    obtain ⟨info, hstat, h⟩ := except_bind_ok.mp h
    cases h
    have hdot := hup.isDirectory (isDirectory_dot (explain_eq_ok.mp hstat))
    obtain ⟨p, m, hfind⟩ := isDirectory_iff.mp hdot
    refine except_bind_ok.mpr ⟨_, explain_eq_ok.mpr (statusOf_eq_ok.mpr ⟨p, _, hfind, rfl⟩), ?_⟩
    rw [hup.here]
    rfl

/-! ## 3. Edits

`Opens` is the condition and `Edit` the change.  The calls of a copy are then shown to be edits or nothing at
all: making directories is a sequence of them, and opening a file with all its detours is one. -/

/-- A file can be put at `p` by writing to the path: the path leads there and it is free or a file, or there is a
dead link at its end. -/
inductive Opens (d : Disk) (path : Bytes) (p : Place) : Prop
  | plot : d.locate true path = .ok p → d.Plot p → Opens d path p
  | link {t : Bytes} : d.locate false path = .ok p → d.get? p = some (.link t) → d.Dead p t →
      Opens d path p

/-- One change that a copy makes at a path.  The mode of a file that is there and may be written stays, which is
what `settledMode` is for. -/
inductive Edit (d : Disk) (path : Bytes) (d' : Disk) : Prop
  | file {p : Place} {mode : Nat} {c : Bytes} : d.Opens path p →
      Puts d p (.file (d.settledMode p mode) c) d' → Edit d path d'
  | dir {p : Place} {m : Nat} : d.locate true path = .ok p → d.get? p = none →
      Puts d p (.dir m) d' → Edit d path d'

/-- Changes at some of the paths `near`, one after the other. -/
inductive Edits (near : Bytes → Prop) (d : Disk) : Disk → Prop
  | none : Edits near d d
  | more {d₁ d₂ : Disk} {path : Bytes} : Edits near d d₁ → near path → Edit d₁ path d₂ →
      Edits near d d₂

theorem Edits.single {near : Bytes → Prop} (hn : near path) (h : Edit d path d') : Edits near d d' :=
  .more .none hn h

theorem Edits.mono {near near' : Bytes → Prop} (hn : ∀ x, near x → near' x) (h : Edits near d d') :
    Edits near' d d' := by
  induction h with
  | none => exact .none
  | more _ hx he ih => exact .more ih (hn _ hx) he

theorem Opens.ne_dir (h : d.Opens path p) (m : Nat) : d.get? p ≠ some (.dir m) := by
  rcases h with ⟨_, hp | ⟨_, _, hp⟩⟩ | ⟨_, hp, _⟩ <;> simp [hp]

theorem Edit.here_eq (h : Edit d path d') : d'.here = d.here := by
  rcases h with ⟨_, hputs⟩ | ⟨_, _, hputs⟩ <;> exact hputs.here

theorem Edit.get?_dir (h : Edit d path d') (hq : d.get? q = some (.dir m)) :
    d'.get? q = some (.dir m) := by
  rcases h with ⟨ho, hputs⟩ | ⟨_, hp, hputs⟩
  · rwa [hputs.other fun heq => ho.ne_dir m (heq ▸ hq)]
  · rwa [hputs.other fun heq => by rw [heq, hp] at hq; cases hq]

theorem Edit.get?_link (h : Edit d path d') (hq : d.get? q = some (.link t)) :
    d'.get? q = some (.link t) ∨ d.Dead q t := by
  rcases h with @⟨p, _, _, ho, hputs⟩ | ⟨_, hp, hputs⟩
  · by_cases hqp : q = p
    · subst hqp
      rcases ho with ⟨_, hp | ⟨_, _, hp⟩⟩ | ⟨_, hp, hdead⟩ <;> rw [hp] at hq <;> cases hq
      exact Or.inr hdead
    · exact Or.inl ((hputs.other hqp).trans hq)
  · exact Or.inl ((hputs.other fun heq => by rw [heq, hp] at hq; cases hq).trans hq)

/-- A file stays a file, and one that may be written keeps its mode. -/
theorem Edit.get?_file {c : Bytes} (h : Edit d path d') (hq : d.get? q = some (.file m c)) :
    ∃ m' c', d'.get? q = some (.file m' c') ∧ (writable m = true → m' = m) := by
  rcases h with @⟨p, mode, c', ho, hputs⟩ | ⟨_, hp, hputs⟩
  · by_cases hqp : q = p
    · subst hqp
      exact ⟨_, c', hputs.self, fun hw => by simp [settledMode, hq, hw]⟩
    · exact ⟨m, c, (hputs.other hqp).trans hq, fun _ => rfl⟩
  · exact ⟨m, c, (hputs.other fun heq => by rw [heq, hp] at hq; cases hq).trans hq, fun _ => rfl⟩

theorem Edit.upholds (h : Edit d path d') : Upholds d d' :=
  upholds_of h.here_eq (fun _ _ hq => h.get?_dir hq) fun _ _ hq => h.get?_link hq

/-- An edit changes one place, and its path leads there. -/
theorem Edit.puts (h : Edit d path d') :
    ∃ p e follow, d.locate follow path = .ok p ∧ Puts d p e d' := by
  rcases h with ⟨⟨hl, _⟩ | ⟨hl, _, _⟩, hputs⟩ | ⟨hl, _, hputs⟩ <;> exact ⟨_, _, _, hl, hputs⟩

/-- No path that leads to a directory is edited. -/
theorem Edit.ne_dir (h : Edit d path d') (hr : d.locate true path = .ok r) (m : Nat) :
    d.get? r ≠ some (.dir m) := by
  have hsame : ∀ {p}, d.locate true path = .ok p → p = r := fun hl => by
    rw [hr] at hl
    cases hl
    rfl
  rcases h with @⟨p, _, _, ho, _⟩ | ⟨hl, hp, _⟩
  · have hp := ho.ne_dir m
    rcases ho with ⟨hl, _⟩ | ⟨hl, hlink, hdead⟩
    · exact hsame hl ▸ hp
    · obtain ⟨hu, hfol⟩ := locate_eq_ok.mp hl
      cases hs : Path.hasTrailingSlash path with
      | true =>
        have hl' : d.locate true path = .ok p := locate_eq_ok.mpr ⟨hu, by rwa [hs] at hfol ⊢⟩
        exact hsame hl' ▸ hp
      | false =>
        rw [hs] at hfol
        rw [locate_of_usable hu] at hr
        -- The file was put in place of a dead link, so the path does not lead to a directory over it.
        exact hfol.dead_end hlink hdead hr m
  · rw [← hsame hl, hp]
    simp

/-- **No edit breaks a way to a directory.** -/
theorem Edits.upholds {near : Bytes → Prop} (h : Edits near d d') : Upholds d d' := by
  induction h with
  | none => exact Upholds.refl d
  | more _ _ he ih => exact ih.trans he.upholds

/-- A directory is made where its path led before. -/
theorem makeDirectory_edit (h : d.makeDirectory path mode = .ok d') : Edit d path d' := by
  obtain ⟨hu, init, name, parent, hnames, hpar, hin⟩ := makeDirectory_ok.mp h
  obtain ⟨hch, hname, hnone, rfl⟩ := makeDirectoryIn_ok.mp hin
  obtain ⟨m, hm, -, hs⟩ := allowsChange_iff.mp hch
  obtain ⟨k, -, heq⟩ := hpar.append_eq hm
  have hl : d.locate true path = .ok (parent ++ [name]) := by
    rw [locate_of_usable hu, hnames, heq _ _ _ (Keeps.refl d) (by simp),
      followWithin_last ⟨m, hm, hs⟩ hname (Or.inl hnone)]
  exact .dir hl hnone (puts_put d _ (by simp))

/-- **Making directories edits the paths above.** -/
theorem makeDirectories_edits (d : Disk) (path : Bytes) (mode : Nat) :
    Edits (Above path) d (d.makeDirectories path mode).1 := by
  refine makeDirectories_rel .none fun {d₁ d₂ x} hx h hl => ?_
  rcases makeLast_ok hl with hmade | ⟨rfl, -⟩
  · exact .more h hx (makeDirectory_edit hmade)
  · exact h

/-- A file is opened where its path leads, over all links. -/
theorem openForWriting_ok {w : Writing} (h : d.openForWriting path mode = .ok (d', w)) :
    (d.locate true path = .ok w.place ∧ d.Plot w.place) ∧
      Puts d w.place (.file (d.settledMode w.place mode) []) d' := by
  cases hl : d.locate true path with
  | error x =>
    rw [openForWriting_of_error hl] at h
    cases h
  | ok p =>
    cases hs : Path.hasTrailingSlash path with
    | true =>
      unfold openForWriting at h
      rw [hl] at h
      simp only [bind, Except.bind, hs] at h
      cases h
    | false =>
      rw [openForWriting_of_locate hl hs] at h
      have hplot : d.Plot p → p ≠ [] := by
        rintro (hp | ⟨_, _, hp⟩) rfl <;> simp at hp
      cases hp : d.get? p with
      | none =>
        rw [hp] at h
        dsimp only at h
        split at h
        · cases h
          rw [settledMode, hp]
          exact ⟨⟨rfl, Or.inl hp⟩, puts_put d _ (hplot (Or.inl hp))⟩
        · cases h
      | some e =>
        cases e with
        | file m c =>
          rw [hp] at h
          dsimp only at h
          split at h
          · rename_i hw
            cases h
            rw [settledMode, hp]
            dsimp only
            rw [if_pos hw]
            exact ⟨⟨rfl, Or.inr ⟨m, c, hp⟩⟩, puts_put d _ (hplot (Or.inr ⟨m, c, hp⟩))⟩
          · cases h
        | dir m => rw [hp] at h; cases h
        | link t => rw [hp] at h; cases h

/-- Removing takes away what is at the end of the path, links not followed. -/
theorem remove_ok (h : d.remove path = .ok d') : ∃ p e, d.find false path = .ok (p, e) ∧
    d.allowsChange p.dropLast = true ∧ d' = d.erase p := by
  unfold remove at h
  cases hf : d.find false path with
  | error x => rw [hf] at h; cases h
  | ok pe =>
    obtain ⟨p, e⟩ := pe
    rw [hf] at h
    cases hc : d.allowsChange p.dropLast with
    | false => simp only [bind, Except.bind, hc] at h; cases h
    | true =>
      refine ⟨p, e, rfl, hc, ?_⟩
      simp only [bind, Except.bind, hc, Bool.not_true, Bool.false_eq_true, if_false] at h
      cases e with
      | file m c => cases h; rfl
      | link t => cases h; rfl
      | dir m =>
        dsimp only at h
        split at h <;> cases h
        rfl

/-- What ended at a file or at a dead link ends there when it is gone. -/
theorem Follows.erase (h : Follows d false n p ns q)
    (hq : (∃ m c, d.get? q = some (.file m c)) ∨ ∃ t, d.get? q = some (.link t) ∧ d.Dead q t) :
    Follows (d.erase q) true n p ns q := by
  have hne : q ≠ [] := by
    rintro rfl
    rcases hq with ⟨m, c, hq⟩ | ⟨t, hq, -⟩ <;> simp at hq
  have hnone : (d.erase q).get? q = none := by rw [get?_erase d q hne, if_pos rfl]
  have hdir : ∀ p m, d.get? p = some (.dir m) → (d.erase q).get? p = some (.dir m) := by
    intro p m hp
    have hpq : p ≠ q := by
      rintro rfl
      rcases hq with ⟨m, c, hq⟩ | ⟨t, hq, -⟩ <;> rw [hp] at hq <;> cases hq
    rwa [get?_erase d p hne, if_neg hpq]
  have henter : ∀ {p}, d.Enterable p → (d.erase q).Enterable p :=
    fun ⟨m, hm, hs⟩ => ⟨m, hdir _ m hm, hs⟩
  induction h with
  | stop n p => exact .stop n p
  | dot hp _ ih => exact .dot (henter hp) (ih hq hne hnone hdir @henter)
  | up hp _ ih => exact .up (henter hp) (ih hq hne hnone hdir @henter)
  | into hp hn hk _ ih =>
    exact .into (henter hp) hn (hdir _ _ hk) (ih hq hne hnone hdir @henter)
  | last hp hn _ => exact .last (henter hp) hn (Or.inl hnone)
  | @link n p q name rest t hp hn hk hr h ih =>
    have hrest : rest ≠ [] := hr.resolve_right (by simp)
    -- The link on the way is not the one that was removed, for it leads to a directory.
    have hpq : p ++ [name] ≠ q := by
      rintro rfl
      rw [hk] at hq
      rcases hq with ⟨m, c, hq⟩ | ⟨t', hq, hdead⟩
      · cases hq
      · cases hq
        obtain ⟨r, hr, k, hk, -⟩ := h.cut hrest
        exact hdead.ne_dir (by rwa [List.dropLast_concat]) k hk
    have hk' : (d.erase q).get? (p ++ [name]) = some (.link t) := by
      rwa [get?_erase d _ hne, if_neg hpq]
    exact .link (henter hp) hn hk' (Or.inr rfl) (ih hq hne hnone hdir @henter)
  | lastLink hp hn _ _ => exact .last (henter hp) hn (Or.inl hnone)

/-- What is removed because opening it was denied is a file or a dead link, and the path then leads to
the place that has become free. -/
theorem remove_of_denied (hdenied : d.openForWriting path mode = .error .denied)
    (h : d.remove path = .ok d') : ∃ p, d.Opens path p ∧ p ≠ [] ∧ d' = d.erase p ∧
      d'.locate true path = .ok p ∧ Path.hasTrailingSlash path = false ∧
      d.allowsChange p.dropLast = true ∧ d.settledMode p mode = mode := by
  obtain ⟨p, e, hf, hch, rfl⟩ := remove_ok h
  obtain ⟨hl, hp, hslash⟩ := find_eq_ok.mp hf
  obtain ⟨hu, hfol⟩ := locate_eq_ok.mp hl
  -- Opening a directory is not denied but refused for another reason, so none is removed.
  have hnotdir : ∀ m, e ≠ .dir m := by
    rintro m rfl
    refine openForWriting_ne_denied (p := p) (locate_eq_ok.mpr ⟨hu, ?_⟩) hp (by simp) hdenied
    cases hs : Path.hasTrailingSlash path with
    | true => rwa [hs] at hfol
    | false =>
      rw [hs] at hfol
      exact hfol.follow_of_ne_link fun t ht => by rw [hp] at ht; cases ht
  -- With a slash at the end only a directory would have been found.
  have hs : Path.hasTrailingSlash path = false := by
    cases hs : Path.hasTrailingSlash path with
    | false => rfl
    | true =>
      cases e with
      | dir m => exact absurd rfl (hnotdir m)
      | file m c => exact absurd (hslash hs) (by simp [Entry.kind])
      | link t => exact absurd (hslash hs) (by simp [Entry.kind])
  have hne : p ≠ [] := by
    rintro rfl
    rw [get?_root] at hp
    cases hp
    exact hnotdir _ rfl
  rw [hs] at hfol
  have hfound : ∀ hq, (d.erase p).locate true path = .ok p := fun hq =>
    locate_eq_ok.mpr ⟨hu, hfol.erase hq⟩
  cases e with
  | dir m => exact absurd rfl (hnotdir m)
  | file m c =>
    have hl' : d.locate true path = .ok p := locate_eq_ok.mpr
      ⟨hu, hfol.follow_of_ne_link fun t ht => by rw [hp] at ht; cases ht⟩
    have hw : writable m ≠ true := fun hw =>
      openForWriting_ne_denied hl' hp (by rintro m' c' heq; cases heq; exact hw) hdenied
    exact ⟨p, .plot hl' (Or.inr ⟨m, c, hp⟩), hne, rfl, hfound (Or.inl ⟨m, c, hp⟩), hs, hch,
      by simp [settledMode, hp, hw]⟩
  | link t =>
    have hdead := dead_of_denied hdenied hl hp
    exact ⟨p, .link hl hp hdead, hne, rfl, hfound (Or.inr ⟨t, hp, hdead⟩), hs, hch,
      by simp [settledMode, hp]⟩

/-- **Opening the file to write to** empties a file or makes one, or changes nothing. -/
theorem openTarget_cases (d : Disk) (path : Bytes) (mode : Nat) :
    (∃ x, Copy.openTarget d path mode = (d, failed "open" path x)) ∨
      ∃ d' w, Copy.openTarget d path mode = (d', .ok w) ∧ d.Opens path w.place ∧
        Puts d w.place (.file (d.settledMode w.place mode) []) d' := by
  unfold Copy.openTarget
  cases ho : d.openForWriting path mode with
  | ok dw =>
    obtain ⟨⟨hl, hplot⟩, hputs⟩ := openForWriting_ok ho
    exact Or.inr ⟨dw.1, dw.2, rfl, .plot hl hplot, hputs⟩
  | error x =>
    dsimp only
    by_cases hx : x = .denied
    · subst hx
      rw [if_pos rfl]
      cases hr : d.remove path with
      | error y => exact Or.inl ⟨_, rfl⟩
      | ok d₁ =>
        -- The place is free now and the directory may be changed, so that the second attempt succeeds.
        obtain ⟨p, hopens, hne, rfl, hl, hs, hch, hmode⟩ := remove_of_denied ho hr
        have hagain := openForWriting_of_locate hl hs mode
        rw [get?_erase d p hne, if_pos rfl] at hagain
        dsimp only at hagain
        rw [allowsChange_erase hne, if_pos hch] at hagain
        dsimp only
        rw [hagain]
        refine Or.inr ⟨_, _, rfl, hopens, rfl, fun q => ?_⟩
        rw [get?_put _ _ q hne, get?_erase d q hne, hmode]
        split <;> rfl
    · rw [if_neg hx]
      exact Or.inl ⟨x, rfl⟩

end Disk

/-! ## 4. Walks over a changing disk

`Walking` takes a walk and its visits apart, which needs a source that looks the same all the time.  On an
arbitrary disk a copy may write into its own source, and then all that can be shown of a walk are invariants.
`Guided` is such an invariant with what it takes: the items that may come up, and the failures that may end the
walk. -/

namespace Walk

variable {σ : Type} {w : Scope} {v : Visitor σ} {known : List Bytes → Kind → Prop} {inv : σ → Prop}
  {allowed : Failure → Prop} {q : List Bytes}

/-- The walk does not leave out this item, as far as its own name goes. -/
def Scope.Sees (w : Scope) (q : List Bytes) : Prop :=
  Exclusion.excludes w.exclude (Path.relativeTo w.root (Path.nameAt w.root q)) = false

/-- A walk keeps to what is known.  Of each item that it does not leave out it is known where it is and
what kind it was listed as, on the disk as it was then; no visit breaks the invariant, and all failures
are among the allowed ones. -/
structure Guided (w : Scope) (v : Visitor σ) (known : List Bytes → Kind → Prop) (inv : σ → Prop)
    (allowed : Failure → Prop) : Prop where
  root : ∀ {s info}, inv s → w.tree.stat (v.disk s) w.root = .ok info → info.isDir = true →
    known [] .dir
  item : ∀ {s q ls l}, inv s → known q .dir →
    w.tree.list (v.disk s) (Path.nameAt w.root q) = .ok ls → l ∈ ls → w.Sees (q ++ [l.name]) →
    known (q ++ [l.name]) l.kind
  visit : ∀ {s q n k} (isDir : Bool), inv s → known (q ++ [n]) k →
    inv (v.visit (w.visitOf (Path.nameAt w.root (q ++ [n])) isDir) s).1 ∧
      ∀ f, (v.visit (w.visitOf (Path.nameAt w.root (q ++ [n])) isDir) s).2 = some f → allowed f
  stat : ∀ {s name f}, inv s → w.tree.stat (v.disk s) name = .error f → allowed (unreadable name f)
  list : ∀ {s name f}, inv s → w.tree.list (v.disk s) name = .error f → allowed (unreadable name f)

/-- An action that keeps the invariant and fails in an allowed way only. -/
def Behaves (inv : σ → Prop) (allowed : Failure → Prop) (act : σ → σ × Option Failure) : Prop :=
  ∀ s, inv s → inv (act s).1 ∧ ∀ f, (act s).2 = some f → allowed f

theorem Behaves.andThen {act next : σ → σ × Option Failure} (h : Behaves inv allowed act)
    (hn : Behaves inv allowed next) : Behaves inv allowed fun s => andThen (act s) next := by
  intro s hs
  obtain ⟨hi, hf⟩ := h s hs
  dsimp only
  cases ha : act s with
  | mk s₁ f =>
    rw [ha] at hi hf
    cases f with
    | none => exact hn s₁ hi
    | some f => exact ⟨hi, hf⟩

theorem behaves_nothing : Behaves inv allowed fun s => (s, none) :=
  fun _ hs => ⟨hs, fun _ hf => by cases hf⟩

/-- One item.  What is known of it may depend on its not being excluded. -/
theorem Guided.item_behaves (h : Guided w v known inv allowed) {n : Bytes} {k : Kind}
    {enter : Bytes → σ → σ × Option Failure} (hq : w.Sees (q ++ [n]) → known (q ++ [n]) k)
    (henter : known (q ++ [n]) .dir → Behaves inv allowed (enter (Path.nameAt w.root (q ++ [n])))) :
    Behaves inv allowed (Walk.item w v enter (Path.child (Path.nameAt w.root q) n) k) := by
  rw [← Path.nameAt_concat]
  intro s hs
  unfold Walk.item
  dsimp only
  cases hsees : Exclusion.excludes w.exclude (Path.relativeTo w.root (Path.nameAt w.root (q ++ [n]))) with
  | true => exact behaves_nothing s hs
  | false =>
    rw [if_neg (by simp)]
    have hq := hq hsees
    cases k with
    | file => exact h.visit false hs hq
    | dir => exact Behaves.andThen (fun s hs => h.visit true hs hq) (henter hq) s hs
    | link =>
      dsimp only
      cases hstat : w.tree.stat (v.disk s) (Path.nameAt w.root (q ++ [n])) with
      | error f => exact ⟨hs, fun g hg => by cases hg; exact h.stat hs hstat⟩
      | ok info =>
        dsimp only
        cases info.isDir with
        | true => exact behaves_nothing s hs
        | false => exact h.visit false hs hq

/-- The items of a listing that was made when the directory was entered, however the disk changes meanwhile. -/
theorem Guided.items_behave (h : Guided w v known inv allowed)
    {enter : Bytes → σ → σ × Option Failure}
    (henter : ∀ n, known (q ++ [n]) .dir →
      Behaves inv allowed (enter (Path.nameAt w.root (q ++ [n])))) :
    ∀ {ls : List Listed}, (∀ l ∈ ls, w.Sees (q ++ [l.name]) → known (q ++ [l.name]) l.kind) →
      Behaves inv allowed (items w v enter (Path.nameAt w.root q) ls)
  | [], _ => behaves_nothing
  | l :: ls, hls =>
    Behaves.andThen (h.item_behaves (hls l (by simp)) (henter l.name))
      (h.items_behave henter fun l' hl' => hls l' (by simp [hl']))

theorem Guided.directory_behaves (h : Guided w v known inv allowed) : ∀ (depth : Nat)
    {q : List Bytes}, known q .dir →
      Behaves inv allowed (directory w v depth (Path.nameAt w.root q))
  | 0, _, _ => behaves_nothing
  | depth + 1, q, hq => by
    intro s hs
    unfold directory
    cases hlist : w.tree.list (v.disk s) (Path.nameAt w.root q) with
    | error f => exact ⟨hs, fun g hg => by cases hg; exact h.list hs hlist⟩
    | ok ls =>
      have hin := fun n (hn : known (q ++ [n]) .dir) => h.directory_behaves depth hn
      exact h.items_behave hin (fun l hl => h.item hs hq hlist hl) s hs

/-- **What every visit keeps, a walk keeps**, also if it fails. -/
theorem Guided.run_behaves (h : Guided w v known inv allowed) : Behaves inv allowed (run w v) := by
  intro s hs
  unfold run
  cases hstat : w.tree.stat (v.disk s) w.root with
  | error f => exact ⟨hs, fun g hg => by cases hg; exact h.stat hs hstat⟩
  | ok info =>
    dsimp only
    cases hdir : info.isDir with
    | false => exact behaves_nothing s hs
    | true => exact h.directory_behaves w.tree.depth (h.root hs hstat hdir) s hs

/-- An invariant that every visit keeps, whatever is visited. -/
theorem run_keeps (inv : σ → Prop) (hvisit : ∀ x s, inv s → inv (v.visit x s).1) {s : σ}
    (hs : inv s) : inv (run w v s).1 := by
  have hguided : Guided w v (fun _ _ => True) inv (fun _ => True) :=
    { root := fun _ _ _ => trivial
      item := fun _ _ _ _ _ => trivial
      visit := fun _ hs _ => ⟨hvisit _ _ hs, fun _ _ => trivial⟩
      stat := fun _ _ => trivial
      list := fun _ _ => trivial }
  exact (hguided.run_behaves s hs).1

end Walk

/-! ## 5. Copies as edits

Now one visit is one sequence of edits, and a copy is a walk with such visits. -/

namespace Copy

open Disk

variable {w : Walk.Scope} {dest : Bytes} {dryRun : Bool} {d : Disk} {s : State}

/-- **Copying a file** fails before anything changes, or it puts a file at one place. -/
theorem file_cases (t : Tree) (d : Disk) (name target : Bytes) :
    (∃ f, file t d name target = (d, some f)) ∨
      ∃ r info p c d', t.openFile d name = .ok r ∧ r.info = .ok info ∧ d.Opens target p ∧
        Puts d p (.file (d.settledMode p (fileMode info)) c) d' ∧
        file t d name target = (d', r.failure) := by
  unfold file
  cases ho : t.openFile d name with
  | error f => exact Or.inl ⟨f, rfl⟩
  | ok r =>
    dsimp only
    cases hi : r.info with
    | error f => exact Or.inl ⟨f, rfl⟩
    | ok info =>
      dsimp only
      rcases openTarget_cases d target (fileMode info) with ⟨x, hx⟩ | ⟨d', w, hw, hopens, hputs⟩
      · rw [hx]
        exact Or.inl ⟨_, rfl⟩
      · rw [hw]
        have hfill : Puts d' w.place (.file (d.settledMode w.place (fileMode info)) (delivered r w))
            (d'.fill w (delivered r w)) :=
          ⟨by rw [fill_of_file hputs.self]; rfl, get?_fill hputs.self _⟩
        exact Or.inr ⟨r, info, w.place, delivered r w, _, rfl, hi, hopens, hputs.trans hfill, rfl⟩

/-- Copying a file makes one edit, or none. -/
theorem file_edits (t : Tree) (d : Disk) (name target : Bytes) :
    Edits (· = target) d (file t d name target).1 := by
  rcases file_cases t d name target with ⟨f, hf⟩ | ⟨_, _, _, _, d', _, _, hopens, hputs, hf⟩
  · rw [hf]
    exact .none
  · rw [hf]
    exact .single rfl (.file hopens hputs)

/-- A visit edits the path it copies to and those before it. -/
theorem visit_edits (t : Tree) (dest : Bytes) (dryRun : Bool) (x : Visit) (s : State) :
    Edits (Above (Path.below dest x.rel)) s.disk (visit t dest dryRun x s).1.disk := by
  unfold visit
  dsimp only
  cases dryRun with
  | true => cases x.isDir <;> exact .none
  | false =>
    cases x.isDir with
    | true => exact makeDirectories_edits s.disk _ directoryMode
    | false =>
      have habove : Edits (Above (Path.below dest x.rel)) s.disk
          (file t s.disk x.name (Path.below dest x.rel)).1 :=
        (file_edits t s.disk x.name (Path.below dest x.rel)).mono (by rintro y rfl; exact .self _)
      simp only [Bool.false_eq_true, if_false]
      cases hf : file t s.disk x.name (Path.below dest x.rel) with
      | mk d' f =>
        rw [hf] at habove
        cases f <;> exact habove

theorem visit_dryRun (t : Tree) (dest : Bytes) (x : Visit) (s : State) :
    (visit t dest true x s).1.disk = s.disk := by
  unfold visit
  cases x.isDir <;> rfl

theorem walk_upholds (w : Walk.Scope) (dest : Bytes) (dryRun : Bool) (s : State) :
    Upholds s.disk
      (Walk.run w { disk := State.disk, visit := visit w.tree dest dryRun } s).1.disk :=
  Walk.run_keeps (fun s' => Upholds s.disk s'.disk)
    (fun x s' hs => hs.trans (visit_edits w.tree dest dryRun x s').upholds) (Upholds.refl s.disk)

/-- **A copy breaks no way to a directory**, wherever it writes and even if it fails. -/
theorem run_upholds (w : Walk.Scope) (dest : Bytes) (dryRun : Bool) (d : Disk) :
    Upholds d (run w dest dryRun d).1.disk := by
  have hmade := (makeDirectories_edits d dest directoryMode).upholds
  have hcourse := course w dest dryRun d
  generalize run w dest dryRun d = result at hcourse ⊢
  cases hcourse with
  | malformed _ => exact Upholds.refl d
  | dry _ => exact walk_upholds w dest true { disk := d }
  | unmade _ hm =>
    rw [hm] at hmade
    exact hmade
  | @walked d₀ _ hm =>
    rw [hm] at hmade
    exact hmade.trans (walk_upholds w dest false { disk := d₀ })

/-- A copy with a malformed pattern does nothing at all. -/
theorem run_malformed (dest : Bytes) (dryRun : Bool) (d : Disk)
    (h : Walk.checkPatterns w.exclude ≠ .ok ()) : (run w dest dryRun d).1.disk = d := by
  have hcourse := course w dest dryRun d
  generalize run w dest dryRun d = result at hcourse ⊢
  cases hcourse with
  | malformed _ => rfl
  | dry hp => exact absurd hp h
  | unmade hp _ => exact absurd hp h
  | walked hp _ => exact absurd hp h

/-- **A dry run changes nothing.** -/
theorem run_dryRun (w : Walk.Scope) (dest : Bytes) (d : Disk) : (run w dest true d).1.disk = d := by
  have hvisit : ∀ x (s : State), s.disk = d → (visit w.tree dest true x s).1.disk = d :=
    fun x s hs => (visit_dryRun w.tree dest x s).trans hs
  have hcourse := course w dest true d
  generalize run w dest true d = result at hcourse ⊢
  cases hcourse with
  | malformed _ => rfl
  | dry _ => exact Walk.run_keeps (fun s : State => s.disk = d) hvisit (s := ⟨d, 0, []⟩) rfl

/-- A copy that succeeds leaves its destination a directory. -/
theorem run_isDirectory (h : run w dest false d = (s, none)) : s.disk.isDirectory dest = true := by
  obtain ⟨hp, d₀, hm⟩ := run_ok h
  have hup := walk_upholds w dest false { disk := d₀ }
  rw [run_eq_walk hp hm] at h
  unfold visitor at h
  rw [h] at hup
  exact hup.isDirectory (makeDirectories_isDirectory hm)

end Copy

end AgentKit
