import AgentKit.Disk.Call
import AgentKit.Proofs.Following
import Mathlib.Data.List.DropRight
/-!
# What the operations on the disk do

One statement for each operation says when it succeeds and what it leaves behind; the later modules use
these and do not look at the operations again.

1. Looking: `locate`, `find`, `statusOf`, `openedAt` in terms of `Follows`.  Where directories and links
   stay, what was found is found again (`find_keeps`); a look that leads to the same place and sees the
   same there is the same, failures included (`find_congr`).
2. `Puts` says that one entry has been put at one place.
3. Making directories only adds directories (`makeDirectories_adds`), and when it succeeds the path
   leads to one (`makeDirectories_isDirectory`).  In a directory that is there only the last one is made
   (`makeDirectories_cases`).
4. Opening a file for writing depends on what is at its place (`openForWriting_of_locate`), and so does
   reading it (`read_eq_ok`).

A call takes a path and not a place, and it looks the path up anew each time.  So the statements have two
halves: where the path leads, which is a matter of `Following`, and what is done at that place, which is
`get?` before and after.  A later module that knows where a path leads uses only the second half.

Calls that write are described by relations between disks and not by the disks they compute: `Puts` and `Adds`
say what is at every place afterwards and leave open how the list of entries is arranged.  Several calls in a row
are then put together by transitivity.
-/

namespace AgentKit.Disk

variable {d d' d₁ d₂ : Disk} {follow : Bool} {p q : Place} {path : Bytes} {e e' : Entry}

/-! ## 1. Looking

Looking up a path fails for four reasons before any name is followed (`Usable`), and then for those of following.
`find` adds that something is there, and that it is a directory if the path ends with a slash.  All other looks
are made from `find`. -/

/-- The place a path starts from. -/
def start (d : Disk) (path : Bytes) : Place := if Path.isAbsolute path then [] else d.here

/-- The system takes the path at all.  These tests come first and depend on the text alone. -/
structure Usable (path : Bytes) : Prop where
  no_nul : 0 ∉ path
  ne_nil : path ≠ []
  short : path.length < pathLimit

/-- A computation in two steps has a result exactly if both have one.  Nearly every operation is a chain of such
steps, and this is how they are taken apart. -/
theorem except_bind_ok {α β ε : Type} {x : Except ε α} {f : α → Except ε β} {b : β} :
    (x >>= f) = .ok b ↔ ∃ a, x = .ok a ∧ f a = .ok b := by
  cases x with
  | error e =>
    refine ⟨fun h => ?_, fun ⟨a, h, _⟩ => ?_⟩
    · cases h
    · cases h
  | ok a =>
    refine ⟨fun h => ⟨a, rfl, h⟩, ?_⟩
    rintro ⟨a', h, hb⟩
    cases h
    exact hb

/-- An answer without its failure can be compared, so it can be computed and checked; from it the answer itself
is known. -/
theorem ok_of_toOption {α ε : Type} {x : Except ε α} {a : α} (h : x.toOption = some a) : x = .ok a := by
  cases x with
  | error e => cases h
  | ok b =>
    cases h
    rfl

theorem locate_of_usable (h : Usable path) : d.locate follow path =
    followWithin d (follow || Path.hasTrailingSlash path) maxLinks (d.start path) (Path.names path) := by
  rw [locate, if_neg (by simp [h.no_nul]), if_neg (by simp [h.ne_nil]),
    if_neg (Nat.not_le.mpr h.short)]
  rfl

theorem usable_of_locate (h : d.locate follow path = .ok p) : Usable path := by
  unfold locate at h
  split at h
  · cases h
  · rename_i hnul
    split at h
    · cases h
    · rename_i hnil
      split at h
      · cases h
      · rename_i hlen
        exact ⟨by simpa using hnul, by simpa using hnil, Nat.not_le.mp hlen⟩

/-- A path is located by following its names. -/
theorem locate_eq_ok : d.locate follow path = .ok p ↔ Usable path ∧
    Follows d (follow || Path.hasTrailingSlash path) maxLinks (d.start path) (Path.names path) p := by
  constructor
  · intro h
    have hu := usable_of_locate h
    rw [locate_of_usable hu, followWithin_eq_ok] at h
    exact ⟨hu, h⟩
  · rintro ⟨hu, h⟩
    rw [locate_of_usable hu, followWithin_eq_ok]
    exact h

/-- **What a path finds**: the entry at the place it leads to. -/
theorem find_eq_ok : d.find follow path = .ok (p, e) ↔ d.locate follow path = .ok p ∧
    d.get? p = some e ∧ (Path.hasTrailingSlash path = true → e.kind = .dir) := by
  unfold find
  rw [except_bind_ok]
  constructor
  · rintro ⟨r, hr, h⟩
    cases hg : d.get? r with
    | none => simp [hg, throw, throwThe, MonadExceptOf.throw] at h
    | some f =>
      rw [hg] at h
      dsimp only at h
      split at h
      · simp [throw, throwThe, MonadExceptOf.throw, bind, Except.bind] at h
      · rename_i hslash
        cases h
        refine ⟨hr, hg, fun hs => ?_⟩
        simpa [hs] using hslash
  · rintro ⟨hr, hg, hslash⟩
    refine ⟨p, hr, ?_⟩
    rw [hg]
    have hif : ¬ ((Path.hasTrailingSlash path && decide (e.kind ≠ .dir)) = true) := by
      simpa using hslash
    dsimp only
    rw [if_neg hif]
    rfl

/-- A path that finds something finds it at its goal. -/
theorem goal_of_find (h : d.find true path = .ok (p, e)) : d.goal path = p := by
  have hf := (locate_eq_ok.mp (find_eq_ok.mp h).1).2
  rw [Bool.true_or] at hf
  rw [goal, trail, ← start, hf.getLast?_trail]
  rfl

theorem statusOf_eq_ok {i : Info} : d.statusOf path = .ok i ↔
    ∃ p e, d.find true path = .ok (p, e) ∧ e.info = i := by
  unfold statusOf
  rw [except_bind_ok]
  constructor
  · rintro ⟨⟨p, e⟩, h, hi⟩
    cases hi
    exact ⟨p, e, h, rfl⟩
  · rintro ⟨p, e, h, rfl⟩
    exact ⟨(p, e), h, rfl⟩

theorem info_isDir : e.info.isDir = true ↔ ∃ m, e = .dir m := by
  cases e <;> simp [Entry.info]

/-- A path leads to a directory if it is found, links followed.  Otherwise the answer is no, for whatever reason
the look failed. -/
theorem isDirectory_iff : d.isDirectory path = true ↔
    ∃ p m, d.find true path = .ok (p, .dir m) := by
  unfold isDirectory
  constructor
  · intro h
    split at h
    · rename_i i hi
      obtain ⟨p, e, hf, rfl⟩ := statusOf_eq_ok.mp hi
      obtain ⟨m, rfl⟩ := info_isDir.mp h
      exact ⟨p, m, hf⟩
    · cases h
  · rintro ⟨p, m, h⟩
    rw [statusOf_eq_ok.mpr ⟨p, _, h, rfl⟩]
    rfl

/-- Opening for reading asks for one permission, of a file as of a directory. -/
theorem openedAt_eq_ok : d.openedAt path = .ok (p, e) ↔
    d.find true path = .ok (p, e) ∧ readable e.info.mode = true := by
  unfold openedAt
  rw [except_bind_ok]
  constructor
  · rintro ⟨⟨r, f⟩, h, hr⟩
    by_cases hread : readable f.info.mode = true
    · simp only [hread] at hr
      cases hr
      exact ⟨h, hread⟩
    · simp [hread, throw, throwThe, MonadExceptOf.throw, bind, Except.bind] at hr
  · rintro ⟨h, hread⟩
    refine ⟨(p, e), h, ?_⟩
    simp only [hread]
    rfl

theorem Keeps.start (hk : Keeps d d') (path : Bytes) : d'.start path = d.start path := by
  rw [Disk.start, Disk.start, hk.here]

/-- Where nothing about directories and links has changed, a path leads where it led. -/
theorem locate_keeps (hk : Keeps d d') (h : d.locate follow path = .ok p) :
    d'.locate follow path = .ok p := by
  obtain ⟨hu, hf⟩ := locate_eq_ok.mp h
  rw [locate_eq_ok, hk.start]
  exact ⟨hu, hf.keeps hk⟩

/-- **What was found is found again**, with whatever is at its place by now. -/
theorem find_keeps {e' : Entry} (hk : Keeps d d') (h : d.find follow path = .ok (p, e))
    (he' : d'.get? p = some e') : d'.find follow path = .ok (p, e') := by
  obtain ⟨hl, he, hslash⟩ := find_eq_ok.mp h
  refine find_eq_ok.mpr ⟨locate_keeps hk hl, he', fun hs => ?_⟩
  -- A slash at the end asks for a directory.  There was one, and directories stay.
  cases e with
  | dir m =>
    rw [hk.dir p m he] at he'
    cases he'
    rfl
  | file m c => exact absurd (hslash hs) (by simp [Entry.kind])
  | link t => exact absurd (hslash hs) (by simp [Entry.kind])

theorem isDirectory_keeps (hk : Keeps d d') (h : d.isDirectory path = true) :
    d'.isDirectory path = true := by
  obtain ⟨p, m, hf⟩ := isDirectory_iff.mp h
  exact isDirectory_iff.mpr ⟨p, m, find_keeps hk hf (hk.dir p m (find_eq_ok.mp hf).2.1)⟩

theorem explain_eq_ok {α : Type} {operation : Bytes} {answer : Except Errno α} {a : α} :
    explain operation path answer = .ok a ↔ answer = .ok a := by
  cases answer <;> simp [explain, failed]

/-- A look depends on where the path leads and on what is there. -/
theorem find_congr (hf : followWithin d' true maxLinks (d'.start path) (Path.names path) =
      followWithin d true maxLinks (d.start path) (Path.names path))
    (hg : ∀ p, Follows d true maxLinks (d.start path) (Path.names path) p → d'.get? p = d.get? p) :
    d'.find true path = d.find true path := by
  -- The tests before following look at the text, which is the same.
  have hl : d'.locate true path = d.locate true path := by
    unfold locate
    split
    · rfl
    · split
      · rfl
      · split
        · rfl
        · exact hf
  unfold find
  rw [hl]
  cases h : d.locate true path with
  | error e => rfl
  | ok p =>
    have hp := hg p (locate_eq_ok.mp h).2
    simp only [bind, Except.bind, hp]

/-- Following the last link or not makes no difference where there is none. -/
theorem Follows.follow_of_ne_link {n : Nat} {ns : List Bytes} (h : Follows d false n p ns q)
    (hq : ∀ t, d.get? q ≠ some (.link t)) : Follows d true n p ns q := by
  induction h with
  | stop n p => exact .stop n p
  | dot hp _ ih => exact .dot hp (ih hq)
  | up hp _ ih => exact .up hp (ih hq)
  | into hp hn he _ ih => exact .into hp hn he (ih hq)
  | last hp hn he => exact .last hp hn he
  | link hp hn he _ _ ih => exact .link hp hn he (Or.inr rfl) (ih hq)
  | lastLink _ _ he _ => exact absurd he (hq _)

/-! ## 2. Putting one entry

A write of the program is a `Puts` at one place.  Whether it disturbs anything else depends on what was there: it
must not put a file where a directory was, nor anything where a link was, since either would change where paths
lead.  `Gentle` says that it does not, and all writes of a copy are gentle. -/

/-- `d'` is `d` with `e` at `p`. -/
structure Puts (d : Disk) (p : Place) (e : Entry) (d' : Disk) : Prop where
  here : d'.here = d.here
  get? : ∀ q, d'.get? q = if q = p then some e else d.get? q

theorem puts_put (d : Disk) (e : Entry) (h : p ≠ []) : Puts d p e (d.put p e) :=
  ⟨rfl, fun q => get?_put d e q h⟩

theorem puts_refl (h : d.get? p = some e) : Puts d p e d := by
  refine ⟨rfl, fun q => ?_⟩
  split
  · rename_i hq
    rw [hq, h]
  · rfl

/-- What is put last counts.  A file is made empty first and filled then, which comes to putting it once. -/
theorem Puts.trans (h : Puts d p e d₁) (h' : Puts d₁ p e' d₂) : Puts d p e' d₂ := by
  refine ⟨h'.here.trans h.here, fun q => ?_⟩
  rw [h'.get? q, h.get? q]
  split <;> rfl

theorem Puts.self (h : Puts d p e d') : d'.get? p = some e := by
  rw [h.get? p, if_pos rfl]

theorem Puts.other (h : Puts d p e d') (hq : q ≠ p) : d'.get? q = d.get? q := by
  rw [h.get? q, if_neg hq]

/-- What is put does not undo a directory and has nothing to do with links. -/
structure Gentle (d : Disk) (p : Place) (e : Entry) : Prop where
  dir : ∀ m, d.get? p = some (.dir m) → e = .dir m
  link : ∀ t, d.get? p ≠ some (.link t) ∧ e ≠ .link t

/-- A file may be put where there is a file or nothing. -/
theorem Plot.gentle {m : Nat} {c : Bytes} (h : d.Plot p) : Gentle d p (.file m c) := by
  rcases h with hnone | ⟨m', c', hfile⟩
  · exact ⟨fun k hk => absurd (hnone.symm.trans hk) (by simp), fun t => ⟨by simp [hnone], by simp⟩⟩
  · exact ⟨fun k hk => absurd (hfile.symm.trans hk) (by simp), fun t => ⟨by simp [hfile], by simp⟩⟩

/-- **A gentle write leads no path astray.** -/
theorem Puts.keeps (h : Puts d p e d') (hg : Gentle d p e) : Keeps d d' := by
  refine ⟨h.here, fun q m hm => ?_, fun q t => ?_⟩
  · rw [h.get? q]
    split
    · rename_i hq
      rw [hg.dir m (hq ▸ hm)]
    · exact hm
  · rw [h.get? q]
    split
    · rename_i hq
      subst hq
      simp [(hg.link t).1, (hg.link t).2]
    · exact Iff.rfl

/-- A sound disk stays sound if what is put has a name and its parent is a directory.  The entry may take the
place of a file, and then nothing was below it. -/
theorem Puts.sound {n : Bytes} {m : Nat} (h : Puts d (p ++ [n]) e d') (hg : Gentle d (p ++ [n]) e)
    (hd : d.Sound) (hp : d.get? p = some (.dir m)) (hn : Path.IsName n) : d'.Sound := by
  constructor
  · intro q f hq
    rw [h.get? q] at hq
    split at hq
    · rename_i hqp
      subst hqp
      intro k hk
      rcases List.mem_append.mp hk with hk | hk
      · exact hd.names p _ hp k hk
      · rw [List.mem_singleton] at hk
        exact hk ▸ hn
    · exact hd.names q f hq
  · intro q k f hq
    rw [h.get? (q ++ [k])] at hq
    split at hq
    · rename_i hqp
      obtain ⟨rfl, -⟩ := List.append_inj' hqp rfl
      refine ⟨m, ?_⟩
      rw [h.other (by simp), hp]
    · obtain ⟨m', hm'⟩ := hd.parents q k f hq
      refine ⟨m', ?_⟩
      -- Something is below the new entry only if there was a directory, and then it still is one.
      by_cases hqp : q = p ++ [n]
      · subst hqp
        rw [h.self, hg.dir m' hm']
      · rw [h.other hqp, hm']

/-! ## 3. Making directories

The program makes a directory with all that is missing on the way to it.  It tries the whole path first; if
nothing is there it makes the parent in the same way and then the last directory.  Should that fail half way, the
directories that were made stay.  All of this is one recursion, and `makeDirectoriesWithin_rel` is its induction,
made once: whatever holds at the start and is kept by making one more directory of the path holds at the end. -/

theorem allowsChange_iff : d.allowsChange p = true ↔
    ∃ m, d.get? p = some (.dir m) ∧ writable m = true ∧ searchable m = true := by
  unfold allowsChange
  split
  · rename_i m hm
    simp [hm]
  · rename_i hm
    refine ⟨fun h => absurd h (by simp), ?_⟩
    rintro ⟨m, h, -⟩
    exact absurd h (hm m)

/-- One directory is made in a parent that may be changed, under a name that can be used, where nothing is. -/
theorem makeDirectoryIn_ok {parent : Place} {name : Bytes} {mode : Nat} :
    d.makeDirectoryIn parent name mode = .ok d' ↔ d.allowsChange parent = true ∧ Plain name ∧
      d.get? (parent ++ [name]) = none ∧ d' = d.put (parent ++ [name]) (.dir mode) := by
  unfold makeDirectoryIn
  constructor
  · intro h
    split at h
    · split at h
      · cases h
      split at h
      · cases h
      rename_i hname
      split at h
      · cases h
      rename_i hlen
      split at h
      · cases h
      rename_i hnone
      split at h
      · cases h
      rename_i hch
      cases h
      rw [not_or] at hname
      exact ⟨by simpa using hch, ⟨hname.1, hname.2, Nat.not_lt.mp hlen⟩, by simpa using hnone, rfl⟩
    · cases h
    · cases h
  · rintro ⟨hch, hname, hnone, rfl⟩
    obtain ⟨m, hm, hw, hs⟩ := allowsChange_iff.mp hch
    rw [hm]
    simp [hs, hname.ne_dot, hname.ne_up, Nat.not_lt.mpr hname.short, hnone, hch]

/-- A directory is made where the path without its last name leads. -/
theorem makeDirectory_ok {mode : Nat} : d.makeDirectory path mode = .ok d' ↔ Usable path ∧
    ∃ init name parent, Path.names path = init ++ [name] ∧
      Follows d true maxLinks (d.start path) init parent ∧
      d.makeDirectoryIn parent name mode = .ok d' := by
  unfold makeDirectory
  constructor
  · intro h
    dsimp only at h
    split at h
    · cases h
    rename_i hnul
    split at h
    · cases h
    rename_i hnil
    split at h
    · cases h
    rename_i hlen
    -- The three tests on the path are behind; what remains is to find the parent.
    refine ⟨⟨by simpa using hnul, by simpa using hnil, Nat.not_le.mp hlen⟩, ?_⟩
    split at h
    · cases h
    · cases h
    · rename_i parent name hpar hlast
      obtain ⟨init, hinit⟩ := List.getLast?_eq_some_iff.mp hlast
      rw [hinit, List.dropLast_concat] at hpar
      exact ⟨init, name, parent, hinit, followWithin_eq_ok.mp hpar, h⟩
  · rintro ⟨hu, init, name, parent, hnames, hpar, h⟩
    have hpar' := followWithin_eq_ok.mpr hpar
    rw [Disk.start] at hpar'
    dsimp only
    rw [if_neg (by simpa using hu.no_nul), if_neg (by simpa using hu.ne_nil),
      if_neg (Nat.not_le.mpr hu.short), hnames, List.dropLast_concat, hpar', List.getLast?_concat]
    exact h

/-- From `d` to `d'` nothing changes but that directories with mode `mode` may have been added. -/
structure Adds (mode : Nat) (d d' : Disk) : Prop where
  here : d'.here = d.here
  get? : ∀ p, d'.get? p = d.get? p ∨ (d.get? p = none ∧ d'.get? p = some (.dir mode))

theorem Adds.refl (mode : Nat) (d : Disk) : Adds mode d d := ⟨rfl, fun _ => Or.inl rfl⟩

/-- A directory that the first step has added is there for the second, so it cannot be added again. -/
theorem Adds.trans {mode : Nat} {d₁ d₂ d₃ : Disk} (h : Adds mode d₁ d₂) (h' : Adds mode d₂ d₃) :
    Adds mode d₁ d₃ := by
  refine ⟨h'.here.trans h.here, fun p => ?_⟩
  rcases h'.get? p with h2 | ⟨h2, h3⟩
  · rw [h2]
    exact h.get? p
  · rcases h.get? p with h1 | ⟨h1, -⟩
    · exact Or.inr ⟨h1.symm.trans h2, h3⟩
    · exact Or.inr ⟨h1, h3⟩

theorem Adds.of_some {mode : Nat} {p : Place} {e : Entry} (h : Adds mode d d') (hp : d.get? p = some e) :
    d'.get? p = some e := by
  rcases h.get? p with heq | ⟨hnone, -⟩
  · exact heq.trans hp
  · rw [hp] at hnone
    cases hnone

theorem Adds.keeps {mode : Nat} (h : Adds mode d d') : Keeps d d' := by
  refine ⟨h.here, fun p m hm => ?_, fun p t => ?_⟩
  · rcases h.get? p with h1 | ⟨h1, -⟩
    · exact h1.trans hm
    · exact absurd (h1.symm.trans hm) (by simp)
  · rcases h.get? p with h1 | ⟨h1, h2⟩
    · rw [h1]
    · simp [h1, h2]

theorem Adds.find {mode : Nat} {follow : Bool} {p : Place} {e : Entry} (h : Adds mode d d')
    (hf : d.find follow path = .ok (p, e)) : d'.find follow path = .ok (p, e) :=
  find_keeps h.keeps hf (h.of_some (find_eq_ok.mp hf).2.1)

theorem makeDirectoryIn_adds {parent : Place} {name : Bytes} {mode : Nat}
    (h : d.makeDirectoryIn parent name mode = .ok d') : Adds mode d d' := by
  obtain ⟨-, -, hnone, rfl⟩ := makeDirectoryIn_ok.mp h
  refine ⟨rfl, fun p => ?_⟩
  rw [get?_put d _ p (by simp)]
  split
  · rename_i hp
    exact Or.inr ⟨hp ▸ hnone, rfl⟩
  · exact Or.inl rfl

/-- The last directory is made, or it turns out to be there after all.  The second case is a path like `a/.`,
whose last name cannot be made though the path leads to a directory. -/
theorem makeLast_ok {mode : Nat} (h : d.makeLast path mode = .ok d') :
    d.makeDirectory path mode = .ok d' ∨
      (d' = d ∧ ∃ p m, d.find false path = .ok (p, .dir m)) := by
  unfold makeLast at h
  split at h
  · rename_i hm
    cases h
    exact Or.inl hm
  · split at h
    · rename_i p m hf
      cases h
      exact Or.inr ⟨rfl, p, m, hf⟩
    · cases h

theorem makeLast_adds {mode : Nat} (h : d.makeLast path mode = .ok d') : Adds mode d d' := by
  rcases makeLast_ok h with h | ⟨rfl, -⟩
  · obtain ⟨-, init, name, parent, -, -, h⟩ := makeDirectory_ok.mp h
    exact makeDirectoryIn_adds h
  · exact Adds.refl mode d'

/-- The path itself and the paths before it: its parent, the parent of that, and so on. -/
inductive Above : Bytes → Bytes → Prop
  | self (path : Bytes) : Above path path
  | up {path parent x : Bytes} : parentPath? path = some parent → Above parent x → Above path x

/-- What holds when nothing has been made, and stays when one of the directories along a path is made or
fails to be made, holds in the end. -/
theorem makeDirectoriesWithin_rel {mode : Nat} {R : Disk × Option Failure → Prop} (hnone : R (d, none))
    (herror : ∀ path x, R (d, some (.onPath "mkdir" path (.errno x)))) : ∀ (fuel : Nat) (path : Bytes),
      (∀ {d₁ d₂ x}, Above path x → R (d₁, none) → d₁.makeLast x mode = .ok d₂ → R (d₂, none)) →
      (∀ {d₁ x f}, R (d₁, none) → d₁.makeLast x mode = .error f → R (d₁, some f)) →
      R (makeDirectoriesWithin mode fuel d path)
  | 0, path, _, _ => herror path .notFound
  | fuel + 1, path, hok, hfail => by
    unfold makeDirectoriesWithin
    -- If the path leads anywhere nothing is made, and it is an error unless it leads to a directory.
    cases d.statusOf path with
    | ok i =>
      dsimp only
      split
      · exact hnone
      · exact herror path .notDirectory
    | error x =>
      dsimp only
      cases hp : parentPath? path with
      | none =>
        dsimp only
        cases hl : d.makeLast path mode with
        | ok d₂ => exact hok (.self path) hnone hl
        | error f => exact hfail hnone hl
      | some parent =>
        -- First the parent, which is above the path, and then the last directory if that went well.
        have ih := makeDirectoriesWithin_rel hnone herror fuel parent (fun hx => hok (.up hp hx)) hfail
        dsimp only
        cases hb : makeDirectoriesWithin mode fuel d parent with
        | mk d₁ f =>
          rw [hb] at ih
          cases f with
          | some f => exact ih
          | none =>
            dsimp only
            cases hl : d₁.makeLast path mode with
            | ok d₂ => exact hok (.self path) ih hl
            | error f => exact hfail ih hl

/-- The same where the outcome does not matter: what each directory that is made preserves, the whole call
preserves. -/
theorem makeDirectories_rel {mode : Nat} {R : Disk → Prop} (hd : R d)
    (hlast : ∀ {d₁ d₂ x}, Above path x → R d₁ → d₁.makeLast x mode = .ok d₂ → R d₂) :
    R (d.makeDirectories path mode).1 :=
  makeDirectoriesWithin_rel (R := fun result => R result.1) hd (fun _ _ => hd) _ path hlast fun h _ => h

/-- **Making directories along a path only adds directories**, also where it fails half way. -/
theorem makeDirectories_adds (d : Disk) (path : Bytes) (mode : Nat) :
    Adds mode d (d.makeDirectories path mode).1 :=
  makeDirectories_rel (Adds.refl mode d) fun _ h hl => h.trans (makeLast_adds hl)

/-- A directory is made under a name, and in a directory. -/
theorem makeLast_sound {mode : Nat} (hd : d.Sound) (h : d.makeLast path mode = .ok d') : d'.Sound := by
  rcases makeLast_ok h with h | ⟨rfl, -⟩
  · obtain ⟨-, init, name, parent, hnames, -, hin⟩ := makeDirectory_ok.mp h
    obtain ⟨hch, hname, hnone, rfl⟩ := makeDirectoryIn_ok.mp hin
    obtain ⟨m, hm, -⟩ := allowsChange_iff.mp hch
    have hmem : name ∈ Path.names path := hnames ▸ by simp
    have hgentle : Gentle d (parent ++ [name]) (.dir mode) :=
      ⟨fun k hk => absurd (hnone.symm.trans hk) (by simp), fun t => ⟨by simp [hnone], by simp⟩⟩
    exact (puts_put d _ (by simp)).sound hgentle hd hm
      ⟨(Path.mem_names hmem).1, (Path.mem_names hmem).2, hname.ne_dot, hname.ne_up⟩
  · exact hd

theorem makeDirectories_sound (hd : d.Sound) (path : Bytes) (mode : Nat) :
    (d.makeDirectories path mode).1.Sound :=
  makeDirectories_rel hd fun _ h hl => makeLast_sound h hl

/-- A directory that is made is where its path leads. -/
theorem makeDirectory_find {mode : Nat} (h : d.makeDirectory path mode = .ok d') :
    ∃ p, d.get? p = none ∧ Puts d p (.dir mode) d' ∧ d'.find true path = .ok (p, .dir mode) := by
  obtain ⟨hu, init, name, parent, hnames, hpar, hin⟩ := makeDirectory_ok.mp h
  have hkeeps := (makeDirectoryIn_adds hin).keeps
  obtain ⟨hch, hname, hnone, rfl⟩ := makeDirectoryIn_ok.mp hin
  obtain ⟨m, hm, -, hs⟩ := allowsChange_iff.mp hch
  have hget := get?_put_self d (.dir mode) (p := parent ++ [name]) (by simp)
  have henter := hkeeps.enterable ⟨m, hm, hs⟩
  -- The parent was found before, and from there the new name leads into the new directory.
  obtain ⟨k, -, heq⟩ := hpar.append_eq hm
  refine ⟨parent ++ [name], hnone, puts_put d _ (by simp), find_eq_ok.mpr ⟨?_, hget, fun _ => rfl⟩⟩
  rw [locate_of_usable hu, hkeeps.start, hnames, heq _ _ _ hkeeps (by simp),
    followWithin_dir henter hname hget, followWithin_nil]

theorem makeLast_isDirectory {mode : Nat} (h : d.makeLast path mode = .ok d') :
    d'.isDirectory path = true := by
  rw [isDirectory_iff]
  rcases makeLast_ok h with h | ⟨rfl, p, m, hf⟩
  · obtain ⟨p, -, -, hfind⟩ := makeDirectory_find h
    exact ⟨p, mode, hfind⟩
  · -- It was there, as was found without following a link at the end.  It is no link, so following makes no
    -- difference.
    obtain ⟨hl, hg, hslash⟩ := find_eq_ok.mp hf
    obtain ⟨hu, hfol⟩ := locate_eq_ok.mp hl
    refine ⟨p, m, find_eq_ok.mpr ⟨locate_eq_ok.mpr ⟨hu, ?_⟩, hg, hslash⟩⟩
    cases hs : Path.hasTrailingSlash path with
    | true => simpa [hs] using hfol
    | false =>
      rw [hs] at hfol
      exact hfol.follow_of_ne_link (by simp [hg])

/-- For any amount of fuel.  With none the call fails, so there is nothing to show. -/
theorem makeDirectoriesWithin_isDirectory {mode fuel : Nat}
    (h : makeDirectoriesWithin mode fuel d path = (d', none)) : d'.isDirectory path = true := by
  cases fuel with
  | zero => cases h
  | succ fuel =>
    unfold makeDirectoriesWithin at h
    split at h
    · rename_i i hi
      split at h
      · rename_i hdir
        cases h
        unfold isDirectory
        rw [hi]
        exact hdir
      · cases h
    · dsimp only at h
      split at h
      · cases h
      · split at h
        · rename_i hlast
          cases h
          exact makeLast_isDirectory hlast
        · cases h

/-- **When it succeeds the path leads to a directory.** -/
theorem makeDirectories_isDirectory {mode : Nat} (h : d.makeDirectories path mode = (d', none)) :
    d'.isDirectory path = true := makeDirectoriesWithin_isDirectory h

theorem makeDirectoriesWithin_of_isDirectory {mode fuel : Nat} (h : d.isDirectory path = true) :
    makeDirectoriesWithin mode (fuel + 1) d path = (d, none) := by
  unfold makeDirectoriesWithin
  unfold isDirectory at h
  split
  · rename_i i hi
    rw [hi] at h
    rw [if_pos h]
  · rename_i e he
    rw [he] at h
    cases h

/-- Where there is a directory already nothing is made. -/
theorem makeDirectories_of_isDirectory {mode : Nat} (h : d.isDirectory path = true) :
    d.makeDirectories path mode = (d, none) := makeDirectoriesWithin_of_isDirectory h

/-- Where there is a directory around it, only the last one has to be made. -/
theorem makeDirectories_of_makeLast (mode : Nat) (hs : ∀ i, d.statusOf path ≠ .ok i) (hne : path ≠ [])
    (hpar : ∀ parent, parentPath? path = some parent → d.isDirectory parent = true) :
    (∀ d', d.makeLast path mode = .ok d' → d.makeDirectories path mode = (d', none)) ∧
      ∀ f, d.makeLast path mode = .error f → d.makeDirectories path mode = (d, some f) := by
  obtain ⟨k, hk⟩ := Nat.exists_eq_succ_of_ne_zero (mt List.length_eq_zero_iff.mp hne)
  unfold makeDirectories makeDirectoriesWithin
  split
  · rename_i i hi
    exact absurd hi (hs i)
  · cases hp : parentPath? path with
    | none => exact ⟨fun d' hl => by simp [hl], fun f hl => by simp [hl]⟩
    | some parent =>
      have hmade : makeDirectoriesWithin mode (k + 1) d parent = (d, none) :=
        makeDirectoriesWithin_of_isDirectory (hpar parent hp)
      exact ⟨fun d' hl => by simp [hk, hmade, hl], fun f hl => by simp [hk, hmade, hl]⟩

/-- If nothing is there and the parent is, making directories is making the last one. -/
theorem makeDirectories_of_parent {mode : Nat} (hs : ∀ i, d.statusOf path ≠ .ok i) (hne : path ≠ [])
    (hpar : ∀ parent, parentPath? path = some parent → d.isDirectory parent = true) :
    d.makeDirectories path mode = (d', none) ↔ d.makeLast path mode = .ok d' := by
  obtain ⟨hok, herror⟩ := makeDirectories_of_makeLast mode hs hne hpar
  cases hl : d.makeLast path mode with
  | ok d₁ => rw [hok d₁ hl]; simp
  | error f => rw [herror f hl]; simp

/-- In a directory that is there, nothing is left half made. -/
theorem makeDirectories_failed {mode : Nat} {f : Failure} (hne : path ≠ [])
    (hpar : ∀ parent, parentPath? path = some parent → d.isDirectory parent = true)
    (h : d.makeDirectories path mode = (d', some f)) : d' = d := by
  cases hs : d.statusOf path with
  | ok i =>
    unfold makeDirectories makeDirectoriesWithin at h
    rw [hs] at h
    dsimp only at h
    split at h <;> cases h
    rfl
  | error x =>
    obtain ⟨hok, herror⟩ := makeDirectories_of_makeLast mode (by simp [hs]) hne hpar
    cases hl : d.makeLast path mode with
    | ok d₁ => rw [hok d₁ hl] at h; cases h
    | error f => rw [herror f hl] at h; cases h; rfl

/-- In a directory that is there, at most the one at the end of the path is made. -/
theorem makeDirectories_cases {mode : Nat} (hne : path ≠ [])
    (hpar : ∀ parent, parentPath? path = some parent → d.isDirectory parent = true)
    (h : d.makeDirectories path mode = (d', none)) :
    (d.isDirectory path = true ∧ d' = d) ∨
      (d.isDirectory path = false ∧ d.get? (d.goal path) = none ∧ Puts d (d.goal path) (.dir mode) d') := by
  have hadds := makeDirectories_adds d path mode
  rw [h] at hadds
  cases hdir : d.isDirectory path with
  | true =>
    rw [makeDirectories_of_isDirectory hdir, Prod.mk.injEq] at h
    exact Or.inl ⟨rfl, h.1.symm⟩
  | false =>
    right
    -- Were there anything at the path, it would still be there, and it is a directory now.
    have hnothing : ∀ i, d.statusOf path ≠ .ok i := by
      intro i hi
      obtain ⟨p, e, hfind, -⟩ := statusOf_eq_ok.mp hi
      obtain ⟨q, m, hfind'⟩ := isDirectory_iff.mp (makeDirectories_isDirectory h)
      have hget := (find_eq_ok.mp hfind).2.1
      have hsame : d'.get? p = some e := by
        rcases hadds.get? p with heq | ⟨hnone, -⟩
        · exact heq.trans hget
        · exact absurd (hnone.symm.trans hget) (by simp)
      have hkept := (find_keeps hadds.keeps hfind hsame).symm.trans hfind'
      rw [Except.ok.injEq, Prod.mk.injEq] at hkept
      rw [hkept.2] at hfind
      rw [isDirectory_iff.mpr ⟨p, m, hfind⟩] at hdir
      cases hdir
    rcases makeLast_ok ((makeDirectories_of_parent hnothing hne hpar).mp h) with hmade | ⟨rfl, -⟩
    · obtain ⟨p, hnone, hputs, hfind⟩ := makeDirectory_find hmade
      have hgoal : d.goal path = p := hadds.keeps.goal_eq path ▸ goal_of_find hfind
      exact ⟨rfl, hgoal ▸ hnone, hgoal ▸ hputs⟩
    · rw [makeDirectories_isDirectory h] at hdir
      cases hdir

/-- The path of a parent is the beginning of the path, so it is no longer and has no other bytes. -/
theorem parentPath?_begins {parent : Bytes} (h : parentPath? path = some parent) :
    parent <+: path ∧ parent ≠ [] := by
  unfold parentPath? at h
  dsimp only at h
  split at h
  · rename_i hlen
    cases h
    constructor
    · exact (List.dropLast_prefix _).trans
        ((List.rdropWhile_prefix _ _).trans (List.rdropWhile_prefix _ path))
    · intro hnil
      have := congrArg List.length hnil
      rw [List.length_dropLast, List.length_nil] at this
      omega
  · cases h

/-- The system takes every beginning of a path that it takes, so also the path of the parent. -/
theorem Usable.shorter {q : Bytes} (h : Usable path) (hq : q <+: path) (hne : q ≠ []) : Usable q :=
  ⟨fun h0 => h.no_nul (hq.subset h0), hne, Nat.lt_of_le_of_lt hq.length_le h.short⟩

/-! ## 4. Opening files for writing

A file is opened by making it empty, or by making it.  It keeps its mode if it is there, and gets the mode that
was asked for if not.  To write one that may not be written, the program removes it first; for that the directory
must allow changes. -/

/-- The table of what happens, by what is at the place.  A link there would mean that the path has been followed
too far. -/
theorem openForWriting_of_locate (hl : d.locate true path = .ok p)
    (hs : Path.hasTrailingSlash path = false) (mode : Nat) :
    d.openForWriting path mode =
      match d.get? p with
      | some (.dir _) => .error .isDirectory
      | some (.file m _) =>
        if writable m then .ok (d.put p (.file m []), ⟨p, false⟩) else .error .denied
      | some (.link _) => .error .linkLoop
      | none =>
        if d.allowsChange p.dropLast then .ok (d.put p (.file mode []), ⟨p, true⟩)
        else .error .denied := by
  unfold openForWriting
  rw [hl]
  simp only [bind, Except.bind, hs]
  cases d.get? p with
  | none => cases d.allowsChange p.dropLast <;> rfl
  | some e =>
    cases e with
    | file m c => cases h : writable m <;> simp [h] <;> rfl
    | dir m => rfl
    | link t => rfl

theorem openForWriting_of_error {x : Errno} (hl : d.locate true path = .error x) (mode : Nat) :
    d.openForWriting path mode = .error x := by
  unfold openForWriting
  rw [hl]
  rfl

/-- Removing is a matter of the directory.  The mode of the file is not asked. -/
theorem remove_file {m : Nat} {c : Bytes} (hl : d.locate false path = .ok p)
    (hs : Path.hasTrailingSlash path = false) (hp : d.get? p = some (.file m c)) :
    d.remove path =
      if d.allowsChange p.dropLast then .ok (d.erase p) else .error .denied := by
  have hf : d.find false path = .ok (p, .file m c) := find_eq_ok.mpr ⟨hl, hp, by simp [hs]⟩
  unfold remove
  rw [hf]
  cases h : d.allowsChange p.dropLast with
  | true => simp [bind, Except.bind, h]; rfl
  | false => simp [bind, Except.bind, h]; rfl

theorem remove_error (h : ∀ p e, d.find false path ≠ .ok (p, e)) :
    ∃ x, d.remove path = .error x := by
  unfold remove
  cases hf : d.find false path with
  | error x => exact ⟨x, rfl⟩
  | ok pe => exact absurd hf (h pe.1 pe.2)

theorem fill_of_file {w : Writing} {m : Nat} {c : Bytes} (h : d.get? w.place = some (.file m c))
    (content : Bytes) : d.fill w content = d.put w.place (.file m content) := by
  unfold fill
  rw [h]

/-- The content is written to the place that was opened, whatever path leads there by now. -/
theorem get?_fill {w : Writing} {m : Nat} {c : Bytes} (h : d.get? w.place = some (.file m c))
    (content : Bytes) (q : Place) :
    (d.fill w content).get? q = if q = w.place then some (.file m content) else d.get? q := by
  have hne : w.place ≠ [] := by
    intro hnil
    rw [hnil, get?_root] at h
    cases h
  rw [fill_of_file h, get?_put d _ q hne]

/-- A file reads back as what it holds, if it may be read. -/
theorem read_eq_ok {content : Bytes} : d.read path = .ok content ↔
    ∃ p m, d.find true path = .ok (p, .file m content) ∧ readable m = true := by
  unfold read
  rw [except_bind_ok]
  constructor
  · rintro ⟨⟨p, e⟩, h, hr⟩
    cases ho : d.openedAt path with
    | error x =>
      rw [ho] at h
      cases h
    | ok pe =>
      rw [ho] at h
      cases h
      obtain ⟨hf, hread⟩ := openedAt_eq_ok.mp ho
      cases e with
      | file m c =>
        cases hr
        exact ⟨p, m, hf, hread⟩
      | dir m => cases hr
      | link t => cases hr
  · rintro ⟨p, m, hf, hread⟩
    refine ⟨(p, .file m content), ?_, rfl⟩
    rw [openedAt_eq_ok.mpr ⟨hf, hread⟩]
    rfl

/-- A file that may not be read is not taken for one that is not there. -/
theorem read_of_find {m : Nat} {content : Bytes} (h : d.find true path = .ok (p, .file m content)) :
    d.read path = .ok content ∨ ∃ f, d.read path = .error f ∧ f.isAbsence = false := by
  by_cases hm : readable m = true
  · exact Or.inl (read_eq_ok.mpr ⟨p, m, h, hm⟩)
  · refine Or.inr ⟨.onPath "open" path (.errno .denied), ?_, rfl⟩
    have hopened : d.openedAt path = .error .denied := by
      unfold openedAt
      rw [h]
      exact if_pos (by simp [Entry.info, hm])
    unfold read
    rw [hopened]
    rfl

end AgentKit.Disk
