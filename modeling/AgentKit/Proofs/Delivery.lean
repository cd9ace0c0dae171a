import AgentKit.Proofs.Comparing
import AgentKit.Proofs.Detours
/-!
# What a copy leaves

A copy that succeeds is told here from its end to its last detail: how many files it counted, what is at
each place it visited and with which mode, and that nothing else has changed but for directories on the way
to the destination.  No more is asked of the source than that it and the destination are not inside each
other and that none of its links ends in the destination.

So the visits cannot be read off the disk as it was: making the destination may complete the way of a link,
or even add a directory to the source if the path goes over it.  They are read off the disk that is left
(`Walk.run_recalls`).

1. `Onward` says how a copy changes the disk from visit to visit and `Ready` when a directory of the source
   can be copied.  **What a copy reads lasts** (`lasting`).
2. `On` is a visit for which the destination is there.  Where it is not, the first visit makes it, and what
   follows is as if it had been there before (`makes_grounds`).
3. Step by step, **what is visited is there in the end** (`makes_leaves`) **and all else is as it was**
   (`makes_settles`).
4. `Delivered` puts it together (`run_delivers`).

The disks that occur in the proofs are always in the same order.  The copy begins on `d`; making the destination gives
`d₀`; making the way to its clean form, where this is another directory, gives `b`; and then come the visits, up to
the disk of `s`.  Of what lies between two of them it is enough to know that one `Advances` to the other.
-/

namespace AgentKit.Copy

open Disk

variable {w : Walk.Scope} {t : Tree} {dest dir : Bytes} {P : Place} {d d' d₀ d₁ d₂ b : Disk} {x : Visit}
  {xs : List Visit} {ls : List Listed} {l : Listed} {isDir : Bool} {s s' : State}

/-! ## 1. From visit to visit

The relation `Onward` is transitive and the condition `Ready` lasts along it.  These are the two things that
`Hindsight` asks for, and then the visits of the copy are those of a walk at the end. -/

/-- How the disk may change while a copy to `P` goes on. -/
structure Onward (dest : Bytes) (P : Place) (d d' : Disk) : Prop where
  advances : Advances P d d'
  sound : d.Sound → d'.Sound
  home : d' = d ∨ Home dest P d'

theorem Onward.refl (dest : Bytes) (P : Place) (d : Disk) : Onward dest P d d :=
  ⟨Advances.refl P d, fun h => h, Or.inl rfl⟩

theorem Onward.trans (h : Onward dest P d d₁) (h' : Onward dest P d₁ d₂) : Onward dest P d d₂ := by
  refine ⟨h.advances.trans h'.advances, fun hd => h'.sound (h.sound hd), ?_⟩
  rcases h'.home with rfl | hhome
  · exact h.home
  · exact Or.inr hhome

/-- The walk lists `dir`, and the directory that its items go to is there.  At the beginning the
destination may still have to be made. -/
structure Ready (w : Walk.Scope) (dest : Bytes) (P : Place) (dir : Bytes) (d : Disk) : Prop
    extends Walk.Sighted w P dir d where
  goal : d.goal (Path.clean dest) = P
  noLink : NoLinkIn P d
  place : ∃ q, (∀ n ∈ q, Path.IsName n) ∧ dir = Path.nameAt w.root q ∧
    ((Home dest P d ∧ ∃ m, d.get? (P ++ q) = some (.dir m)) ∨
      (q = [] ∧ d.isDirectory (Path.clean dest) = false))

/-- **What is ready stays ready.** -/
theorem Ready.stays (h : Ready w dest P dir d) (hon : Onward dest P d d') : Ready w dest P dir d' := by
  have hkeeps := hon.advances.toKeeps
  refine ⟨h.toSighted.stays hon.advances (hon.sound h.sound), (hkeeps.goal_eq _).trans h.goal,
    h.noLink.keeps hkeeps, ?_⟩
  obtain ⟨q, hq, hdir, ⟨hhome, m, hm⟩ | ⟨rfl, hno⟩⟩ := h.place
  · exact ⟨q, hq, hdir, Or.inl ⟨hhome.keeps hkeeps, m, hkeeps.dir _ m hm⟩⟩
  · rcases hon.home with rfl | hhome
    · exact ⟨[], hq, hdir, Or.inr ⟨rfl, hno⟩⟩
    · exact ⟨[], hq, hdir, Or.inl ⟨hhome, by simpa using hhome.dir⟩⟩

/-- A visit from `s` to `s'` for which the destination is there, and that reads from elsewhere. -/
structure On (t : Tree) (dest : Bytes) (P : Place) (s : State) (x : Visit) (s' : State) : Prop where
  stage : Stage t dest P x s.disk
  out : t.LeadsOut x.name s.disk P
  visit : visit t dest false x s = (s', none)

theorem On.onward (h : On t dest P s x s') : Onward dest P s.disk s'.disk := by
  obtain ⟨-, -, e, hl, hputs, -⟩ := h.stage.visit_ok h.visit
  have hgentle := hl.gentle h.stage.home
  exact ⟨hputs.advances hgentle (List.prefix_append P x.path),
    fun hd => puts_sound h.stage.proper hd h.stage.parent hputs hgentle,
    Or.inr (h.stage.home.keeps (hputs.keeps hgentle))⟩

/-- The visit to an item, over the names that lead to it. -/
theorem visitOf_child {q : List Bytes} {n : Bytes} (hq : ∀ m ∈ q, Path.IsName m) (hn : Path.IsName n) :
    w.visitOf (Path.child (Path.nameAt w.root q) n) isDir = w.visitAt (q ++ [n]) isDir := by
  rw [← Path.nameAt_concat]
  exact Walk.visitOf_nameAt (by simp) (Walk.forall_isName_append hq (by simpa using hn)) isDir

/-- A visit in a directory whose counterpart is there, and what holds in the directory that it made. -/
theorem Ready.on {q : List Bytes} {m : Nat} (h : Ready w dest P dir s.disk) (hproper : w.tree.Proper)
    (hq : ∀ n ∈ q, Path.IsName n) (hdir : dir = Path.nameAt w.root q) (hhome : Home dest P s.disk)
    (hm : s.disk.get? (P ++ q) = some (.dir m)) (hls : w.tree.list s.disk dir = .ok ls) (hl : l ∈ ls)
    (hkind : isDir = true ↔ l.kind = .dir)
    (hv : visit w.tree dest false (w.visitOf (Path.child dir l.name) isDir) s = (s', none)) :
    On w.tree dest P s (w.visitOf (Path.child dir l.name) isDir) s' ∧
      (isDir = true → Ready w dest P (Path.child dir l.name) s'.disk) := by
  have hn : Path.IsName l.name := (Tree.list_tidy h.sound hproper hls).names l hl
  have hqn : ∀ n ∈ q ++ [l.name], Path.IsName n := Walk.forall_isName_append hq (by simpa using hn)
  have hx : w.visitOf (Path.child dir l.name) isDir = w.visitAt (q ++ [l.name]) isDir :=
    hdir ▸ visitOf_child hq hn
  have hpath : (w.visitOf (Path.child dir l.name) isDir).path = q ++ [l.name] :=
    hx ▸ Walk.visitAt_path hqn isDir
  have hxproper : (w.visitOf (Path.child dir l.name) isDir).Proper :=
    ⟨by simp [hpath], hpath ▸ hqn, by rw [hpath, hx]; rfl⟩
  have hout := h.toSighted.item hls hl
  have hon : On w.tree dest P s (w.visitOf (Path.child dir l.name) isDir) s' := by
    refine ⟨⟨hhome, h.sound, hxproper, ⟨m, ?_⟩, fun _ r p hr hp => hout.place hr hp⟩, hout, hv⟩
    rw [hpath, List.dropLast_concat]
    exact hm
  -- If it was a directory, then it is there now and the items in it can be copied.
  refine ⟨hon, fun hd => ?_⟩
  have hready := h.stays hon.onward
  obtain ⟨-, -, e, hleaves, hputs, -⟩ := hon.stage.visit_ok hv
  obtain ⟨k, rfl⟩ := hleaves.of_isDir hd
  refine ⟨hready.toSighted.enter (h.toSighted.list hon.onward.advances hls) hl (hkind.mp hd), hready.goal,
    hready.noLink, q ++ [l.name], hqn, hdir ▸ (Path.nameAt_concat _ _ _).symm, Or.inl ⟨?_, k, ?_⟩⟩
  · exact hhome.keeps hon.onward.advances.toKeeps
  · rw [← hpath]
    exact hputs.self

/-- The disk `b` is `d`, or it is `d` with the way to a destination that is not there.  The second can be the
case only before the first visit. -/
def Grounds (dest : Bytes) (d b : Disk) : Prop :=
  b = d ∨ (d.isDirectory (Path.clean dest) = false ∧ Cleared directoryMode dest d b)

theorem Grounds.advances (h : Grounds dest d b) (hgoal : d.goal (Path.clean dest) = P) :
    Advances P d b := by
  rcases h with rfl | ⟨-, hcleared⟩
  · exact Advances.refl P b
  · exact hcleared.advances hgoal

/-- Nothing can be written on a path that leads nowhere. -/
theorem file_nowhere {name target : Bytes} (h : ∀ follow r, d.locate follow target ≠ .ok r)
    (hfile : file t d name target = (d', none)) : False := by
  unfold file at hfile
  cases ho : t.openFile d name with
  | error f =>
    rw [ho] at hfile
    cases hfile
  | ok r =>
    rw [ho] at hfile
    dsimp only at hfile
    cases hi : r.info with
    | error f =>
      rw [hi] at hfile
      cases hfile
    | ok info =>
      rw [hi] at hfile
      dsimp only at hfile
      obtain ⟨f, hopen⟩ := openTarget_nowhere h (fileMode info)
      rw [hopen] at hfile
      cases hfile

/-- **Where the destination is not there, only a directory can be visited.** -/
theorem isDir_of_nowhere {ns : List Bytes} (hne : ns ≠ []) (hns : ∀ n ∈ ns, Path.IsName n)
    (hrel : x.rel = Path.join ns) (hno : s.disk.isDirectory (Path.clean dest) = false)
    (hv : visit t dest false x s = (s', none)) : x.isDir = true := by
  by_contra hdir
  unfold visit at hv
  simp only [Bool.not_eq_true] at hdir
  simp only [hdir, hrel, Bool.false_eq_true, if_false] at hv
  cases hfile : file t s.disk x.name (Path.below dest (Path.join ns)) with
  | mk d' f =>
    rw [hfile] at hv
    cases f with
    | some f => cases hv
    | none =>
      refine file_nowhere (fun follow r hl => ?_) hfile
      obtain ⟨P, m, hfind⟩ := find_clean_of_locate hne hns hl
      rw [isDirectory_iff.mpr ⟨P, m, hfind⟩] at hno
      cases hno

/-- Such a visit does what it would do if the way had been made before. -/
theorem visit_found {name : Bytes} (hd : s.disk.Sound) (hname : Path.IsName name)
    (hrel : x.rel = Path.join [name]) (hno : s.disk.isDirectory (Path.clean dest) = false)
    (hv : visit t dest false x s = (s', none)) :
    ∃ b, Cleared directoryMode dest s.disk b ∧ b.isDirectory (Path.clean dest) = true ∧
      visit t dest false x { s with disk := b } = (s', none) := by
  have hdir := isDir_of_nowhere (by simp) (by simpa using hname) hrel hno hv
  unfold visit at hv
  simp only [hdir, hrel, Bool.false_eq_true, if_false, if_true] at hv
  cases hmade : s.disk.makeDirectories (Path.below dest (Path.join [name])) directoryMode with
  | mk d' f =>
    rw [hmade] at hv
    cases f with
    | some f => cases hv
    | none =>
      cases hv
      obtain ⟨b, hcleared, hb, hmade⟩ := makeDirectories_below hd hname hno hmade
      refine ⟨b, hcleared, hb, ?_⟩
      unfold visit
      simp only [hdir, hrel, hmade, Bool.false_eq_true, if_false, if_true, Option.map_none]

/-- A visit that may have to make the way to the destination first. -/
def Step (t : Tree) (dest : Bytes) (P : Place) (s : State) (x : Visit) (s' : State) : Prop :=
  ∃ b, Grounds dest s.disk b ∧ On t dest P { s with disk := b } x s'

/-- **What a copy reads lasts.** -/
theorem lasting (hproper : w.tree.Proper) :
    Walk.Lasting w (visitor w.tree dest) (Onward dest P) (Ready w dest P) (Step w.tree dest P) := by
  refine ⟨Onward.refl dest P, Onward.trans, Ready.stays, fun h hon => h.toSighted.list hon.advances,
    fun h hon hls hl => (h.toSighted.item hls hl).stat hon.advances.toRetains,
    fun {dir s s' ls l isDir} h hls hl hkind hv => ?_⟩
  obtain ⟨q, hq, hdir, ⟨hhome, m, hm⟩ | ⟨rfl, hno⟩⟩ := h.place
  · obtain ⟨hon, hready⟩ := h.on hproper hq hdir hhome hm hls hl hkind hv
    exact ⟨hon.onward, ⟨s.disk, Or.inl rfl, hon⟩, hready⟩
  · -- The first visit of all: once the way has been made it is a visit like any other.
    have hn : Path.IsName l.name := (Tree.list_tidy h.sound hproper hls).names l hl
    have hrel : (w.visitOf (Path.child dir l.name) isDir).rel = Path.join [l.name] := by
      rw [hdir, visitOf_child hq hn]
      rfl
    obtain ⟨b, hcleared, hb, hv⟩ := visit_found h.sound hn hrel hno hv
    have hhome : Home dest P b := hcleared.home h.goal h.noLink hb
    have hfirst : Onward dest P s.disk b :=
      ⟨hcleared.advances h.goal, hcleared.sound, Or.inr hhome⟩
    have hready : Ready w dest P dir ({ s with disk := b } : State).disk := h.stays hfirst
    obtain ⟨m, hm⟩ := hhome.dir
    obtain ⟨hon, hready⟩ := hready.on hproper hq hdir hhome (by simpa using hm)
      (h.toSighted.list hfirst.advances hls) hl hkind hv
    exact ⟨hfirst.trans hon.onward, ⟨b, Or.inr ⟨hno, hcleared⟩, hon⟩, hready⟩

/-! ## 2. The destination as if it had been there

Only the first step can have had to make the way, because after a visit the destination is a directory. -/

/-- After a visit the destination's clean form leads to a directory. -/
theorem On.settled (h : On t dest P s x s') : s'.disk.isDirectory (Path.clean dest) = true := by
  obtain ⟨hu, hpass, -⟩ := h.stage.visit_ok h.visit
  rw [h.stage.proper.rel] at hu
  have hloc : s.disk.locate true (Path.below dest (Path.join x.path)) = .ok (P ++ x.path) :=
    (h.stage.home.locate h.stage.proper.ne_nil h.stage.proper.names).mpr ⟨hu, hpass, rfl⟩
  obtain ⟨p, m, hfind⟩ := find_clean_of_locate h.stage.proper.ne_nil h.stage.proper.names hloc
  exact isDirectory_keeps h.onward.advances.toKeeps (isDirectory_iff.mpr ⟨p, m, hfind⟩)

/-- So from there on every step is a visit as it stands. -/
theorem makes_on (h : Walk.Makes (Step t dest P) xs s s')
    (hs : s.disk.isDirectory (Path.clean dest) = true) : Walk.Makes (On t dest P) xs s s' := by
  induction h with
  | nil s => exact .nil s
  | cons hstep _ ih =>
    obtain ⟨b, rfl | ⟨hno, -⟩, hon⟩ := hstep
    · exact .cons hon (ih hon.settled)
    · exact absurd (hs.symm.trans hno) (by simp)

/-- **The visits are made as if the destination had been there**, on a disk where it has been made. -/
theorem makes_grounds (h : Walk.Makes (Step t dest P) xs s s') :
    ∃ b, Grounds dest s.disk b ∧ Walk.Makes (On t dest P) xs { s with disk := b } s' := by
  cases h with
  | nil => exact ⟨s.disk, Or.inl rfl, .nil _⟩
  | cons hstep hrest =>
    obtain ⟨b, hb, hon⟩ := hstep
    exact ⟨b, hb, .cons hon (makes_on hrest hon.settled)⟩

/-! ## 3. What is left

These are inductions over the visits that were made.  They go to different places, so that what one of them
leaves none of the others changes. -/

theorem makes_onward (h : Walk.Makes (On t dest P) xs s s') : Onward dest P s.disk s'.disk := by
  induction h with
  | nil s => exact Onward.refl dest P s.disk
  | cons hon _ ih => exact hon.onward.trans ih

/-- **What a copy does not visit stays as it is.** -/
theorem makes_settles (h : Walk.Makes (On t dest P) xs s s') {p : Place}
    (hp : ∀ x ∈ xs, p ≠ P ++ x.path) : s'.disk.get? p = s.disk.get? p := by
  induction h with
  | nil => rfl
  | @cons x xs s s₁ s' hon _ ih =>
    obtain ⟨-, -, e, -, hputs, -⟩ := hon.stage.visit_ok hon.visit
    rw [ih fun y hy => hp y (List.mem_cons_of_mem _ hy), hputs.other (hp x (by simp))]

theorem makes_count (h : Walk.Makes (On t dest P) xs s s') :
    s'.count = s.count + (xs.filter (!·.isDir)).length := by
  have hfold : s'.count = xs.foldl (fun n x => Count.see x n) s.count := by
    induction h with
    | nil => rfl
    | cons hon _ ih =>
      obtain ⟨-, -, e, -, -, hcount⟩ := hon.stage.visit_ok hon.visit
      rw [ih, hcount, List.foldl_cons]
  rw [hfold, Compare.foldl_count]
  rfl

/-- What a visit to `x` left, on a disk `b` on the way from `d` to `d'`, is there in the end. -/
structure LeftBy (t : Tree) (dest : Bytes) (P : Place) (x : Visit) (d b d' : Disk) (e : Entry) : Prop where
  before : Advances P d b
  after : Advances P b d'
  same : b.get? (P ++ x.path) = d.get? (P ++ x.path)
  out : t.LeadsOut x.name b P
  leaves : Leaves t P x b e
  found : d'.find true (Path.below dest x.rel) = .ok (P ++ x.path, e)

/-- **What a copy visits is there in the end.** -/
theorem makes_leaves (h : Walk.Makes (On t dest P) xs s s') (hdist : Distinct xs) :
    ∀ x ∈ xs, ∃ b e, LeftBy t dest P x s.disk b s'.disk e := by
  induction h with
  | nil => exact fun x hx => absurd hx (by simp)
  | @cons y xs s s₁ s' hon hrest ih =>
    intro x hx
    obtain ⟨hne, hrestdist⟩ := List.pairwise_cons.mp hdist
    obtain ⟨hu, hpass, e, hleaves, hputs, -⟩ := hon.stage.visit_ok hon.visit
    rcases List.mem_cons.mp hx with rfl | hx
    · -- This visit was the first.  None of those that followed went to its place.
      have hafter := hon.onward.trans (makes_onward hrest)
      have hget : s'.disk.get? (P ++ x.path) = some e :=
        get?_of_settles hdist hputs fun p hp => makes_settles hrest hp
      have hhome := hon.stage.home.keeps hafter.advances.toKeeps
      refine ⟨s.disk, e, Advances.refl P _, hafter.advances, rfl, hon.out, hleaves, ?_⟩
      rw [hon.stage.proper.rel] at hu ⊢
      exact (hhome.find hon.stage.proper.ne_nil hon.stage.proper.names).mpr
        ⟨hu, hpass.keeps hafter.advances.toKeeps, rfl, hget⟩
    · obtain ⟨b, f, hleft⟩ := ih hrestdist x hx
      exact ⟨b, f, hon.onward.advances.trans hleft.before, hleft.after,
        hleft.same.trans (hputs.other (place_ne (hne x hx)).symm), hleft.out, hleft.leaves, hleft.found⟩

/-- A directory was there before, with its mode, or it is new. -/
theorem LeftBy.of_dir {e : Entry} (h : LeftBy t dest P x d₁ b d' e) (hadds : Adds directoryMode d d₁)
    (hx : x.isDir = true) : ∃ m, e = .dir m ∧
      (d.get? (P ++ x.path) = some (.dir m) ∨ (d.get? (P ++ x.path) = none ∧ m = 0o755)) := by
  have hleaves := h.leaves
  cases hleaves with
  | @dir m _ hm =>
    refine ⟨m, rfl, ?_⟩
    rw [h.same] at hm
    rcases hadds.get? (P ++ x.path) with heq | ⟨hnone, hnew⟩
    · exact Or.inl (heq.symm.trans hm)
    · rw [hnew, Option.some.injEq, Entry.dir.injEq] at hm
      exact Or.inr ⟨hnone, hm.symm⟩
  | newDir _ hnone =>
    refine ⟨directoryMode, rfl, Or.inr ⟨?_, rfl⟩⟩
    rw [h.same] at hnone
    rcases hadds.get? (P ++ x.path) with heq | ⟨hnone, -⟩
    · exact heq.symm.trans hnone
    · exact hnone
  | file hfile => exact absurd (hx.symm.trans hfile) (by simp)

/-- Someone may run a file if one of three bits is set. -/
theorem executable_iff (mode : Nat) : executable mode = true ↔ mode &&& 0o111 ≠ 0 := by
  have hbit : ∀ i, (mode &&& 0o111).testBit i = (decide (mode / 2 ^ i % 2 = 1) && (0o111 : Nat).testBit i) :=
    fun i => by rw [Nat.testBit_and, Nat.testBit_eq_decide_div_mod_eq]
  constructor
  · intro hexec hzero
    rw [hzero] at hbit
    have h0 := hbit 0
    have h3 := hbit 3
    have h6 := hbit 6
    -- The three bits are those at the places 0, 3 and 6.
    have hset : (0o111 : Nat).testBit 0 = true ∧ (0o111 : Nat).testBit 3 = true ∧
        (0o111 : Nat).testBit 6 = true := by decide
    simp [hset] at h0 h3 h6
    simp [executable] at hexec
    omega
  · intro hne
    by_contra hexec
    simp only [executable, Bool.or_eq_true, decide_eq_true_eq, not_or] at hexec
    refine hne (Nat.eq_of_testBit_eq fun i => ?_)
    rw [hbit, Nat.zero_testBit, Bool.and_eq_false_iff, decide_eq_false_iff_not]
    by_cases hi : i = 0 ∨ i = 3 ∨ i = 6
    · left
      rcases hi with rfl | rfl | rfl <;> omega
    · right
      by_cases hlarge : 7 ≤ i
      · exact Nat.testBit_lt_two_pow (Nat.lt_of_lt_of_le (by decide) (Nat.pow_le_pow_right (by decide) hlarge))
      · have hsmall : i = 1 ∨ i = 2 ∨ i = 4 ∨ i = 5 := by omega
        rcases hsmall with rfl | rfl | rfl | rfl <;> decide

/-- The mode of a new file, by the bits of the one that is copied. -/
theorem fileMode_bits (info : Info) :
    fileMode info = if info.mode &&& 0o111 = 0 then 0o644 else 0o755 := by
  unfold fileMode
  by_cases h : info.mode &&& 0o111 = 0
  · rw [if_pos h, if_neg fun hexec => (executable_iff _).mp hexec h]
  · rw [if_neg h, if_pos ((executable_iff _).mpr h)]

/-- A file is read as before the copy, and the mode of its copy is settled by what was there before. -/
theorem LeftBy.opened {e : Entry} (h : LeftBy t dest P x d₁ b d' e) (hadds : Adds directoryMode d d₁)
    (hx : x.isDir = false) : ∃ r info, t.openFile d' x.name = .ok r ∧ r.info = .ok info ∧ r.failure = none ∧
      (∀ r₀, t.openFile d x.name = .ok r₀ → r₀ = r) ∧ (∀ i, t.stat d x.name = .ok i → i = info) ∧
      e = .file (d.settledMode (P ++ x.path) (fileMode info)) r.content := by
  have hleaves := h.leaves
  cases hleaves with
  | dir hdir => exact absurd (hdir.symm.trans hx) (by simp)
  | newDir hdir => exact absurd (hdir.symm.trans hx) (by simp)
  | @file r info _ hacc ho hi hfail =>
    have hretains : Retains P d b := (hadds.retains).trans h.before.toRetains
    have hout : t.LeadsOut x.name d P := h.out.earlier hretains.toKeeps
    have hstat := Tree.stat_of_openFile ho hi
    refine ⟨r, info, h.out.openFile h.after.toRetains ho, hi, hfail, fun r₀ ho₀ => ?_, fun i hi' => ?_, ?_⟩
    · rw [hout.openFile hretains ho₀, Except.ok.injEq] at ho
      exact ho
    · rw [hout.stat hretains hi', Except.ok.injEq] at hstat
      exact hstat
    · -- What decides on the mode is what was at the place before anything was made there.
      have hplace : b.get? (P ++ x.path) = d.get? (P ++ x.path) := by
        rcases hadds.get? (P ++ x.path) with heq | ⟨-, hnew⟩
        · exact h.same.trans heq
        · -- No file can be written where there is a directory.
          rw [← h.same] at hnew
          rcases hacc with ⟨m, c, hfile, -⟩ | ⟨hnone, -⟩
          · exact absurd (hnew.symm.trans hfile) (by simp)
          · exact absurd (hnew.symm.trans hnone) (by simp)
      rw [settledMode, settledMode, hplace]

theorem LeftBy.of_file {e : Entry} (h : LeftBy t dest P x d₁ b d' e) (hadds : Adds directoryMode d d₁)
    (hx : x.isDir = false) : ∃ content info, t.read d' x.name = .ok content ∧ t.stat d' x.name = .ok info ∧
      (∀ c, t.read d x.name = .ok c → c = content) ∧ (∀ i, t.stat d x.name = .ok i → i = info) ∧
      e = .file (d.settledMode (P ++ x.path) (if info.mode &&& 0o111 = 0 then 0o644 else 0o755))
        content := by
  obtain ⟨r, info, ho, hi, hfail, hopen₀, hstat₀, he⟩ := h.opened hadds hx
  refine ⟨r.content, info, Tree.read_eq_ok.mpr ⟨r, ho, hfail, rfl⟩, Tree.stat_of_openFile ho hi,
    fun c hc => ?_, hstat₀, fileMode_bits info ▸ he⟩
  obtain ⟨r₀, ho₀, -, rfl⟩ := Tree.read_eq_ok.mp hc
  rw [hopen₀ r₀ ho₀]

/-! ## 4. The whole of it

`Delivered` is the specification of a copy that succeeded.  It is stated with the functions of the program and
the two disks alone. -/

/-- Where the path of `x` below `dest` leads. -/
def landing (dest : Bytes) (d : Disk) (x : Visit) : Place := d.goal (Path.clean dest) ++ x.path

/-- What a copy from `w` to `dest` that began on the disk `d` and came to `s` has left.  The visits are
those of a walk on the disk that is left.  They are those of a walk on `d` if this succeeds and the path of
the destination makes no detour. -/
structure Delivered (w : Walk.Scope) (dest : Bytes) (d : Disk) (s : State) : Prop where
  walked : (Walk.visits w s.disk).2 = none
  asBefore : Path.clean dest = dest ∨ d.isDirectory dest = true → (Walk.visits w d).2 = none →
    Walk.visits w s.disk = Walk.visits w d
  count : s.count = ((Walk.visits w s.disk).1.filter (!·.isDir)).length
  root : s.disk.isDirectory dest = true
  /-- Directories that are new have a mode of their own; others keep theirs. -/
  dirs : ∀ x ∈ (Walk.visits w s.disk).1, x.isDir = true →
    ∃ m, s.disk.find true (Path.below dest x.rel) = .ok (landing dest d x, .dir m) ∧
      (d.get? (landing dest d x) = some (.dir m) ∨ (d.get? (landing dest d x) = none ∧ m = 0o755))
  /-- Files have the content of the source, which is what it was before the copy, and the mode of the file
  that was there if it could be written. -/
  files : ∀ x ∈ (Walk.visits w s.disk).1, x.isDir = false →
    ∃ content info, w.tree.read s.disk x.name = .ok content ∧ w.tree.stat s.disk x.name = .ok info ∧
      (∀ c, w.tree.read d x.name = .ok c → c = content) ∧
      (∀ i, w.tree.stat d x.name = .ok i → i = info) ∧
      s.disk.find true (Path.below dest x.rel) = .ok (landing dest d x,
        .file (d.settledMode (landing dest d x) (if info.mode &&& 0o111 = 0 then 0o644 else 0o755))
          content)
  /-- All else is as it was, but for new directories that the paths above the destination lead to. -/
  rest : ∀ p, (∀ x ∈ (Walk.visits w s.disk).1, p ≠ landing dest d x) →
    s.disk.get? p = d.get? p ∨ (d.get? p = none ∧ s.disk.get? p = some (.dir 0o755) ∧
      ∃ y, (Above dest y ∨ Above (Path.clean dest) y) ∧ d.goal y = p)
  here : s.disk.here = d.here

/-- The source below `root` and the directory that is copied to are not inside each other, no link of the source
ends in that directory, and there are no links in it.  Nothing is asked about whether the destination is there,
nor about the directories around it. -/
structure Detached (t : Tree) (root dest : Bytes) (d : Disk) : Prop where
  sound : d.Sound
  proper : t.Proper
  noLink : NoLinkIn (d.goal (Path.clean dest)) d
  aloof : t.Aloof root d (d.goal (Path.clean dest))

/-- The condition is about links and the place of the destination, and neither changes. -/
theorem Detached.keeps {root : Bytes} (h : Detached t root dest d) (hk : Keeps d d') (hd' : d'.Sound) :
    Detached t root dest d' :=
  ⟨hd', h.proper, hk.goal_eq _ ▸ h.noLink.keeps hk, hk.goal_eq _ ▸ h.aloof.keeps hk⟩

/-- The walk can begin. -/
theorem Detached.ready {info : Info} (h : Detached w.tree w.root dest d)
    (hstat : w.tree.stat d w.root = .ok info) (hinfo : info.isDir = true) :
    Ready w dest (d.goal (Path.clean dest)) w.root d := by
  refine ⟨⟨h.sound, h.aloof, ⟨info, hstat, hinfo⟩, .root⟩, rfl, h.noLink, [], by simp, rfl, ?_⟩
  cases hdir : d.isDirectory (Path.clean dest) with
  | false => exact Or.inr ⟨rfl, rfl⟩
  | true =>
    have hhome := (Cleared.refl directoryMode dest d).home rfl h.noLink hdir
    exact Or.inl ⟨hhome, by simpa using hhome.dir⟩

/-- Once the destination has been made, all is as it should be. -/
theorem Detached.made {root : Bytes} (h : Detached t root dest d)
    (hm : d.makeDirectories dest directoryMode = (d₀, none)) :
    Detached t root dest d₀ ∧ d₀.goal (Path.clean dest) = d.goal (Path.clean dest) := by
  have hmade := makeDirectories_along d dest directoryMode
  rw [hm] at hmade
  exact ⟨h.keeps hmade.toAdds.keeps (hmade.sound h.sound), hmade.toAdds.keeps.goal_eq _⟩

/-- **A copy that succeeded made the visits that a walk on the disk it left makes.** -/
theorem Detached.recalls {step : State → Visit → State → Prop} (h : Detached w.tree w.root dest d₀)
    (hlasting : Walk.Lasting w (visitor w.tree dest) (Onward dest (d₀.goal (Path.clean dest)))
      (Ready w dest (d₀.goal (Path.clean dest))) step)
    (hrun : Walk.run w (visitor w.tree dest) { disk := d₀ } = (s, none)) :
    Onward dest (d₀.goal (Path.clean dest)) d₀ s.disk ∧ (Walk.visits w s.disk).2 = none ∧
      Walk.Makes step (Walk.visits w s.disk).1 { disk := d₀ } s := by
  obtain ⟨honward, hrecall⟩ := Walk.run_recalls (s := ({ disk := d₀ } : State)) hlasting
    (fun hstat _ hon => h.aloof.leadsOut.stat hon.advances.toRetains hstat) h.ready hrun
  rw [Walk.visits_eq_trace]
  exact ⟨honward, hrecall s.disk (Onward.refl _ _ _)⟩

/-- A copy that began on the disk `d` has come to its end with `s`.  Its destination was made on `d₀`, and its
visits were made on `b`, where the way to the clean form of the destination has been made too. -/
structure Ended (w : Walk.Scope) (dest : Bytes) (P : Place) (d d₀ b : Disk) (s : State) : Prop where
  made : d.makeDirectories dest directoryMode = (d₀, none)
  grounds : Grounds dest d₀ b
  onward : Onward dest P d₀ s.disk
  walked : (Walk.visits w s.disk).2 = none
  makes : Walk.Makes (On w.tree dest P) (Walk.visits w s.disk).1 { disk := b } s

theorem Detached.ended (h : Detached w.tree w.root dest d) (hrun : run w dest false d = (s, none)) :
    ∃ d₀ b, Ended w dest (d.goal (Path.clean dest)) d d₀ b s := by
  obtain ⟨hpatterns, d₀, hm⟩ := run_ok hrun
  rw [run_eq_walk hpatterns hm] at hrun
  obtain ⟨h₀, hgoal⟩ := h.made hm
  obtain ⟨honward, hnone, hmakes⟩ := h₀.recalls (lasting h₀.proper) hrun
  rw [hgoal] at honward hmakes
  obtain ⟨b, hgrounds, hmakes⟩ := makes_grounds hmakes
  exact ⟨d₀, b, hm, hgrounds, honward, hnone, hmakes⟩

/-- A copy visits each place once. -/
theorem distinct_visits (hd : d.Sound) (hproper : w.tree.Proper) : Distinct (Walk.visits w d).1 := by
  rw [Walk.visits_eq_trace]
  exact distinct_of_shaped (Walk.trace_shaped fun _ _ hls => Tree.list_tidy hd hproper hls)

/-- All the directories that are made on the way to the destination. -/
theorem Ended.along (h : Ended w dest P d d₀ b s) : Adds directoryMode d b ∧ ∀ p, b.get? p = d.get? p ∨
    ∃ y, (Above dest y ∨ Above (Path.clean dest) y) ∧ d.goal y = p := by
  have hmade := makeDirectories_along d dest directoryMode
  rw [h.made] at hmade
  have hfirst : ∀ p, d₀.get? p = d.get? p ∨
      ∃ y, (Above dest y ∨ Above (Path.clean dest) y) ∧ d.goal y = p := fun p =>
    (hmade.along p).imp_right fun hy => hy.imp fun y hy => ⟨Or.inl hy.1, hy.2⟩
  -- The way to the clean form may have been made besides, and then more directories are new.
  rcases h.grounds with rfl | ⟨-, hcleared⟩
  · exact ⟨hmade.toAdds, hfirst⟩
  · refine ⟨hmade.toAdds.trans hcleared.toAdds, fun p => ?_⟩
    rcases hcleared.along p with heq | ⟨y, hy, hgoal⟩
    · rw [heq]
      exact hfirst p
    · exact Or.inr ⟨y, Or.inr hy, (hmade.toAdds.keeps.goal_eq y).symm.trans hgoal⟩

section

variable (h : Ended w dest P d d₀ b s) (hd : d.Sound) (hproper : w.tree.Proper)

include h

theorem Ended.keeps : Keeps d s.disk := h.along.1.keeps.trans (makes_onward h.makes).advances.toKeeps

theorem Ended.count : s.count = ((Walk.visits w s.disk).1.filter (!·.isDir)).length :=
  (makes_count h.makes).trans (Nat.zero_add _)

/-- All else is as it was, but for new directories. -/
theorem Ended.rest {p : Place} (hp : ∀ x ∈ (Walk.visits w s.disk).1, p ≠ P ++ x.path) :
    s.disk.get? p = d.get? p ∨ (d.get? p = none ∧ s.disk.get? p = some (.dir directoryMode) ∧
      ∃ y, (Above dest y ∨ Above (Path.clean dest) y) ∧ d.goal y = p) := by
  obtain ⟨hadds, halong⟩ := h.along
  rw [makes_settles h.makes hp]
  rcases hadds.get? p with heq | ⟨hnothing, hnew⟩
  · exact Or.inl heq
  · exact (halong p).imp_right fun hy => ⟨hnothing, hnew, hy⟩

/-- Where the destination's own path was made, what is not visited is as it was then. -/
theorem Ended.settles (hdir : d₀.isDirectory (Path.clean dest) = true) {p : Place}
    (hp : ∀ x ∈ (Walk.visits w s.disk).1, p ≠ P ++ x.path) : s.disk.get? p = d₀.get? p := by
  have hbegin : b = d₀ := h.grounds.resolve_right fun hno => absurd (hdir.symm.trans hno.1) (by simp)
  exact (makes_settles h.makes hp).trans (by rw [hbegin])

include hd

theorem Ended.sound : s.disk.Sound := by
  have hsound := makeDirectories_sound hd dest directoryMode
  rw [h.made] at hsound
  exact h.onward.sound hsound

include hproper

theorem Ended.left (hx : x ∈ (Walk.visits w s.disk).1) :
    ∃ b' e, LeftBy w.tree dest P x b b' s.disk e :=
  makes_leaves h.makes (distinct_visits (h.sound hd) hproper) x hx

theorem Ended.of_dir (hx : x ∈ (Walk.visits w s.disk).1) (hdir : x.isDir = true) :
    ∃ m, s.disk.find true (Path.below dest x.rel) = .ok (P ++ x.path, .dir m) ∧
      (d.get? (P ++ x.path) = some (.dir m) ∨ (d.get? (P ++ x.path) = none ∧ m = 0o755)) := by
  obtain ⟨b', e, hleft⟩ := h.left hd hproper hx
  obtain ⟨m, rfl, hold⟩ := hleft.of_dir h.along.1 hdir
  exact ⟨m, hleft.found, hold⟩

theorem Ended.opened (hx : x ∈ (Walk.visits w s.disk).1) (hfile : x.isDir = false) :
    ∃ r info, w.tree.openFile s.disk x.name = .ok r ∧ r.info = .ok info ∧ r.failure = none ∧
      s.disk.find true (Path.below dest x.rel) =
        .ok (P ++ x.path, .file (d.settledMode (P ++ x.path) (fileMode info)) r.content) := by
  obtain ⟨b', e, hleft⟩ := h.left hd hproper hx
  obtain ⟨r, info, ho, hi, hfail, -, -, rfl⟩ := hleft.opened h.along.1 hfile
  exact ⟨r, info, ho, hi, hfail, hleft.found⟩

theorem Ended.of_file (hx : x ∈ (Walk.visits w s.disk).1) (hfile : x.isDir = false) :
    ∃ content info, w.tree.read s.disk x.name = .ok content ∧ w.tree.stat s.disk x.name = .ok info ∧
      (∀ c, w.tree.read d x.name = .ok c → c = content) ∧
      (∀ i, w.tree.stat d x.name = .ok i → i = info) ∧
      s.disk.find true (Path.below dest x.rel) = .ok (P ++ x.path,
        .file (d.settledMode (P ++ x.path) (if info.mode &&& 0o111 = 0 then 0o644 else 0o755)) content) := by
  obtain ⟨b', e, hleft⟩ := h.left hd hproper hx
  obtain ⟨content, info, hread, hstat, hread₀, hstat₀, rfl⟩ := hleft.of_file h.along.1 hfile
  exact ⟨content, info, hread, hstat, hread₀, hstat₀, hleft.found⟩

end

/-- Where the path makes no detour, making the destination changes nothing beside it. -/
theorem Ended.advances (h : Ended w dest (d.goal (Path.clean dest)) d d₀ b s) (hd : d.Sound)
    (hstraight : Path.clean dest = dest ∨ d.isDirectory dest = true) :
    Advances (d.goal (Path.clean dest)) d s.disk := by
  refine Advances.trans ?_ h.onward.advances
  have hm := h.made
  rcases hstraight with hclean | hdir
  · have hcleared : Cleared directoryMode dest d
        (makeDirectoriesWithin directoryMode (dest.length + 1) d (Path.clean dest)).1 :=
      makeDirectoriesWithin_cleared hd _
    rw [makeDirectories] at hm
    rw [hclean, hm] at hcleared
    exact hcleared.advances rfl
  · rw [makeDirectories_of_isDirectory hdir, Prod.mk.injEq] at hm
    exact hm.1 ▸ Advances.refl _ d

/-- **What a copy that succeeds leaves.** -/
theorem run_delivers (h : Detached w.tree w.root dest d) (hrun : run w dest false d = (s, none)) :
    Delivered w dest d s := by
  obtain ⟨d₀, b, hended⟩ := h.ended hrun
  have hsound := hended.sound h.sound
  exact
    { walked := hended.walked
      asBefore := fun hstraight hbefore =>
        Walk.visits_advances h.sound hsound h.aloof (hended.advances h.sound hstraight) hbefore
      count := hended.count
      root := isDirectory_keeps hended.onward.advances.toKeeps (makeDirectories_isDirectory hended.made)
      dirs := fun _ => hended.of_dir h.sound h.proper
      files := fun _ => hended.of_file h.sound h.proper
      rest := fun _ => hended.rest
      here := (makes_onward hended.makes).advances.here.trans hended.along.1.here }

/-- A kit with a link that leads over `/out`, which is not there.  The path `/via/../out` makes a directory
in `/deep` and leads, in its clean form, to `/out`. -/
def linkOverDestination : Disk :=
  { entries :=
      [([("deep" : Bytes)], .dir 0o755),
        ([("deep" : Bytes), ("er" : Bytes)], .dir 0o755),
        ([("via" : Bytes)], .link "/deep/er"),
        ([("notes" : Bytes)], .file 0o600 "n"),
        ([("kit" : Bytes)], .dir 0o755),
        ([("kit" : Bytes), ("bin" : Bytes)], .dir 0o700),
        ([("kit" : Bytes), ("bin" : Bytes), ("go" : Bytes)], .file 0o710 "x"),
        ([("kit" : Bytes), ("notes" : Bytes)], .link "/out/../notes")] }

theorem linkOverDestination_detached : Detached (.onDisk "/kit") "." "/via/../out" linkOverDestination := by
  refine ⟨sound_of_entries (by decide), trivial, noLinkIn_of_entries (by decide +kernel), ?_⟩
  intro path hpath
  cases hpath
  exact aloof_of_entries (by decide +kernel) (by decide +kernel) (by decide +kernel)

/-- A walk before the copy cannot read the link, and the copy can. -/
theorem run_delivers_linkOverDestination :
    Detached (.onDisk "/kit") "." "/via/../out" linkOverDestination ∧
      (Walk.visits ⟨.onDisk "/kit", ".", []⟩ linkOverDestination).2.isSome = true ∧
      ∃ s, run ⟨.onDisk "/kit", ".", []⟩ "/via/../out" false linkOverDestination = (s, none) ∧ s.count = 2 ∧
        Delivered ⟨.onDisk "/kit", ".", []⟩ "/via/../out" linkOverDestination s := by
  have hrun : run ⟨.onDisk "/kit", ".", []⟩ "/via/../out" false linkOverDestination =
      ((run ⟨.onDisk "/kit", ".", []⟩ "/via/../out" false linkOverDestination).1, none) := by
    refine Prod.ext rfl (Option.isNone_iff_eq_none.mp ?_)
    decide +kernel
  have hcount : (run ⟨.onDisk "/kit", ".", []⟩ "/via/../out" false linkOverDestination).1.count = 2 := by
    decide +kernel
  exact ⟨linkOverDestination_detached, by decide +kernel, _, hrun, hcount,
    run_delivers linkOverDestination_detached hrun⟩

end AgentKit.Copy
