import AgentKit.Proofs.Alongside
import AgentKit.Proofs.Delivery
/-!
# Copying again

A copy that failed can be made again, and the outcome is what it would have been without the failure.
Wherever the first attempt stopped, in the middle of a file even, what it left behind is between what
was there before and what is there in the end (`Between`): at each place the one or the other, a file
perhaps with only part of its content but always with its final mode.  The second attempt starts from
there, and at each visit it finds what the undisturbed copy found, or what that copy left.

Both attempts go alongside the copy that succeeds (`Walk.Alongside`).

1. `Between`, and what such a disk keeps.
2. `Ahead` says what a copy that succeeds has still to do.
3. **A copy that fails stays in between** (`alongside_failing`).
4. **From in between a copy ends as it would have ended** (`alongside_again`).

The content of a file is the one thing in which a place may differ from both ends.  It does not matter, since a copy
empties a file before it writes it.  The mode does matter: an old file that may not be written is replaced, and the
new one gets another mode.  If the first attempt has come so far, then the second finds a file that may be written and
keeps its mode, which is the final one already (`Leaves.between`).
-/

namespace AgentKit

/-- An entry without the content of files. -/
def Entry.outline : Entry → Entry
  | .file m _ => .file m []
  | e => e

namespace Copy

open Disk

variable {w : Walk.Scope} {t t' : Tree} {dest : Bytes} {P p : Place} {d d' d₀ d₁ d₁' d₂ b : Disk} {x : Visit}
  {xs : List Visit} {s s' s₁ s₂ r : State} {e : Entry} {m : Nat} {a : Option Entry}

/-! ## 1. In between

The visits that count are those still to be made.  With each of them the list gets shorter, and when it is empty
the disk in between is the disk in the end. -/

/-- The same at a place, except that a file may have other content. -/
def Alike (a b : Option Entry) : Prop := a.map Entry.outline = b.map Entry.outline

/-- Only the content of files is left out, so directories and links that are alike are the same. -/
theorem alike_dir (h : Alike a (some (.dir m))) : a = some (.dir m) := by
  cases a with
  | none => cases h
  | some e => cases e <;> simp_all [Alike, Entry.outline]

theorem alike_link {k : Bytes} (h : Alike a (some (.link k))) : a = some (.link k) := by
  cases a with
  | none => cases h
  | some e => cases e <;> simp_all [Alike, Entry.outline]

theorem alike_file {c : Bytes} (h : Alike a (some (.file m c))) : ∃ c', a = some (.file m c') := by
  cases a with
  | none => cases h
  | some e => cases e <;> simp_all [Alike, Entry.outline]

theorem link_alike {k : Bytes} {b : Option Entry} (h : Alike (some (.link k)) b) :
    b = some (.link k) := alike_link (Eq.symm h)

/-- At the places of the visits `d'` may have what `d₂` has; otherwise it has what `d` has. -/
structure Between (P : Place) (xs : List Visit) (d d₂ d' : Disk) : Prop where
  here : d'.here = d.here
  get? : ∀ p, d'.get? p = d.get? p ∨
    ((∃ x ∈ xs, p = P ++ x.path) ∧ Alike (d'.get? p) (d₂.get? p))

theorem Between.refl (P : Place) (xs : List Visit) (d d₂ : Disk) : Between P xs d d₂ d :=
  ⟨rfl, fun _ => Or.inl rfl⟩

/-- Directories and links are kept, since both ends have them. -/
theorem Between.keeps (h : Between P xs d d₂ d') (hk : Keeps d d₂) : Keeps d d' := by
  refine ⟨h.here, fun p m hm => ?_, fun p k => ?_⟩
  · rcases h.get? p with heq | ⟨-, hlike⟩
    · exact heq.trans hm
    · rw [hk.dir p m hm] at hlike
      exact alike_dir hlike
  · rcases h.get? p with heq | ⟨-, hlike⟩
    · rw [heq]
    · constructor
      · intro hl
        rw [hl] at hlike
        exact (hk.link p k).mp (link_alike hlike)
      · intro hl
        rw [(hk.link p k).mpr hl] at hlike
        exact alike_link hlike

theorem Between.outside (h : Between P xs d d₂ d') : AgreeOutside P d d' := by
  intro r hr
  rcases h.get? r with heq | ⟨⟨x, -, rfl⟩, -⟩
  · exact heq
  · exact absurd (List.prefix_append P x.path) hr

theorem Between.advances (h : Between P xs d d₂ d') (hk : Keeps d d₂) : Advances P d d' :=
  ⟨⟨h.keeps hk, fun p _ hp he => (h.outside p hp).trans he⟩, fun p hp _ => h.outside p hp⟩

/-- What is in between after the next visit is in between before it. -/
theorem Between.cons (h : Between P xs d₁ d₂ d') (hputs : Puts d (P ++ x.path) e d₁)
    (hx : d₂.get? (P ++ x.path) = some e) : Between P (x :: xs) d d₂ d' := by
  refine ⟨h.here.trans hputs.here, fun p => ?_⟩
  rcases h.get? p with heq | ⟨⟨y, hy, hp⟩, hlike⟩
  · by_cases hp : p = P ++ x.path
    · subst hp
      exact Or.inr ⟨⟨x, by simp, rfl⟩, by rw [heq, hputs.self, hx]; rfl⟩
    · rw [hputs.other hp] at heq
      exact Or.inl heq
  · exact Or.inr ⟨⟨y, List.mem_cons_of_mem _ hy, hp⟩, hlike⟩

/-- What is left at the place of the next visit is no longer in between. -/
theorem Between.tail (h : Between P (x :: xs) d d₂ d') (hputs : Puts d (P ++ x.path) e d₁)
    (hputs' : Puts d' (P ++ x.path) e d₁') : Between P xs d₁ d₂ d₁' := by
  refine ⟨by rw [hputs'.here, hputs.here, h.here], fun p => ?_⟩
  by_cases hp : p = P ++ x.path
  · subst hp
    exact Or.inl (hputs'.self.trans hputs.self.symm)
  · rw [hputs'.other hp, hputs.other hp]
    rcases h.get? p with heq | ⟨⟨y, hy, hyp⟩, hlike⟩
    · exact Or.inl heq
    · rcases List.mem_cons.mp hy with rfl | hy
      · exact absurd hyp hp
      · exact Or.inr ⟨⟨y, hy, hyp⟩, hlike⟩

theorem Between.same (h : Between P [] d d₂ d') : d'.Same d := by
  refine ⟨h.here, fun p => (h.get? p).resolve_right ?_⟩
  rintro ⟨⟨x, hx, -⟩, -⟩
  cases hx

/-! ## 2. What is ahead

A copy that succeeds is the sum of its visits.  Where the destination is missing at first, the visits are taken
as if it had been made before the first of them, which comes to the same. -/

/-- The visits `xs` that lead from `s` to `s₂`.  They are made as on the disk `b`, where the way to the
destination has been made too if it is not there. -/
structure Ahead (t : Tree) (dest : Bytes) (P : Place) (s₂ : State) (xs : List Visit) (s : State)
    (b : Disk) : Prop where
  grounds : Grounds dest s.disk b
  makes : Walk.Makes (On t dest P) xs { s with disk := b } s₂
  next : ∀ x ∈ xs.head?, visit t dest false x { s with disk := b } = visit t dest false x s
  distinct : Distinct xs

/-- A step of a copy that is the visit of the tree `t`. -/
def Took (t : Tree) (dest : Bytes) (P : Place) (s : State) (x : Visit) (s' : State) : Prop :=
  visit t dest false x s = (s', none) ∧ Step t dest P s x s'

theorem lasting_took (hproper : w.tree.Proper) :
    Walk.Lasting w (visitor w.tree dest) (Onward dest P) (Ready w dest P) (Took w.tree dest P) :=
  (lasting hproper).visited

/-- The visits of a copy that succeeded are ahead of it at the beginning. -/
theorem exists_ahead (h : Walk.Makes (Took t dest P) xs s s₂) (hdist : Distinct xs) :
    ∃ b, Ahead t dest P s₂ xs s b := by
  cases h with
  | nil => exact ⟨s.disk, Or.inl rfl, .nil _, by simp, hdist⟩
  | cons hfirst hrest =>
    obtain ⟨hv, b, hb, hon⟩ := hfirst
    have hrest := makes_on (hrest.mono fun h => h.2) hon.settled
    refine ⟨b, hb, .cons hon hrest, fun y hy => ?_, hdist⟩
    obtain rfl := Option.some.inj hy
    exact hon.visit.trans hv.symm

theorem Ahead.done (h : Ahead t dest P s₂ [] s b) : s₂ = { s with disk := b } := by
  have hmakes := h.makes
  generalize ({ s with disk := b } : State) = s₁ at hmakes
  cases hmakes
  rfl

theorem Ahead.keeps (h : Ahead t dest P s₂ xs s b) : Keeps b s₂.disk :=
  (makes_onward h.makes).advances.toKeeps

theorem Ahead.visit (h : Ahead t dest P s₂ (x :: xs) s b) (hv : visit t dest false x s = (s', none)) :
    On t dest P { s with disk := b } x s' ∧ Ahead t dest P s₂ xs s' s'.disk := by
  obtain ⟨-, hmakes, hnext, hdist⟩ := h
  cases hmakes with
  | cons hon hrest =>
    have heq := hon.visit.symm.trans ((hnext x (by simp)).trans hv)
    obtain rfl := (Prod.mk.inj heq).1
    exact ⟨hon, Or.inl rfl, hrest, fun _ _ => rfl, (List.pairwise_cons.mp hdist).2⟩

/-- What the next visit leaves, which is there in the end. -/
theorem Ahead.leaves (h : Ahead t dest P s₂ (x :: xs) s b) (hv : Copy.visit t dest false x s = (s', none)) :
    Usable (Path.below dest x.rel) ∧ b.Passable P x.path ∧ ∃ e, Leaves t P x b e ∧
      Puts b (P ++ x.path) e s'.disk ∧ s'.count = Count.see x s.count ∧
      s₂.disk.get? (P ++ x.path) = some e := by
  obtain ⟨hon, hrest⟩ := h.visit hv
  obtain ⟨hu, hpass, e, hl, hputs, hcount⟩ := hon.stage.visit_ok hon.visit
  exact ⟨hu, hpass, e, hl, hputs, hcount,
    get?_of_settles h.distinct hputs fun p hp => makes_settles hrest.makes hp⟩

/-- What is in between after the next visit is so before it, because what the visit leaves stays. -/
theorem Ahead.between (h : Ahead t dest P s₂ (x :: xs) s b) (hv : Copy.visit t dest false x s = (s', none))
    (hb : Between P xs s'.disk s₂.disk d') : Between P (x :: xs) b s₂.disk d' := by
  obtain ⟨-, -, e, -, hputs, -, hx⟩ := h.leaves hv
  exact hb.cons hputs hx

/-! ## 3. A copy that fails

The two walks are in the same state until the second fails.  So there is nothing to compare but the visit at
which that happens. -/

theorem visit_of_file_failure {f : Failure} (hfile : x.isDir = false)
    (h : file t s.disk x.name (Path.below dest x.rel) = (d', some f)) :
    visit t dest false x s =
      ({ s with disk := d', count := s.count + 1 }, some (.during ("failed to copy " ++ x.rel) f)) := by
  unfold visit
  simp [hfile, h]

/-- What a visit leaves that fails where another succeeds: its place as it was, or with a file that has
another content. -/
def Torn (t : Tree) (P : Place) (x : Visit) (d d₁ d' : Disk) : Prop :=
  d' = d ∨ ∃ m c c', Leaves t P x d (.file m c) ∧ d₁.get? (P ++ x.path) = some (.file m c) ∧
    Puts d (P ++ x.path) (.file m c') d'

/-- A tree that fails more is read from the same places. -/
theorem Stage.failsMore (hs : Stage t dest P x d) (hfail : t'.FailsMore t) : Stage t' dest P x d := by
  refine ⟨hs.home, hs.sound, hs.proper, hs.parent, fun hfile r p hr hp => ?_⟩
  rcases hfail.openFile d x.name with ⟨f, hf⟩ | ⟨r₁, r₂, h₁, h₂, hmore⟩
  · exact absurd (hf.symm.trans hr) (by simp)
  · rw [h₁, Except.ok.injEq] at hr
    subst hr
    exact hs.source hfile r₂ p h₂ (hmore.place ▸ hp)

/-- A visit from a tree that fails more does the same, or fails. -/
theorem Stage.visit_failsMore (hs : Stage t dest P x s.disk) (hfail : t'.FailsMore t)
    (hv : visit t dest false x s = (s₁, none)) :
    visit t' dest false x s = visit t dest false x s ∨
      ∃ s' f, visit t' dest false x s = (s', some f) ∧ Torn t P x s.disk s₁.disk s'.disk := by
  have hs' := hs.failsMore hfail
  obtain ⟨hu, hpass, e, hl, hputs₁, -⟩ := hs.visit_ok hv
  cases hdir : x.isDir with
  | true =>
    left
    unfold visit
    simp [hdir]
  | false =>
    cases hl with
    | dir h => exact absurd (h.symm.trans hdir) (by simp)
    | newDir h => exact absurd (h.symm.trans hdir) (by simp)
    | @file r info hfile hacc ho hi hnone =>
      have hrefused : ∀ {f}, file t' s.disk x.name (Path.below dest x.rel) = (s.disk, some f) →
          ∃ s' f, visit t' dest false x s = (s', some f) ∧ Torn t P x s.disk s₁.disk s'.disk :=
        fun hf => ⟨_, _, visit_of_file_failure hdir hf, Or.inl rfl⟩
      rcases hfail.openFile s.disk x.name with ⟨f, hf⟩ | ⟨r', r₂, hr', hr₂, hmore⟩
      · obtain ⟨f, hf⟩ := file_refused hs'.home hs'.proper (Or.inl ⟨f, hf⟩)
        exact Or.inr (hrefused hf)
      rw [ho, Except.ok.injEq] at hr₂
      subst hr₂
      -- The file is opened in both trees.  What is known of it may be missing, or its content cut short.
      rcases hmore.info with hinfo | ⟨f, hinfo⟩
      · rcases hmore.content with ⟨hcontent, hfailure⟩ | ⟨-, hfailure⟩
        · -- The same comes out of both.
          have hsame : r' = r := by
            have hplace := hmore.place
            cases r
            cases r'
            exact Reading.mk.injEq .. ▸ ⟨hinfo, hcontent, hfailure, hplace⟩
          left
          unfold visit file
          rw [hr', ho, hsame]
        · obtain ⟨f, hf⟩ := Option.ne_none_iff_exists'.mp hfailure
          obtain ⟨d', hwritten, hputs⟩ := file_written hs'.home hs'.proper hu hpass hacc hr'
            (hinfo.trans hi) (hs'.source hdir r' · hr')
          rw [hf] at hwritten
          exact Or.inr ⟨_, _, visit_of_file_failure hdir hwritten,
            Or.inr ⟨_, _, _, .file hfile hacc ho hi hnone, hputs₁.self, hputs⟩⟩
      · obtain ⟨f, hf⟩ := file_refused hs'.home hs'.proper (Or.inr (Or.inl ⟨r', f, hr', hinfo⟩))
        exact Or.inr (hrefused hf)

/-- Such a place is in between. -/
theorem Torn.between (h : Torn t P x d d₁ d') (hs : Stage t dest P x d)
    (hputs : Puts d (P ++ x.path) e d₁) (hx : d₂.get? (P ++ x.path) = some e) :
    Between P (x :: xs) d d₂ d' ∧ d'.Sound := by
  rcases h with rfl | ⟨m, c, c', hl, hfile, hputs'⟩
  · exact ⟨Between.refl P _ _ _, hs.sound⟩
  · rw [hputs.self, Option.some.injEq] at hfile
    rw [hfile] at hx
    have hgentle : Gentle d (P ++ x.path) (.file m c') :=
      ⟨fun k hk => absurd ((hl.gentle hs.home).dir k hk) (by simp),
        fun k => ⟨((hl.gentle hs.home).link k).1, by simp⟩⟩
    refine ⟨⟨hputs'.here, fun p => ?_⟩, puts_sound hs.proper hs.sound hs.parent hputs' hgentle⟩
    by_cases hp : p = P ++ x.path
    · subst hp
      exact Or.inr ⟨⟨x, by simp, rfl⟩, by rw [hputs'.self, hx]; rfl⟩
    · exact Or.inl (hputs'.other hp)

/-- A copy that has not got past its beginning `d₀`, or has come in between. -/
def Partway (P : Place) (xs : List Visit) (d₀ b d₂ d : Disk) : Prop :=
  d = d₀ ∨ (Between P xs b d₂ d ∧ d.Sound)

/-- The failing copy is where the other is, and whatever is in between from there on is so from the
beginning. -/
def Following (t : Tree) (dest : Bytes) (P : Place) (all : List Visit) (d₀ b : Disk) (s₂ : State)
    (xs : List Visit) (s r : State) : Prop :=
  r = s ∧ Partway P all d₀ b s₂.disk s.disk ∧ ∃ c, Ahead t dest P s₂ xs s c ∧
    ∀ d', Between P xs c s₂.disk d' → Between P all b s₂.disk d'

/-- **A copy that fails stays in between.** -/
theorem alongside_failing {all : List Visit} (hproper : w.tree.Proper) (hfail : t'.FailsMore w.tree) :
    Walk.Alongside w t' (visitor w.tree dest) (visitor t' dest) (Onward dest P) (Ready w dest P)
      (Took w.tree dest P) (Following w.tree dest P all d₀ b s₂) fun r => Partway P all d₀ b s₂.disk r.disk := by
  refine ⟨lasting_took hproper, hfail.depth, fun {dir s ls xs r} _ hrel hls => ?_,
    fun {dir s ls l info xs r} _ hrel _ _ hstat => ?_, fun {dir s s' ls l isDir xs r} _ _ _ hv hrel => ?_⟩
  · obtain ⟨rfl, hpart, -⟩ := hrel
    exact (hfail.list _ _).imp (fun heq => heq.trans hls) fun hf => ⟨hpart, hf⟩
  · obtain ⟨rfl, hpart, -⟩ := hrel
    exact (hfail.stat _ _).imp (fun heq => heq.trans hstat) fun hf => ⟨hpart, hf⟩
  · obtain ⟨rfl, hpart, c, hahead, hall⟩ := hrel
    generalize w.visitOf (Path.child dir l.name) isDir = x at hv hahead hall
    have hv : visit w.tree dest false x r = (s', none) := hv
    obtain ⟨hon, hrest⟩ := hahead.visit hv
    have hbetween : ∀ d', Between P xs s'.disk s₂.disk d' → Between P all b s₂.disk d' :=
      fun d' hb => hall d' (hahead.between hv hb)
    have hsame : visit t' dest false x r = visit w.tree dest false x r →
        ∃ r', visit t' dest false x r = (r', none) ∧ Following w.tree dest P all d₀ b s₂ xs s' r' :=
      fun heq => ⟨s', heq.trans hv, rfl, Or.inr ⟨hbetween _ (Between.refl P xs _ _),
        hon.onward.sound hon.stage.sound⟩, s'.disk, hrest, hbetween⟩
    -- If the destination is there, the visit is compared with that of the tree without faults.
    rcases hahead.grounds with rfl | ⟨hno, -⟩
    · rcases hon.stage.visit_failsMore hfail hv with heq | ⟨r', f, hfails, hcut⟩
      · exact Or.inl (hsame heq)
      · obtain ⟨-, -, e, -, hputs, -, hx⟩ := hahead.leaves hv
        obtain ⟨hb, hsound⟩ := hcut.between hon.stage hputs hx
        exact Or.inr ⟨r', f, hfails, Or.inr ⟨hall _ hb, hsound⟩⟩
    · -- Only a directory can be visited, and none of this reads from the source.
      have hproper := hon.stage.proper
      have hdir := isDir_of_nowhere hproper.ne_nil hproper.names hproper.rel hno hv
      refine Or.inl (hsame ?_)
      unfold visit
      simp [hdir]

/-! ## 4. A second copy

The second walk is not in the same state as the first.  Its disk is in between what the first has and what it
will leave. -/

/-- What a copy writes may be written again. -/
theorem settledMode_writable (d : Disk) (p : Place) (info : Info) :
    writable (d.settledMode p (fileMode info)) = true := by
  unfold settledMode
  split
  · split
    · rename_i hw
      exact hw
    · exact fileMode_writable info
  · exact fileMode_writable info

/-- At a place in between, a visit leaves what it would have left. -/
theorem Leaves.between (hl : Leaves t P x d e) (hkeeps : Keeps d d')
    (hread : ∀ r, t.openFile d x.name = .ok r → t.openFile d' x.name = .ok r)
    (hget : d'.get? (P ++ x.path) = d.get? (P ++ x.path) ∨ Alike (d'.get? (P ++ x.path)) (some e)) :
    Leaves t P x d' e := by
  have hallows : ∀ {p}, d.allowsChange p = true → d'.allowsChange p = true := by
    intro p hch
    obtain ⟨m, hm, hws⟩ := allowsChange_iff.mp hch
    exact allowsChange_iff.mpr ⟨m, hkeeps.dir p m hm, hws⟩
  -- What is at the place is what the first copy found there, or it is like what that copy left.
  cases hl with
  | dir hdir hm => exact .dir hdir (hget.elim (fun h => h.trans hm) alike_dir)
  | newDir hdir hnone hch =>
    rcases hget with heq | hlike
    · exact .newDir hdir (heq.trans hnone) (hallows hch)
    · exact .dir hdir (alike_dir hlike)
  | @file r info hfile hacc ho hi hfail =>
    have ho' := hread r ho
    rcases hget with heq | hlike
    · have hmode : d'.settledMode (P ++ x.path) (fileMode info) =
          d.settledMode (P ++ x.path) (fileMode info) := by
        rw [settledMode, settledMode, heq]
      rw [← hmode]
      refine .file hfile ?_ ho' hi hfail
      rcases hacc with ⟨m, c, hm, hw⟩ | ⟨hnone, hch⟩
      · exact Or.inl ⟨m, c, heq.trans hm, hw.imp_right hallows⟩
      · exact Or.inr ⟨heq.trans hnone, hallows hch⟩
    · -- The file is there already, and it may be written.
      obtain ⟨c, hc⟩ := alike_file hlike
      have hw := settledMode_writable d (P ++ x.path) info
      have hmode : d'.settledMode (P ++ x.path) (fileMode info) =
          d.settledMode (P ++ x.path) (fileMode info) := by
        nth_rewrite 1 [settledMode]
        rw [hc]
        dsimp only
        rw [if_pos hw]
      rw [← hmode]
      exact .file hfile (Or.inl ⟨_, c, hc, Or.inl hw⟩) ho' hi hfail

/-- The second copy is in between what the other has still to do. -/
def Repeating (t : Tree) (dest : Bytes) (P : Place) (s₂ : State) (xs : List Visit) (s r : State) : Prop :=
  ∃ b, Ahead t dest P s₂ xs s b ∧ Between P xs b s₂.disk r.disk ∧ r.disk.Sound ∧ r.count = s.count

/-- The disk of the second walk is one that the first could have come to. -/
theorem Repeating.advances (h : Repeating t dest P s₂ xs s s') (hgoal : s.disk.goal (Path.clean dest) = P) :
    Advances P s.disk s'.disk := by
  obtain ⟨b, hahead, hb, -⟩ := h
  exact (hahead.grounds.advances hgoal).trans (hb.advances hahead.keeps)

/-- The next visit finds what it needs. -/
theorem Between.stage (h : Between P xs d d₂ d') (hk : Keeps d d₂) (hd' : d'.Sound)
    (hs : Stage t dest P x d) (hout : t.LeadsOut x.name d P) (hl : Leaves t P x d e) :
    Stage t dest P x d' := by
  have hadv := h.advances hk
  obtain ⟨m, hm⟩ := hs.parent
  refine ⟨hs.home.keeps hadv.toKeeps, hd', hs.proper, ⟨m, hadv.dir _ m hm⟩, fun hfile r p hr hp => ?_⟩
  cases hl with
  | dir hdir => exact absurd (hdir.symm.trans hfile) (by simp)
  | newDir hdir => exact absurd (hdir.symm.trans hfile) (by simp)
  | @file r₀ info _ _ ho =>
    have heq := (hout.openFile hadv.toRetains ho).symm.trans hr
    obtain rfl := Except.ok.inj heq
    exact hs.source hfile r₀ p ho hp

/-- A visit that the undisturbed copy makes can be made in between, and leaves the same. -/
theorem Repeating.visit (h : Repeating t dest P s₂ (x :: xs) s r)
    (hv : visit t dest false x s = (s', none)) :
    ∃ r', Copy.visit t dest false x r = (r', none) ∧ Repeating t dest P s₂ xs s' r' := by
  obtain ⟨b, hahead, hb, hsound, hcount⟩ := h
  obtain ⟨hon, hrest⟩ := hahead.visit hv
  obtain ⟨husable, hpass, e, hl, hputs, hcount', hx⟩ := hahead.leaves hv
  have hadv := hb.advances hahead.keeps
  have hstage := hb.stage hahead.keeps hsound hon.stage hon.out hl
  have hl' : Leaves t P x r.disk e := by
    refine hl.between hadv.toKeeps (fun r₀ ho => hon.out.openFile hadv.toRetains ho) ?_
    rcases hb.get? (P ++ x.path) with heq | ⟨-, hlike⟩
    · exact Or.inl heq
    · exact Or.inr (hx ▸ hlike)
  obtain ⟨r', hr', hputs', hcount''⟩ := hstage.visit_of_leaves husable (hpass.keeps hadv.toKeeps) hl'
  exact ⟨r', hr', s'.disk, hrest, hb.tail hputs hputs',
    puts_sound hstage.proper hsound hstage.parent hputs' (hl'.gentle hstage.home),
    by rw [hcount'', hcount', hcount]⟩

/-- **From in between a copy ends as it would have ended.** -/
theorem alongside_again (hproper : w.tree.Proper) :
    Walk.Alongside w w.tree (visitor w.tree dest) (visitor w.tree dest) (Onward dest P) (Ready w dest P)
      (Took w.tree dest P) (Repeating w.tree dest P s₂) fun _ => False := by
  refine ⟨lasting_took hproper, rfl, fun {dir s ls xs r} hready hrel hls => ?_,
    fun {dir s ls l info xs r} hready hrel hls hl hstat => ?_, fun _ _ _ hv hrel => Or.inl (hrel.visit hv)⟩
  · exact Or.inl (hready.toSighted.list (hrel.advances hready.goal) hls)
  · exact Or.inl ((hready.toSighted.item hls hl).stat (hrel.advances hready.goal).toRetains hstat)

section

variable (h : Detached w.tree w.root dest d₀)
  (hrun : Walk.run w (visitor w.tree dest) { disk := d₀ } = (s, none))

include h hrun

/-- The visits of the whole copy, read off the disk that it left. -/
theorem Detached.ahead : ∃ b, Ahead w.tree dest (d₀.goal (Path.clean dest)) s (Walk.trace w s.disk).1
    { disk := d₀ } b := by
  obtain ⟨honward, -, hmakes⟩ := h.recalls (lasting_took h.proper) hrun
  rw [← Walk.visits_eq_trace]
  exact exists_ahead hmakes (distinct_visits (honward.sound h.sound) h.proper)

/-- Where the first attempt may stop. -/
theorem Detached.partway (hfail : t'.FailsMore w.tree)
    (hahead : Ahead w.tree dest (d₀.goal (Path.clean dest)) s (Walk.trace w s.disk).1 { disk := d₀ } b) :
    Partway (d₀.goal (Path.clean dest)) (Walk.trace w s.disk).1 d₀ b s.disk
      (Walk.run { w with tree := t' } (visitor t' dest) { disk := d₀ }).1.disk := by
  have hrel : Following w.tree dest (d₀.goal (Path.clean dest)) (Walk.trace w s.disk).1 d₀ b s
      (Walk.trace w s.disk).1 { disk := d₀ } { disk := d₀ } :=
    ⟨rfl, Or.inl rfl, b, hahead, fun _ hb => hb⟩
  rcases Walk.run_alongside (s := ({ disk := d₀ } : State)) (alongside_failing h.proper hfail)
    (fun hstat _ hon => h.aloof.leadsOut.stat hon.advances.toRetains hstat)
    (fun hstat => (hfail.stat d₀ w.root).imp (fun heq => heq.trans hstat) fun hf => ⟨Or.inl rfl, hf⟩)
    h.ready hrun hrel with ⟨r, hr, rfl, hpart, -⟩ | ⟨r, f, hr, hlost⟩
  · rw [hr]
    exact hpart
  · rw [hr]
    exact hlost

/-- How the second attempt ends. -/
theorem Detached.again (hrel : Repeating w.tree dest (d₀.goal (Path.clean dest)) s (Walk.trace w s.disk).1
    { disk := d₀ } r) :
    ∃ s', Walk.run w (visitor w.tree dest) r = (s', none) ∧ s'.count = s.count ∧ s'.disk.Same s.disk := by
  rcases Walk.run_alongside (s := ({ disk := d₀ } : State)) (alongside_again h.proper)
    (fun hstat _ hon => h.aloof.leadsOut.stat hon.advances.toRetains hstat)
    (fun hstat => Or.inl (h.aloof.leadsOut.stat (hrel.advances rfl).toRetains hstat))
    h.ready hrun hrel with ⟨s', hs', b, hahead, hb, -, hcount⟩ | ⟨-, -, -, hfalse⟩
  · have hdisk : b = s.disk := congrArg State.disk hahead.done.symm
    exact ⟨s', hs', hcount, hdisk ▸ hb.same⟩
  · exact hfalse.elim

end

/-- **A copy that failed can be made again.**  If the copy of a tree succeeds, it also succeeds after an
attempt with a tree that fails more, wherever that attempt stopped, and in the end the same files have been
copied and the disk is the same.  After a whole copy, which is the case that nothing fails, this says that
copying again changes nothing. -/
theorem run_after_failure {source faulty : Tree} {root : Bytes} {exclude : List Bytes}
    (hdet : Detached source root dest d) (hfail : faulty.FailsMore source)
    (h : run ⟨source, root, exclude⟩ dest false d = (s, none)) :
    ∃ s', run ⟨source, root, exclude⟩ dest false
        (run ⟨faulty, root, exclude⟩ dest false d).1.disk = (s', none) ∧
      s'.count = s.count ∧ s'.disk.Same s.disk := by
  obtain ⟨hp, d₀, hm⟩ := run_ok h
  have hwalk := run_eq_walk hp hm ▸ h
  obtain ⟨h₀, -⟩ := hdet.made hm
  obtain ⟨b, hahead⟩ := h₀.ahead hwalk
  -- The first attempt.
  rw [run_eq_walk (w := ⟨faulty, root, exclude⟩) hp hm]
  have hpart := h₀.partway hwalk hfail hahead
  generalize (Walk.run ⟨faulty, root, exclude⟩ (visitor faulty dest) { disk := d₀ }).1.disk = d₁ at hpart
  -- The second one, which finds the destination made.
  have hdir := makeDirectories_isDirectory hm
  rcases hpart with rfl | ⟨hb, hsound⟩
  · rw [run_eq_walk hp (makeDirectories_of_isDirectory hdir)]
    exact ⟨s, hwalk, rfl, rfl, fun _ => rfl⟩
  · have hrel : Repeating source dest _ s _ { disk := d₀ } { disk := d₁ } := ⟨b, hahead, hb, hsound, rfl⟩
    have hadv := hrel.advances rfl
    rw [run_eq_walk hp (makeDirectories_of_isDirectory (isDirectory_keeps hadv.toKeeps hdir))]
    exact h₀.again hwalk hrel

/-- A kit with a link that leads over its place, where an older file may not be written. -/
def lockedOlderFile : Disk :=
  { entries :=
      [([("kit" : Bytes)], .dir 0o755),
        ([("kit" : Bytes), ("guide" : Bytes)], .file 0o644 "new"),
        ([("kit" : Bytes), ("link" : Bytes)], .link "/here/../kit/guide"),
        ([("here" : Bytes)], .dir 0o755),
        ([("here" : Bytes), ("guide" : Bytes)], .file 0o444 "old")] }

/-- The kit as a medium gives it that fails after the first byte of the second file. -/
def kitCutShort : Tree := .faulty [⟨"link", .reading 1, .cutShort⟩] (.onDisk "/kit")

theorem lockedOlderFile_detached : Detached (.onDisk "/kit") "." "/here" lockedOlderFile := by
  refine ⟨sound_of_entries (by decide), trivial, noLinkIn_of_entries (by decide +kernel), ?_⟩
  intro path hpath
  cases hpath
  exact aloof_of_entries (by decide +kernel) (by decide +kernel) (by decide +kernel)

/-- The first attempt replaces the old file and stops after a byte of the new one. -/
theorem run_after_failure_kitCutShort :
    Detached (.onDisk "/kit") "." "/here" lockedOlderFile ∧ kitCutShort.FailsMore (.onDisk "/kit") ∧
      (run ⟨kitCutShort, ".", []⟩ "/here" false lockedOlderFile).2.isSome = true ∧
      ∃ s', run ⟨.onDisk "/kit", ".", []⟩ "/here" false
          (run ⟨kitCutShort, ".", []⟩ "/here" false lockedOlderFile).1.disk = (s', none) ∧
        s'.count = 2 ∧ s'.disk.Same (run ⟨.onDisk "/kit", ".", []⟩ "/here" false lockedOlderFile).1.disk := by
  have hrun : run ⟨.onDisk "/kit", ".", []⟩ "/here" false lockedOlderFile =
      ((run ⟨.onDisk "/kit", ".", []⟩ "/here" false lockedOlderFile).1, none) := by
    refine Prod.ext rfl (Option.isNone_iff_eq_none.mp ?_)
    decide +kernel
  have hcount : (run ⟨.onDisk "/kit", ".", []⟩ "/here" false lockedOlderFile).1.count = 2 := by decide +kernel
  have hfail : kitCutShort.FailsMore (.onDisk "/kit") := Tree.faulty_failsMore _ _
  refine ⟨lockedOlderFile_detached, hfail, by decide +kernel, ?_⟩
  rw [← hcount]
  exact run_after_failure lockedOlderFile_detached hfail hrun

end Copy

end AgentKit
