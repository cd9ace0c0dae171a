import AgentKit.Proofs.Delivery
/-!
# What a copy leaves that fails

A copy stops at the first failure and takes nothing back.  What it leaves is told here place by place: nothing
is gone or has become something else, and every file is as it was or has the whole content of the source, but
for one at most.  That one is the file the failure names, if its source could be opened and broke off while it
was read.

1. As for a walk that went well, the visits of a walk that failed are read off the disk that is left.
   `Lapsing` adds to `Lasting` what is needed of visits that fail, and **a walk that failed made visits that
   the trace on the disk it left begins with** (`Walk.run_halted`).
2. A directory that cannot be made may leave some of those on the way to it.  They are in the place that is
   copied to or around it (`Disk.makeDirectories_spreads`).
3. `Miss` are the visits that fail.  **What a copy has read lasts, also if it fails** (`lapsing`).
4. `Fate` is what can be at a place in the end (`Broken.fate`).
5. `Halted` puts it together (`run_halts`).

The first section is about walks in general and mirrors `Hindsight`, part by part.  The difference is that a walk which
fails ends in the middle of its trace.  At the end of the part that failed there are two possibilities, and `Halts` has
one constructor for each: the walk itself could not go on, and then so it is still, or a visit failed, and then the
trace may go on behind it.

The rest of the proof is about the last visit.  All that is before it went well, so the step lemmas of `Delivery` apply
to it, and only what one failing visit can change has to be found out anew.
-/

namespace AgentKit

/-! ## 1. Walks that fail, in hindsight

The parts are those of the definition of a walk: an item, the items of a directory, a directory.  In each of them
either the first thing failed, and the rest of the trace does not matter, or the first thing went well and can be
recalled. -/

namespace Walk

variable {σ : Type} {w : Scope} {v : Visitor σ} {s s₁ s' : σ} {dir : Bytes} {ls : List Listed} {l : Listed}
  {later : Disk → Disk → Prop} {ready : Bytes → Disk → Prop} {step : σ → Visit → σ → Prop}
  {miss : σ → Visit → σ → Failure → Prop} {f : Failure} {a b : Trace}

/-- What led from `s` to `s'` and to the failure `f` was to make the visits of a trace that ends with `f`, or
those of a trace up to one that failed. -/
inductive Halts (step : σ → Visit → σ → Prop) (miss : σ → Visit → σ → Failure → Prop) (f : Failure) :
    Trace → σ → σ → Prop
  | unseen {xs : List Visit} {s s' : σ} : Makes step xs s s' → Halts step miss f (xs, some f) s s'
  | missed {xs rest : List Visit} {x : Visit} {g : Option Failure} {s s₁ s' : σ} : Makes step xs s s₁ →
      miss s₁ x s' f → Halts step miss f (xs ++ x :: rest, g) s s'

/-- A failure in the first part is one of the whole, whatever the second part would have been. -/
theorem Halts.chain_left (h : Halts step miss f a s s') (b : Trace) : Halts step miss f (chain a b) s s' := by
  cases h with
  | unseen hmakes => exact .unseen hmakes
  | @missed xs rest x g s s₁ s' hmakes hmiss =>
    cases g with
    | some g => exact .missed hmakes hmiss
    | none =>
      rw [chain, List.append_assoc, List.cons_append]
      exact .missed hmakes hmiss

theorem Halts.chain_right {xs : List Visit} (hmakes : Makes step xs s s₁) (h : Halts step miss f b s₁ s') :
    Halts step miss f (chain (xs, none) b) s s' := by
  cases h with
  | unseen hrest => exact .unseen (hmakes.append hrest)
  | missed hrest hmiss =>
    rw [chain, ← List.append_assoc]
    exact .missed (hmakes.append hrest) hmiss

/-- A visit that fails leads to a later disk as well. -/
structure Lapsing (w : Scope) (v : Visitor σ) (later : Disk → Disk → Prop) (ready : Bytes → Disk → Prop)
    (step : σ → Visit → σ → Prop) (miss : σ → Visit → σ → Failure → Prop) : Prop
    extends Lasting w v later ready step where
  lapse : ∀ {dir s s' ls l isDir f}, ready dir (v.disk s) → w.tree.list (v.disk s) dir = .ok ls → l ∈ ls →
    (isDir = true ↔ l.kind = .dir) →
    v.visit (w.visitOf (Path.child dir l.name) isDir) s = (s', some f) →
    later (v.disk s) (v.disk s') ∧ miss s (w.visitOf (Path.child dir l.name) isDir) s' f

/-- A part of a walk has failed, and the disk that it left shows the visits made up to there. -/
def Halted (v : Visitor σ) (later : Disk → Disk → Prop) (step : σ → Visit → σ → Prop)
    (miss : σ → Visit → σ → Failure → Prop) (s s' : σ) (f : Failure) (tr : Disk → Trace) : Prop :=
  later (v.disk s) (v.disk s') ∧ Halts step miss f (tr (v.disk s')) s s'

/-- The first action failed, or it went well and the second failed. -/
theorem andThen_eq_failure {done : σ × Option Failure} {next : σ → σ × Option Failure} :
    andThen done next = (s', some f) ↔
      done = (s', some f) ∨ ∃ s, done = (s, none) ∧ next s = (s', some f) := by
  obtain ⟨s, g⟩ := done
  cases g <;> simp [andThen]

theorem Lapsing.single (h : Lapsing w v later ready step miss) {x : Visit} {isDir : Bool} {b : Disk → Trace}
    (hready : ready dir (v.disk s)) (hls : w.tree.list (v.disk s) dir = .ok ls) (hl : l ∈ ls)
    (hkind : isDir = true ↔ l.kind = .dir) (hx : x = w.visitOf (Path.child dir l.name) isDir)
    (hv : v.visit x s = (s', some f)) :
    Halted v later step miss s s' f fun d => chain ([x], none) (b d) := by
  subst hx
  obtain ⟨hlater, hmiss⟩ := h.lapse hready hls hl hkind hv
  have hmakes : Makes step [] s s := .nil s
  exact ⟨hlater, .missed hmakes hmiss⟩

/-- What comes first went well, and then something failed. -/
theorem Lapsing.chain (h : Lapsing w v later ready step miss) {a b : Disk → Trace}
    (ha : Recalls v later step s s₁ a) (hb : Halted v later step miss s₁ s' f b) :
    Halted v later step miss s s' f fun d => Walk.chain (a d) (b d) := by
  refine ⟨h.trans ha.1 hb.1, ?_⟩
  obtain ⟨hnone, hmakes⟩ := ha.2 _ hb.1
  dsimp only
  have ha' : a (v.disk s') = ((a (v.disk s')).1, none) := Prod.ext rfl hnone
  rw [ha']
  exact .chain_right hmakes hb.2

/-- One item.  It can fail at a visit, inside a directory, or because a link cannot be followed. -/
theorem Lapsing.item (h : Lapsing w v later ready step miss) {enter : Bytes → σ → σ × Option Failure}
    {inside : Disk → Bytes → Trace}
    (henter : ∀ {n s s'}, ready n (v.disk s) → enter n s = (s', some f) →
      Halted v later step miss s s' f fun d => inside d n)
    (hready : ready dir (v.disk s)) (hls : w.tree.list (v.disk s) dir = .ok ls) (hl : l ∈ ls)
    (hrun : Walk.item w v enter (Path.child dir l.name) l.kind s = (s', some f)) :
    Halted v later step miss s s' f fun d =>
      traceItem w d (inside d) (Path.child dir l.name) l.kind := by
  unfold Walk.item at hrun
  unfold traceItem
  dsimp only at hrun ⊢
  by_cases hex : Exclusion.excludes w.exclude (Path.relativeTo w.root (Path.child dir l.name)) = true
  · rw [if_pos hex] at hrun
    cases hrun
  rw [if_neg hex] at hrun
  simp only [if_neg hex]
  cases hk : l.kind with
  | file =>
    rw [hk] at hrun
    exact h.single (b := fun _ => ([], none)) hready hls hl (by simp [hk]) rfl hrun
  | dir =>
    rw [hk] at hrun
    rcases andThen_eq_failure.mp hrun with hvisit | ⟨s₁, hvisit, hrun⟩
    · exact h.single hready hls hl (by simp [hk]) rfl hvisit
    · obtain ⟨hlater, hstep, hinto⟩ := h.visit hready hls hl (by simp [hk]) hvisit
      have hfirst : Recalls v later step s s₁ fun _ =>
          ([w.visitOf (Path.child dir l.name) true], none) := h.toLasting.single hlater hstep fun _ _ => rfl
      exact h.chain hfirst (henter (hinto rfl) hrun)
  | link =>
    rw [hk] at hrun
    dsimp only at hrun ⊢
    cases hstat : w.tree.stat (v.disk s) (Path.child dir l.name) with
    | error cause =>
      rw [hstat] at hrun
      cases hrun
      -- The link could not be followed, and the disk is still the one on which it could not.
      refine ⟨h.refl _, ?_⟩
      dsimp only
      rw [hstat]
      exact .unseen (.nil s)
    | ok info =>
      rw [hstat] at hrun
      dsimp only at hrun
      by_cases hinfo : info.isDir = true
      · rw [if_pos hinfo] at hrun
        cases hrun
      · rw [if_neg hinfo] at hrun
        have hlapse := h.single (b := fun _ => ([], none)) hready hls hl (by simp [hk]) rfl hrun
        refine ⟨hlapse.1, ?_⟩
        dsimp only
        rw [h.stat hready hlapse.1 hls hl hstat]
        dsimp only
        rw [if_neg hinfo]
        exact hlapse.2

theorem Lapsing.items (h : Lapsing w v later ready step miss) {enter : Bytes → σ → σ × Option Failure}
    {inside : Disk → Bytes → Trace}
    (hgood : ∀ {n s s'}, ready n (v.disk s) → enter n s = (s', none) →
      Recalls v later step s s' fun d => inside d n)
    (henter : ∀ {n s s'}, ready n (v.disk s) → enter n s = (s', some f) →
      Halted v later step miss s s' f fun d => inside d n) :
    ∀ {part : List Listed} {s : σ}, ready dir (v.disk s) → w.tree.list (v.disk s) dir = .ok ls →
      part ⊆ ls → Walk.items w v enter dir part s = (s', some f) →
      Halted v later step miss s s' f fun d => traceItems w d (inside d) dir part
  | [], s, _, _, _, hrun => by cases hrun
  | l :: part, s, hready, hls, hpart, hrun => by
    rcases andThen_eq_failure.mp hrun with hitem | ⟨s₁, hitem, hrun⟩
    · obtain ⟨hlater, hhalts⟩ := h.item henter hready hls (hpart (by simp)) hitem
      exact ⟨hlater, hhalts.chain_left _⟩
    · have hfirst := h.toLasting.item hgood hready hls (hpart (by simp)) hitem
      exact h.chain hfirst (h.items hgood henter (h.stays hready hfirst.1) (h.list hready hfirst.1 hls)
        (fun _ hm => hpart (List.mem_cons_of_mem _ hm)) hrun)

theorem Lapsing.directory (h : Lapsing w v later ready step miss) : ∀ (depth : Nat) {dir : Bytes} {s s' : σ},
    ready dir (v.disk s) → Walk.directory w v depth dir s = (s', some f) →
    Halted v later step miss s s' f fun d => traceDirectory w d depth dir
  | 0, _, _, _, _, hrun => by cases hrun
  | depth + 1, dir, s, s', hready, hrun => by
    unfold Walk.directory at hrun
    cases hls : w.tree.list (v.disk s) dir with
    | error cause =>
      rw [hls] at hrun
      cases hrun
      refine ⟨h.refl _, ?_⟩
      dsimp only
      rw [traceDirectory, hls]
      exact .unseen (.nil s)
    | ok ls =>
      rw [hls] at hrun
      obtain ⟨hlater, hhalts⟩ :=
        h.items (h.toLasting.directory depth) (h.directory depth) hready hls (fun _ hm => hm) hrun
      refine ⟨hlater, ?_⟩
      dsimp only
      rw [traceDirectory, h.list hready hlater hls]
      exact hhalts

/-- **A walk that failed made visits that the trace on the disk it left begins with.** -/
theorem run_halted (h : Lapsing w v later ready step miss)
    (hroot : ∀ {info}, w.tree.stat (v.disk s) w.root = .ok info → ∀ d, later (v.disk s) d →
      w.tree.stat d w.root = .ok info)
    (hready : ∀ {info}, w.tree.stat (v.disk s) w.root = .ok info → info.isDir = true →
      ready w.root (v.disk s))
    (hrun : run w v s = (s', some f)) : Halted v later step miss s s' f (trace w) := by
  unfold run at hrun
  cases hstat : w.tree.stat (v.disk s) w.root with
  | error cause =>
    rw [hstat] at hrun
    cases hrun
    refine ⟨h.refl _, ?_⟩
    rw [trace, hstat]
    exact .unseen (.nil s)
  | ok info =>
    rw [hstat] at hrun
    dsimp only at hrun
    by_cases hinfo : info.isDir = true
    · rw [if_pos hinfo] at hrun
      obtain ⟨hlater, hhalts⟩ := h.directory _ (hready hstat hinfo) hrun
      refine ⟨hlater, ?_⟩
      rw [trace, hroot hstat _ hlater]
      dsimp only
      rw [if_pos hinfo]
      exact hhalts
    · rw [if_neg hinfo] at hrun
      cases hrun

end Walk

/-! ## 2. Directories made below a path

To make a directory with those around it is to try them from the outermost.  If this fails halfway then some of
them are there.  They are before the destination or below it, because the destination has no links in it that
could lead elsewhere. -/

namespace Disk

variable {d d' d₁ d₂ : Disk} {mode : Nat} {P : Place} {dest x : Bytes} {q : List Bytes}

/-- Before a path below another there are paths below it, itself, and those before it. -/
theorem Above.of_join (hne : q ≠ []) (hq : ∀ n ∈ q, Path.IsName n)
    (h : Above (Path.below dest (Path.join q)) x) :
    Above (Path.clean dest) x ∨ ∃ q', q' ≠ [] ∧ (∀ n ∈ q', Path.IsName n) ∧
      x = Path.below dest (Path.join q') := by
  induction q using List.reverseRecOn with
  | nil => exact absurd rfl hne
  | append_singleton init n ih =>
    have hinit : ∀ m ∈ init, Path.IsName m := fun m hm => hq m (List.mem_append_left _ hm)
    have hn := hq n (by simp)
    have hpar := Path.parentPath?_spell (Path.isAbsolute dest) ⟨hn.ne_nil, hn.no_slash⟩
      (Path.forall_cleanNames_append dest hinit)
    rw [List.append_assoc, ← Path.below_join dest hne hq] at hpar
    generalize hpath : Path.below dest (Path.join (init ++ [n])) = path at h
    cases h with
    | self => exact Or.inr ⟨_, hne, hq, hpath.symm⟩
    | up hup hx =>
      rw [← hpath, hpar] at hup
      split at hup
      · cases hup
      · cases hup
        -- The directory around it is the destination, or again one below it.
        by_cases hnil : init = []
        · rw [hnil, List.append_nil, ← Path.clean_eq_spell] at hx
          exact Or.inl hx
        · rw [← Path.below_join dest hnil hinit] at hx
          exact ih hnil hinit hx

/-- Directories come around a place and in it. -/
structure Spreads (P : Place) (d d' : Disk) : Prop extends Adds Copy.directoryMode d d' where
  sound : d'.Sound
  beside : ∀ p, d'.get? p = d.get? p ∨ p <+: P ∨ P <+: p

theorem Spreads.advances (h : Spreads P d d') : Advances P d d' := by
  refine ⟨h.toAdds.retains, fun p hin haround => ?_⟩
  rcases h.beside p with heq | hp | hp
  · exact heq
  · exact absurd hp haround
  · exact absurd hp hin

/-- A directory made below a path is in the place that the path leads to. -/
theorem goal_of_made_below (hgoal : d.goal (Path.clean dest) = P) (hno : NoLinkIn P d) (hne : q ≠ [])
    (hq : ∀ n ∈ q, Path.IsName n)
    (h : d.makeDirectory (Path.below dest (Path.join q)) mode = .ok d') :
    Puts d (P ++ q) (.dir mode) d' := by
  obtain ⟨p, hnone, hputs, hfind⟩ := makeDirectory_find h
  have hkeeps : Keeps d d' := hputs.keeps
    ⟨fun k hk => absurd (hnone.symm.trans hk) (by simp), fun t => ⟨by simp [hnone], by simp⟩⟩
  obtain ⟨P', m, hclean⟩ := find_clean_of_below hne hq hfind
  have hP : P' = P := by rw [← goal_of_find hclean, hkeeps.goal_eq, hgoal]
  subst hP
  obtain ⟨-, -, hp, -⟩ := ((home_of_find hclean (hno.keeps hkeeps)).find hne hq).mp hfind
  exact hp ▸ hputs

/-- **Making directories below a path changes nothing beside the place that the path leads to**, also where it
fails. -/
theorem makeDirectories_spreads (hd : d.Sound) (hgoal : d.goal (Path.clean dest) = P) (hno : NoLinkIn P d)
    (hne : q ≠ []) (hq : ∀ n ∈ q, Path.IsName n) :
    Spreads P d (d.makeDirectories (Path.below dest (Path.join q)) Copy.directoryMode).1 := by
  refine makeDirectories_rel ⟨Adds.refl _ d, hd, fun _ => Or.inl rfl⟩ fun {d₁ d₂ x} hx h hlast => ?_
  refine ⟨h.toAdds.trans (makeLast_adds hlast), makeLast_sound h.sound hlast, fun p => ?_⟩
  have hkeeps := h.toAdds.keeps
  have hgoal₁ : d₁.goal (Path.clean dest) = P := (hkeeps.goal_eq _).trans hgoal
  -- Only a directory that was really made changes anything.
  rcases makeLast_ok hlast with hmade | ⟨rfl, -⟩
  · obtain ⟨r, hputs, hr⟩ : ∃ r, Puts d₁ r (.dir Copy.directoryMode) d₂ ∧ (r <+: P ∨ P <+: r) := by
      rcases hx.of_join hne hq with hx | ⟨q', hne', hq', rfl⟩
      · obtain ⟨r, hputs, hr⟩ := goal_of_made h.sound hx hmade
        exact ⟨r, hputs, Or.inl (hgoal₁ ▸ hr)⟩
      · exact ⟨_, goal_of_made_below hgoal₁ (hno.keeps hkeeps) hne' hq' hmade,
          Or.inr (List.prefix_append P q')⟩
    by_cases hpr : p = r
    · exact Or.inr (hpr ▸ hr)
    · rw [hputs.other hpr]
      exact h.beside p
  · exact h.beside p

end Disk

namespace Copy

open Disk

variable {w : Walk.Scope} {t : Tree} {dest dir : Bytes} {P : Place} {d d' d₀ d₁ d₂ b : Disk} {x : Visit}
  {xs : List Visit} {ls : List Listed} {l : Listed} {isDir : Bool} {s s₁ s' : State} {f : Failure}

/-! ## 3. Visits that fail

Every failing visit is of one of three kinds.  A directory may have been made in part.  A file may have been
refused, and then nothing has changed at all.  Or the file was opened and written as far as the source could be
read. -/

/-- Why the copy of a file was refused: the source could not be opened or nothing is known of it, or the file
to write to could not be opened. -/
inductive Refused (t : Tree) (d : Disk) (name target : Bytes) (g : Failure) : Prop
  | unopened : t.openFile d name = .error g → Refused t d name target g
  | unknown {r : Reading} : t.openFile d name = .ok r → r.info = .error g → Refused t d name target g
  | unwritable {r : Reading} {info : Info} : t.openFile d name = .ok r → r.info = .ok info →
      openTarget d target (fileMode info) = (d, .error g) → Refused t d name target g

/-- A visit to `x` from `s` that failed with `f` and left `s'`. -/
inductive Miss (t : Tree) (dest : Bytes) (P : Place) (s : State) (x : Visit) (s' : State) (f : Failure) : Prop
  /-- No directory could be made, though some on the way to it. -/
  | dir {g : Failure} : x.isDir = true → Adds directoryMode s.disk s'.disk → s'.count = s.count →
      f = .during ("failed to create directory " ++ Path.below dest x.rel) g → Miss t dest P s x s' f
  | refused {g : Failure} : x.isDir = false → s'.disk = s.disk → s'.count = s.count + 1 →
      f = .during ("failed to copy " ++ x.rel) g → Refused t s.disk x.name (Path.below dest x.rel) g →
      Miss t dest P s x s' f
  /-- Reading the source broke off. -/
  | torn {g : Failure} {r : Reading} {m : Nat} : x.isDir = false → s'.count = s.count + 1 →
      f = .during ("failed to copy " ++ x.rel) g → t.openFile s.disk x.name = .ok r → r.failure = some g →
      s.disk.Accepts (P ++ x.path) → t.LeadsOut x.name s.disk P →
      Puts s.disk (P ++ x.path) (.file m r.content) s'.disk → Miss t dest P s x s' f

/-- The ways to fail at a file. -/
theorem file_failed {name target : Bytes} {g : Failure} (h : file t d name target = (d', some g)) :
    (t.openFile d name = .error g ∧ d' = d) ∨
      (∃ r, t.openFile d name = .ok r ∧ r.info = .error g ∧ d' = d) ∨
      ∃ r info, t.openFile d name = .ok r ∧ r.info = .ok info ∧
        (openTarget d target (fileMode info) = (d', .error g) ∨
          r.failure = some g ∧ ∃ d₁ v, openTarget d target (fileMode info) = (d₁, .ok v)) := by
  unfold file at h
  cases ho : t.openFile d name with
  | error f =>
    rw [ho] at h
    cases h
    exact Or.inl ⟨rfl, rfl⟩
  | ok r =>
    rw [ho] at h
    dsimp only at h
    cases hi : r.info with
    | error f =>
      rw [hi] at h
      cases h
      exact Or.inr (Or.inl ⟨r, rfl, hi, rfl⟩)
    | ok info =>
      rw [hi] at h
      dsimp only at h
      refine Or.inr (Or.inr ⟨r, info, rfl, hi, ?_⟩)
      cases hopen : openTarget d target (fileMode info) with
      | mk d₁ v =>
        rw [hopen] at h
        cases v with
        | error f =>
          cases h
          exact Or.inl rfl
        | ok v => exact Or.inr ⟨(Prod.mk.inj h).2, d₁, v, rfl⟩

theorem visit_failed (h : visit t dest false x s = (s', some f)) :
    (x.isDir = true ∧ ∃ d' g, s.disk.makeDirectories (Path.below dest x.rel) directoryMode = (d', some g) ∧
      s' = { s with disk := d' } ∧ f = .during ("failed to create directory " ++ Path.below dest x.rel) g) ∨
    (x.isDir = false ∧ ∃ d' g, file t s.disk x.name (Path.below dest x.rel) = (d', some g) ∧
      s' = { s with disk := d', count := s.count + 1 } ∧ f = .during ("failed to copy " ++ x.rel) g) := by
  unfold visit at h
  dsimp only at h
  cases hdir : x.isDir with
  | true =>
    rw [hdir] at h
    simp only [Bool.false_eq_true, if_true, if_false] at h
    cases hmade : s.disk.makeDirectories (Path.below dest x.rel) directoryMode with
    | mk d' g =>
      rw [hmade] at h
      cases g with
      | none => cases h
      | some g =>
        cases h
        exact Or.inl ⟨rfl, d', g, rfl, rfl, rfl⟩
  | false =>
    rw [hdir] at h
    simp only [Bool.false_eq_true, if_false] at h
    cases hfile : file t s.disk x.name (Path.below dest x.rel) with
    | mk d' g =>
      rw [hfile] at h
      cases g with
      | none => cases h
      | some g =>
        cases h
        exact Or.inr ⟨rfl, d', g, rfl, rfl, rfl⟩

/-- A disk that a copy to `P` may have come to, whether it failed or not. -/
def Passes (P : Place) (d d' : Disk) : Prop := Advances P d d' ∧ (d.Sound → d'.Sound)

theorem Onward.passes (h : Onward dest P d d') : Passes P d d' := ⟨h.advances, h.sound⟩

/-- A copy can still be made when another disk has been passed on to, as the destination that was missing may
have come. -/
theorem Ready.passes (h : Ready w dest P dir d) (hpass : Passes P d d') : Ready w dest P dir d' := by
  have hkeeps := hpass.1.toKeeps
  have hgoal : d'.goal (Path.clean dest) = P := (hkeeps.goal_eq _).trans h.goal
  have hno : NoLinkIn P d' := h.noLink.keeps hkeeps
  refine ⟨h.toSighted.stays hpass.1 (hpass.2 h.sound), hgoal, hno, ?_⟩
  obtain ⟨q, hq, hdir, ⟨hhome, m, hm⟩ | ⟨rfl, -⟩⟩ := h.place
  · exact ⟨q, hq, hdir, Or.inl ⟨hhome.keeps hkeeps, m, hkeeps.dir _ m hm⟩⟩
  · cases hthere : d'.isDirectory (Path.clean dest) with
    | false => exact ⟨[], hq, hdir, Or.inr ⟨rfl, rfl⟩⟩
    | true =>
      have hhome := (Cleared.refl directoryMode dest d').home hgoal hno hthere
      exact ⟨[], hq, hdir, Or.inl ⟨hhome, by simpa using hhome.dir⟩⟩

/-- Where the destination is there, a file that cannot be copied is left alone, or has what was read. -/
theorem Stage.miss (hs : Stage t dest P x s.disk) (hout : t.LeadsOut x.name s.disk P) (hx : x.isDir = false)
    {g : Failure} (h : file t s.disk x.name (Path.below dest x.rel) = (d', some g)) :
    Miss t dest P s x { s with disk := d', count := s.count + 1 } (.during ("failed to copy " ++ x.rel) g) ∧
      Passes P s.disk d' := by
  have stays : d' = s.disk → Refused t s.disk x.name (Path.below dest x.rel) g →
      Miss t dest P s x { s with disk := d', count := s.count + 1 } (.during ("failed to copy " ++ x.rel) g) ∧
        Passes P s.disk d' := by
    rintro rfl hrefused
    exact ⟨.refused hx rfl rfl rfl hrefused, Advances.refl P _, fun hd => hd⟩
  rcases file_failed h with ⟨ho, hd'⟩ | ⟨r, ho, hi, hd'⟩ | ⟨r, info, ho, hi, hopen⟩
  · exact stays hd' (.unopened ho)
  · exact stays hd' (.unknown ho hi)
  -- Either the target can be opened, and then the failure is that of reading, or it cannot, and nothing is
  -- written.
  by_cases hfits : Usable (Path.below dest x.rel) ∧ s.disk.Passable P x.path ∧ s.disk.Accepts (P ++ x.path)
  · obtain ⟨hu, hpass, hacc⟩ := hfits
    obtain ⟨d₁, hwritten, hputs⟩ := file_written hs.home hs.proper hu hpass hacc ho hi (hs.source hx r · ho)
    obtain ⟨rfl, hfailure⟩ := Prod.mk.inj (h.symm.trans hwritten)
    exact ⟨.torn hx rfl rfl ho hfailure.symm hacc hout hputs,
      hputs.advances hacc.plot.gentle (List.prefix_append P x.path),
      fun hd => puts_sound hs.proper hd hs.parent hputs hacc.plot.gentle⟩
  · rw [hs.proper.rel] at hfits hopen
    obtain ⟨f, hstuck⟩ := hs.home.openTarget_error hs.proper.ne_nil hs.proper.names hfits (fileMode info)
    rw [hstuck] at hopen
    rcases hopen with hopen | ⟨-, d₁, v, hopen⟩
    · obtain ⟨hd', hg⟩ := Prod.mk.inj hopen
      refine stays hd'.symm (.unwritable ho hi ?_)
      rw [hs.proper.rel, hstuck, hg]
    · cases hopen

/-- Where the destination is not there, no file can be written. -/
theorem miss_nowhere (hnowhere : ∀ follow r, s.disk.locate follow (Path.below dest x.rel) ≠ .ok r)
    (hx : x.isDir = false) {g : Failure} (h : file t s.disk x.name (Path.below dest x.rel) = (d', some g)) :
    Miss t dest P s x { s with disk := d', count := s.count + 1 } (.during ("failed to copy " ++ x.rel) g) ∧
      Passes P s.disk d' := by
  have hrefused : d' = s.disk ∧ Refused t s.disk x.name (Path.below dest x.rel) g := by
    rcases file_failed h with ⟨ho, hd'⟩ | ⟨r, ho, hi, hd'⟩ | ⟨r, info, ho, hi, hopen⟩
    · exact ⟨hd', .unopened ho⟩
    · exact ⟨hd', .unknown ho hi⟩
    · obtain ⟨f, hstuck⟩ := openTarget_nowhere hnowhere (fileMode info)
      rw [hstuck] at hopen
      rcases hopen with hopen | ⟨-, d₁, v, hopen⟩
      · obtain ⟨hd', hg⟩ := Prod.mk.inj hopen
        exact ⟨hd'.symm, .unwritable ho hi (by rw [hstuck, hg])⟩
      · cases hopen
  obtain ⟨rfl, hrefused⟩ := hrefused
  exact ⟨.refused hx rfl rfl rfl hrefused, Advances.refl P _, fun hd => hd⟩

/-- **A visit that fails misses**, and what the copy has read lasts. -/
theorem Ready.miss (h : Ready w dest P dir s.disk) (hproper : w.tree.Proper)
    (hls : w.tree.list s.disk dir = .ok ls) (hl : l ∈ ls)
    (hv : visit w.tree dest false (w.visitOf (Path.child dir l.name) isDir) s = (s', some f)) :
    Miss w.tree dest P s (w.visitOf (Path.child dir l.name) isDir) s' f ∧ Passes P s.disk s'.disk := by
  obtain ⟨q, hq, hdir, hplace⟩ := h.place
  have hn : Path.IsName l.name := (Tree.list_tidy h.sound hproper hls).names l hl
  have hqn : ∀ n ∈ q ++ [l.name], Path.IsName n := Walk.forall_isName_append hq (by simpa using hn)
  have hx : w.visitOf (Path.child dir l.name) isDir = w.visitAt (q ++ [l.name]) isDir :=
    hdir ▸ visitOf_child hq hn
  have hpath : (w.visitOf (Path.child dir l.name) isDir).path = q ++ [l.name] :=
    hx ▸ Walk.visitAt_path hqn isDir
  have hxproper : (w.visitOf (Path.child dir l.name) isDir).Proper :=
    ⟨by simp [hpath], hpath ▸ hqn, by rw [hpath, hx]; rfl⟩
  have hout := h.toSighted.item hls hl
  rcases visit_failed hv with ⟨hisDir, d', g, hmade, rfl, rfl⟩ | ⟨hfile, d', g, hfailed, rfl, rfl⟩
  · have hspreads := makeDirectories_spreads h.sound h.goal h.noLink hxproper.ne_nil hxproper.names
    rw [← hxproper.rel, hmade] at hspreads
    exact ⟨.dir hisDir hspreads.toAdds rfl rfl, hspreads.advances, fun _ => hspreads.sound⟩
  · rcases hplace with ⟨hhome, m, hm⟩ | ⟨rfl, hno⟩
    · refine Stage.miss ⟨hhome, h.sound, hxproper, ⟨m, ?_⟩, fun _ r p hr hp => hout.place hr hp⟩ hout hfile
        hfailed
      rw [hpath, List.dropLast_concat]
      exact hm
    · refine miss_nowhere (fun follow r hloc => ?_) hfile hfailed
      rw [hxproper.rel] at hloc
      obtain ⟨p, m, hfind⟩ := find_clean_of_locate hxproper.ne_nil hxproper.names hloc
      rw [isDirectory_iff.mpr ⟨p, m, hfind⟩] at hno
      cases hno

/-- **What a copy has read lasts, also if it fails.** -/
theorem lapsing (hproper : w.tree.Proper) :
    Walk.Lapsing w (visitor w.tree dest) (Passes P) (Ready w dest P) (Step w.tree dest P)
      fun s x s' f => Miss w.tree dest P s x s' f ∧ Passes P s.disk s'.disk := by
  have hlasting : Walk.Lasting w (visitor w.tree dest) (Onward dest P) (Ready w dest P)
      (Step w.tree dest P) := lasting hproper
  refine ⟨⟨fun d => ⟨Advances.refl P d, fun h => h⟩,
    fun h h' => ⟨h.1.trans h'.1, fun hd => h'.2 (h.2 hd)⟩, Ready.passes, fun h hp => h.toSighted.list hp.1,
    fun h hp hls hl => (h.toSighted.item hls hl).stat hp.1.toRetains, fun h hls hl hkind hv => ?_⟩,
    fun h hls hl _ hv => ⟨(h.miss hproper hls hl hv).2, h.miss hproper hls hl hv⟩⟩
  obtain ⟨honward, hstep, hready⟩ := hlasting.visit h hls hl hkind hv
  exact ⟨honward.passes, hstep, hready⟩

/-! ## 4. What is left

A place is visited at most once, so what is there at the end was left by one visit or by none. -/

/-- What a visit left is still there on a later disk that has the same at its place. -/
theorem LeftBy.later {e : Entry} (h : LeftBy t dest P x d b d₁ e) (hadv : Advances P d₁ d')
    (hsame : d'.get? (P ++ x.path) = d₁.get? (P ++ x.path)) : LeftBy t dest P x d b d' e :=
  ⟨h.before, h.after.trans hadv, h.same, h.out, h.leaves,
    find_keeps hadv.toKeeps h.found (hsame.trans (find_eq_ok.mp h.found).2.1)⟩

/-- The place of a file that was opened to be written, and of which only the beginning could be read. -/
structure CutShort (t : Tree) (P : Place) (x : Visit) (d d' : Disk) (f : Failure) (p : Place) : Prop where
  file : x.isDir = false
  place : p = P ++ x.path
  accepts : d.Accepts p
  read : ∃ r g m, t.openFile d' x.name = .ok r ∧ r.failure = some g ∧
    f = .during ("failed to copy " ++ x.rel) g ∧ d'.get? p = some (.file m r.content)

/-- **What a visit that fails can change.** -/
theorem Miss.get? (h : Miss t dest P s x s' f) (hpass : Passes P s.disk s'.disk) (p : Place) :
    s'.disk.get? p = s.disk.get? p ∨ (s.disk.get? p = none ∧ s'.disk.get? p = some (.dir directoryMode)) ∨
      CutShort t P x s.disk s'.disk f p := by
  cases h with
  | dir _ hadds => exact (hadds.get? p).imp_right Or.inl
  | refused _ hsame => exact Or.inl (by rw [hsame])
  | @torn g r m hfile _ hf ho hfailure hacc hout hputs =>
    by_cases hp : p = P ++ x.path
    · subst hp
      exact Or.inr (Or.inr ⟨hfile, rfl, hacc, r, g, m, hout.openFile hpass.1.toRetains ho, hfailure, hf,
        hputs.self⟩)
    · exact Or.inl (hputs.other hp)

theorem Miss.count (h : Miss t dest P s x s' f) : s'.count = s.count + ([x].filter (!·.isDir)).length := by
  cases h with
  | dir hx _ hcount => simp [hx, hcount]
  | refused hx _ hcount => simp [hx, hcount]
  | torn hx hcount => simp [hx, hcount]

/-- A copy stops at `s` with the failure `f`: because of the walk, or at a visit. -/
inductive Ends (w : Walk.Scope) (dest : Bytes) (P : Place) (f : Failure) (s s' : State) : List Visit → Prop
  | walk : s' = s → Ends w dest P f s s' []
  | visit {x : Visit} : Miss w.tree dest P s x s' f → Ends w dest P f s s' [x]

/-- A copy that began on the disk `d` has made the visits `xs`, and stopped at `s` with the failure `f`.  The
last visits `ys`, one or none, failed. -/
structure Broken (w : Walk.Scope) (dest : Bytes) (d : Disk) (f : Failure) (xs ys : List Visit) (b : Disk)
    (s₁ s : State) : Prop where
  adds : Adds directoryMode d b
  makes : Walk.Makes (On w.tree dest (d.goal (Path.clean dest))) xs { disk := b } s₁
  ends : Ends w dest (d.goal (Path.clean dest)) f s₁ s ys
  passes : Passes (d.goal (Path.clean dest)) s₁.disk s.disk
  visited : xs ++ ys <+: (Walk.visits w s.disk).1
  distinct : Distinct (xs ++ ys)

/-- What is at a place after a copy that failed. -/
inductive Fate (w : Walk.Scope) (dest : Bytes) (d : Disk) (s : State) (f : Failure) (xs : List Visit)
    (p : Place) : Prop
  | same : s.disk.get? p = d.get? p → Fate w dest d s f xs p
  | made {m : Nat} : d.get? p = none → s.disk.get? p = some (.dir m) → Fate w dest d s f xs p
  | copied {x : Visit} {m : Nat} {c : Bytes} : x ∈ xs → x.isDir = false → p = landing dest d x →
      (∀ e, d.get? p = some e → e.kind = .file) → s.disk.get? p = some (.file m c) →
      w.tree.read s.disk x.name = .ok c → (∀ c', w.tree.read d x.name = .ok c' → c' = c) →
      Fate w dest d s f xs p
  | cut {x : Visit} {r : Reading} {g : Failure} {m : Nat} : xs.getLast? = some x → x.isDir = false →
      p = landing dest d x → (∀ e, d.get? p = some e → e.kind = .file) →
      s.disk.get? p = some (.file m r.content) → w.tree.openFile s.disk x.name = .ok r →
      r.failure = some g → f = .during ("failed to copy " ++ x.rel) g → Fate w dest d s f xs p

theorem Accepts.kind {p : Place} {e : Entry} (h : d.Accepts p) (he : d.get? p = some e) : e.kind = .file := by
  rcases h with ⟨m, c, hfile, -⟩ | ⟨hnone, -⟩
  · rw [hfile, Option.some.injEq] at he
    exact he ▸ rfl
  · exact absurd (hnone.symm.trans he) (by simp)

theorem Leaves.accepts {e : Entry} (h : Leaves t P x d e) (hx : x.isDir = false) : d.Accepts (P ++ x.path) := by
  cases h with
  | dir hdir => exact absurd (hdir.symm.trans hx) (by simp)
  | newDir hdir => exact absurd (hdir.symm.trans hx) (by simp)
  | file _ hacc => exact hacc

section

variable {ys : List Visit} {p : Place}

theorem Broken.unvisited (h : Broken w dest d f xs ys b s₁ s) (hp : ∀ x ∈ xs, p ≠ landing dest d x) :
    s₁.disk.get? p = b.get? p := makes_settles h.makes hp

/-- A visit that went well left what it was to leave. -/
theorem Broken.visited_fate (h : Broken w dest d f xs ys b s₁ s) (hx : x ∈ xs)
    (hsame : s.disk.get? (landing dest d x) = s₁.disk.get? (landing dest d x)) :
    Fate w dest d s f (xs ++ ys) (landing dest d x) := by
  obtain ⟨b', e, hleft⟩ := makes_leaves h.makes (h.distinct.sublist (List.sublist_append_left xs ys)) x hx
  have hlate := hleft.later h.passes.1 hsame
  have hget : s.disk.get? (landing dest d x) = some e := (find_eq_ok.mp hlate.found).2.1
  cases hdir : x.isDir with
  | true =>
    obtain ⟨m, rfl, hold | ⟨hnone, -⟩⟩ := hlate.of_dir h.adds hdir
    · exact .same (hget.trans hold.symm)
    · exact .made hnone hget
  | false =>
    obtain ⟨content, info, hread, -, hbefore, -, rfl⟩ := hlate.of_file h.adds hdir
    refine .copied (List.mem_append_left ys hx) hdir rfl (fun e' he' => ?_) hget hread hbefore
    exact Accepts.kind (hlate.leaves.accepts hdir) (hlate.same.trans (h.adds.of_some he'))

/-- **What is at each place in the end.** -/
theorem Broken.fate (h : Broken w dest d f xs ys b s₁ s) (p : Place) : Fate w dest d s f (xs ++ ys) p := by
  have hadded : ∀ {e}, s₁.disk.get? p = b.get? p → d.get? p = some e → s₁.disk.get? p = some e :=
    fun hsame he => hsame.trans (h.adds.of_some he)
  have hends : s.disk.get? p = s₁.disk.get? p ∨
      (s₁.disk.get? p = none ∧ s.disk.get? p = some (.dir directoryMode)) ∨
      ∃ y, ys = [y] ∧ CutShort w.tree (d.goal (Path.clean dest)) y s₁.disk s.disk f p := by
    cases h.ends with
    | walk hs => exact Or.inl (by rw [hs])
    | @visit y hmiss =>
      exact (hmiss.get? h.passes p).imp_right fun hother => hother.imp_right fun hcut => ⟨y, rfl, hcut⟩
  -- A place of a visit that went well is not touched by the last one.  Elsewhere only the last visit matters.
  by_cases hp : ∃ x ∈ xs, p = landing dest d x
  · obtain ⟨x, hx, rfl⟩ := hp
    obtain ⟨b', e, hleft⟩ := makes_leaves h.makes (h.distinct.sublist (List.sublist_append_left xs ys)) x hx
    rcases hends with hsame | ⟨hnone, -⟩ | ⟨y, rfl, hcut⟩
    · exact h.visited_fate hx hsame
    · exact absurd (hnone.symm.trans (find_eq_ok.mp hleft.found).2.1) (by simp)
    · have hne := (List.pairwise_append.mp h.distinct).2.2 x hx y (by simp)
      exact absurd hcut.place (place_ne hne)
  · have hunvisited := h.unvisited fun x hx heq => hp ⟨x, hx, heq⟩
    rcases hends with hsame | ⟨hnone, hnew⟩ | ⟨y, rfl, hcut⟩
    · rcases h.adds.get? p with heq | ⟨hnone, hnew⟩
      · exact .same (hsame.trans (hunvisited.trans heq))
      · exact .made hnone (hsame.trans (hunvisited.trans hnew))
    · refine .made (Option.eq_none_iff_forall_ne_some.mpr fun e he => ?_) hnew
      exact absurd (hnone.symm.trans (hadded hunvisited he)) (by simp)
    · obtain ⟨r, g, m, ho, hfailure, hf, hget⟩ := hcut.read
      exact .cut (by simp) hcut.file hcut.place
        (fun e he => Accepts.kind hcut.accepts (hadded hunvisited he)) hget ho hfailure hf

end

/-! ## 5. The whole of it

A copy can also fail before its walk, if its patterns are malformed or its destination cannot be made. -/

/-- How a copy came to stop that made the visits `xs`, the last of which may have failed. -/
inductive Stopped (w : Walk.Scope) (dest : Bytes) (d : Disk) (s : State) (f : Failure) : List Visit → Prop
  /-- The patterns were refused, or the destination could not be made. -/
  | early : Adds directoryMode d s.disk → Stopped w dest d s f []
  /-- The walk could not go on. -/
  | walk {xs : List Visit} : Walk.visits w s.disk = (xs, some f) → Stopped w dest d s f xs
  | dir {xs : List Visit} {x : Visit} {g : Failure} : x.isDir = true →
      f = .during ("failed to create directory " ++ Path.below dest x.rel) g → Stopped w dest d s f (xs ++ [x])
  /-- Nothing was written: a file that was there is untouched, and none has come. -/
  | refused {xs : List Visit} {x : Visit} {g : Failure} : x.isDir = false →
      f = .during ("failed to copy " ++ x.rel) g → Refused w.tree s.disk x.name (Path.below dest x.rel) g →
      (∀ m c, s.disk.get? (landing dest d x) = some (.file m c) ↔
        d.get? (landing dest d x) = some (.file m c)) → Stopped w dest d s f (xs ++ [x])
  /-- Reading broke off. -/
  | torn {xs : List Visit} {x : Visit} {g : Failure} {r : Reading} {m : Nat} : x.isDir = false →
      f = .during ("failed to copy " ++ x.rel) g → w.tree.openFile s.disk x.name = .ok r → r.failure = some g →
      s.disk.get? (landing dest d x) = some (.file m r.content) → Stopped w dest d s f (xs ++ [x])

/-- How it stopped is told by the last visit, or by the walk if there is none. -/
theorem Broken.stopped {ys : List Visit} (h : Broken w dest d f xs ys b s₁ s)
    (hwalk : ys = [] → Walk.visits w s.disk = (xs, some f)) : Stopped w dest d s f (xs ++ ys) := by
  cases h.ends with
  | walk _ =>
    rw [List.append_nil]
    exact .walk (hwalk rfl)
  | @visit y hmiss =>
    have hother : ∀ x ∈ xs, landing dest d y ≠ landing dest d x := fun x hx =>
      (place_ne ((List.pairwise_append.mp h.distinct).2.2 x hx y (by simp))).symm
    cases hmiss with
    | dir hdir _ _ hf => exact .dir hdir hf
    | @refused g hfile hsame _ hf hrefused =>
      refine .refused hfile hf (hsame ▸ hrefused) fun m c => ?_
      rw [hsame, h.unvisited hother]
      rcases h.adds.get? (landing dest d y) with heq | ⟨hnone, hnew⟩
      · rw [heq]
      · simp [hnone, hnew]
    | @torn g r m hfile _ hf ho hfailure _ hout hputs =>
      exact .torn hfile hf (hout.openFile h.passes.1.toRetains ho) hfailure hputs.self

theorem Broken.count {ys : List Visit} (h : Broken w dest d f xs ys b s₁ s) :
    s.count = ((xs ++ ys).filter (!·.isDir)).length := by
  have hmade : s₁.count = 0 + (xs.filter (!·.isDir)).length := makes_count h.makes
  rw [List.filter_append, List.length_append]
  cases h.ends with
  | walk hs => rw [hs, hmade, List.filter_nil, List.length_nil, Nat.add_zero, Nat.zero_add]
  | visit hmiss => rw [hmiss.count, hmade, Nat.zero_add]

/-- What a copy from `w` to `dest` has left that began on the disk `d`, made the visits `xs` and failed with
`f`. -/
structure Halted (w : Walk.Scope) (dest : Bytes) (d : Disk) (s : State) (f : Failure) (xs : List Visit) :
    Prop where
  visited : xs <+: (Walk.visits w s.disk).1
  count : s.count = (xs.filter (!·.isDir)).length
  stopped : Stopped w dest d s f xs
  /-- Nothing is gone and nothing has become something else. -/
  kinds : ∀ p e, d.get? p = some e → ∃ e', s.disk.get? p = some e' ∧ e'.kind = e.kind
  /-- A file is as it was, or it has the whole content of a file of the source that was visited, or it is the
  one that the failure names and has what was read of it. -/
  files : ∀ p m c, s.disk.get? p = some (.file m c) → d.get? p = some (.file m c) ∨
    (∃ x ∈ xs, x.isDir = false ∧ p = landing dest d x ∧ w.tree.read s.disk x.name = .ok c ∧
      ∀ c', w.tree.read d x.name = .ok c' → c' = c) ∨
    ∃ x r g, xs.getLast? = some x ∧ x.isDir = false ∧ p = landing dest d x ∧
      f = .during ("failed to copy " ++ x.rel) g ∧ w.tree.openFile s.disk x.name = .ok r ∧
      r.failure = some g ∧ c = r.content

/-- What is known of each place gives what is known of all kinds and all files. -/
theorem halted_of_fate (hvisited : xs <+: (Walk.visits w s.disk).1)
    (hcount : s.count = (xs.filter (!·.isDir)).length) (hstopped : Stopped w dest d s f xs)
    (hfate : ∀ p, Fate w dest d s f xs p) : Halted w dest d s f xs := by
  refine ⟨hvisited, hcount, hstopped, fun p e he => ?_, fun p m c hfile => ?_⟩
  · cases hfate p with
    | same hsame => exact ⟨e, hsame.trans he, rfl⟩
    | made hnone => exact absurd (hnone.symm.trans he) (by simp)
    | copied _ _ _ hkind hget => exact ⟨_, hget, (hkind e he).symm⟩
    | cut _ _ _ hkind hget => exact ⟨_, hget, (hkind e he).symm⟩
  · cases hfate p with
    | same hsame => exact Or.inl (hsame.symm.trans hfile)
    | made _ hnew => exact absurd (hnew.symm.trans hfile) (by simp)
    | copied hx hisFile hp _ hget hread hbefore =>
      rw [hfile, Option.some.injEq, Entry.file.injEq] at hget
      obtain ⟨-, rfl⟩ := hget
      exact Or.inr (Or.inl ⟨_, hx, hisFile, hp, hread, hbefore⟩)
    | cut hx hisFile hp _ hget ho hfailure hf =>
      rw [hfile, Option.some.injEq, Entry.file.injEq] at hget
      exact Or.inr (Or.inr ⟨_, _, _, hx, hisFile, hp, hf, ho, hfailure, hget.2⟩)

/-- A copy that failed before its walk has at most made directories. -/
theorem halted_early (hadds : Adds directoryMode d s.disk) (hcount : s.count = 0) : Halted w dest d s f [] :=
  halted_of_fate List.nil_prefix hcount (.early hadds) fun p =>
    (hadds.get? p).elim .same fun h => .made h.1 h.2

theorem Grounds.adds (h : Grounds dest d b) : Adds directoryMode d b := by
  rcases h with rfl | ⟨-, hcleared⟩
  · exact Adds.refl directoryMode b
  · exact hcleared.toAdds

/-- The visits of a walk that failed, up to the one that failed if it is for that. -/
theorem Detached.broken (h : Detached w.tree w.root dest d)
    (hm : d.makeDirectories dest directoryMode = (d₀, none))
    (hrun : Walk.run w (visitor w.tree dest) { disk := d₀ } = (s, some f)) :
    ∃ xs ys b s₁, Broken w dest d f xs ys b s₁ s ∧ (ys = [] → Walk.visits w s.disk = (xs, some f)) := by
  have hmade := makeDirectories_along d dest directoryMode
  rw [hm] at hmade
  obtain ⟨h₀, hgoal⟩ := h.made hm
  obtain ⟨hpasses, hhalts⟩ := Walk.run_halted (s := ({ disk := d₀ } : State))
    (lapsing (P := d.goal (Path.clean dest)) h.proper)
    (fun hstat _ hpass => (hgoal ▸ h₀.aloof).leadsOut.stat hpass.1.toRetains hstat)
    (fun hstat hinfo => hgoal ▸ h₀.ready hstat hinfo) hrun
  have hdistinct : Distinct (Walk.visits w s.disk).1 := distinct_visits (hpasses.2 h₀.sound) h.proper
  rw [← Walk.visits_eq_trace] at hhalts
  change Walk.Halts _ _ f (Walk.visits w s.disk) _ s at hhalts
  generalize hvisits : Walk.visits w s.disk = tr at hhalts hdistinct
  cases hhalts with
  | @unseen xs _ _ hmakes =>
    obtain ⟨b, hgrounds, hmakes⟩ := makes_grounds hmakes
    refine ⟨xs, [], b, s, ⟨hmade.toAdds.trans hgrounds.adds, hmakes, .walk rfl,
      ⟨Advances.refl _ _, fun hd => hd⟩, ?_, ?_⟩, fun _ => rfl⟩
    · rw [hvisits]
      exact ⟨[], by rw [List.append_nil, List.append_nil]⟩
    · rwa [List.append_nil]
  | @missed xs rest y g _ s₁ _ hmakes hmiss =>
    obtain ⟨b, hgrounds, hmakes⟩ := makes_grounds hmakes
    have hpre : xs ++ [y] <+: xs ++ y :: rest := ⟨rest, by rw [List.append_assoc, List.singleton_append]⟩
    refine ⟨xs, [y], b, s₁, ⟨hmade.toAdds.trans hgrounds.adds, hmakes, .visit hmiss.1, hmiss.2, ?_,
      hdistinct.sublist hpre.sublist⟩, nofun⟩
    rw [hvisits]
    exact hpre

/-- **What a copy that fails leaves.** -/
theorem run_halts (h : Detached w.tree w.root dest d) (hrun : run w dest false d = (s, some f)) :
    ∃ xs, Halted w dest d s f xs := by
  have hcourse := course w dest false d
  rw [hrun] at hcourse
  generalize hresult : (s, some f) = result at hcourse
  cases hcourse with
  | malformed _ =>
    cases hresult
    exact ⟨[], halted_early (Adds.refl directoryMode d) rfl⟩
  | unmade _ hm =>
    cases hresult
    have hadds := makeDirectories_adds d dest directoryMode
    rw [hm] at hadds
    exact ⟨[], halted_early hadds rfl⟩
  | walked _ hm =>
    obtain ⟨xs, ys, b, s₁, hbroken, hwalk⟩ := h.broken hm hresult.symm
    exact ⟨xs ++ ys, halted_of_fate hbroken.visited hbroken.count (hbroken.stopped hwalk) hbroken.fate⟩

/-- A kit of three files, and a place where two of them are, one that may not be written. -/
def twoOfThreeCopied : Disk :=
  { entries :=
      [([("kit" : Bytes)], .dir 0o755),
        ([("kit" : Bytes), ("a" : Bytes)], .file 0o644 "new"),
        ([("kit" : Bytes), ("b" : Bytes)], .file 0o644 "torn"),
        ([("kit" : Bytes), ("c" : Bytes)], .file 0o644 "late"),
        ([("here" : Bytes)], .dir 0o755),
        ([("here" : Bytes), ("a" : Bytes)], .file 0o444 "old"),
        ([("here" : Bytes), ("b" : Bytes)], .file 0o600 "before"),
        ([("here" : Bytes), ("notes" : Bytes)], .file 0o600 "n")] }

/-- The kit as a medium gives it that fails after two bytes of `b`. -/
def kitFailingAtB : Tree := .faulty [⟨"b", .reading 2, .cutShort⟩] (.onDisk "/kit")

theorem twoOfThreeCopied_detached : Detached kitFailingAtB "." "/here" twoOfThreeCopied := by
  refine ⟨sound_of_entries (by decide), trivial, noLinkIn_of_entries (by decide +kernel), ?_⟩
  intro path hpath
  cases hpath
  exact aloof_of_entries (by decide +kernel) (by decide +kernel) (by decide +kernel)

/-- The first file is replaced, the second one has two bytes of the new content, and the third is not there. -/
theorem run_halts_twoOfThreeCopied :
    Detached kitFailingAtB "." "/here" twoOfThreeCopied ∧
      ∃ s f, run ⟨kitFailingAtB, ".", []⟩ "/here" false twoOfThreeCopied = (s, some f) ∧ s.count = 2 ∧
        s.disk.get? [("here" : Bytes), ("a" : Bytes)] = some (.file 0o644 "new") ∧
        s.disk.get? [("here" : Bytes), ("b" : Bytes)] = some (.file 0o600 "to") ∧
        s.disk.get? [("here" : Bytes), ("c" : Bytes)] = none ∧
        ∃ xs, Halted ⟨kitFailingAtB, ".", []⟩ "/here" twoOfThreeCopied s f xs := by
  obtain ⟨f, hf⟩ : ∃ f, (run ⟨kitFailingAtB, ".", []⟩ "/here" false twoOfThreeCopied).2 = some f :=
    Option.isSome_iff_exists.mp (by decide +kernel)
  have hrun : run ⟨kitFailingAtB, ".", []⟩ "/here" false twoOfThreeCopied =
      ((run ⟨kitFailingAtB, ".", []⟩ "/here" false twoOfThreeCopied).1, some f) :=
    Prod.ext rfl hf
  exact ⟨twoOfThreeCopied_detached, _, f, hrun, by decide +kernel, by decide +kernel, by decide +kernel,
    by decide +kernel,
    run_halts twoOfThreeCopied_detached hrun⟩

end Copy

end AgentKit
