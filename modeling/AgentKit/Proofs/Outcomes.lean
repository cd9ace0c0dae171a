import AgentKit.Proofs.Installing
/-!
# What an install can come to

An install looks at the source, then at the project, then at the kit that may be there, and only then copies.
Each look can end it.  `Course` lists the five ways it can go, and everything here is read off that list.

The project is looked for under its absolute path, which is made from the text of the path alone: `..` takes
back the name before it, whatever that name is.  So a project can be found although its path as given leads
nowhere (`found_though_path_leads_nowhere`).

1. Failures that are not about the source or the project as a whole.  A copy fails in no other way, unless
   the source itself does.
2. The ways an install can go.
3. **The outcome is decided by the source, the project, the kit and the options** (`run_decides`), and
   nothing is written unless the kit is copied.

To say that an install fails for want of a source *only if* the source is missing, one has to know that no other failure
is ever taken for this one.  A failure carries its causes with it and is classified by any of them.  So the first
section goes through all calls, from the disk up to the copy, and shows that none brings in a cause of that class.  The
one thing that can is a source that was given with such faults (`missing_though_valid`).
-/

namespace AgentKit

open Disk

/-! ## 1. Ordinary failures

One lemma for each function, in the order in which they call each other: the system, trees, files, visits, walks,
copies. -/

/-- The failure is not, at whatever depth of causes, that there is no source or no project. -/
def Failure.Ordinary (f : Failure) : Prop := f.isSourceNotFound = false ∧ f.isTargetNotFound = false

@[simp] theorem Failure.ordinary_errno (e : Errno) : (Failure.errno e).Ordinary := ⟨rfl, rfl⟩

@[simp] theorem Failure.ordinary_absent : Failure.absent.Ordinary := ⟨rfl, rfl⟩

@[simp] theorem Failure.ordinary_improper : Failure.improper.Ordinary := ⟨rfl, rfl⟩

@[simp] theorem Failure.ordinary_other (text : Bytes) : (Failure.other text).Ordinary := ⟨rfl, rfl⟩

@[simp] theorem Failure.ordinary_onPath {operation path : Bytes} {f : Failure} :
    (Failure.onPath operation path f).Ordinary ↔ f.Ordinary := by
  simp [Ordinary, isSourceNotFound, isTargetNotFound]

@[simp] theorem Failure.ordinary_during {doing : Bytes} {f : Failure} :
    (Failure.during doing f).Ordinary ↔ f.Ordinary := by
  simp [Ordinary, isSourceNotFound, isTargetNotFound]

/-- An answer that is no failure but an ordinary one. -/
def Civil {α : Type} (answer : Except Failure α) : Prop := ∀ f, answer = .error f → f.Ordinary

theorem civil_ok {α : Type} (a : α) : Civil (.ok a) := fun _ h => by cases h

theorem civil_error {α : Type} {f : Failure} (h : f.Ordinary) : Civil (.error f : Except Failure α) :=
  fun _ h' => by cases h'; exact h

/-- Two calls, one after the other. -/
theorem Civil.bind {α β : Type} {x : Except Failure α} {f : α → Except Failure β} (hx : Civil x)
    (hf : ∀ a, x = .ok a → Civil (f a)) : Civil (x >>= f) := by
  cases x with
  | error g => exact civil_error (hx g rfl)
  | ok a => exact hf a rfl

/-- What the system says is always ordinary. -/
theorem civil_explain {α : Type} (operation path : Bytes) (answer : Except Errno α) :
    Civil (explain operation path answer) := by
  cases answer with
  | ok a => exact civil_ok a
  | error e => exact civil_error (by simp)

/-- All causes of these faults are ordinary. -/
def Fault.Ordinary (faults : List Fault) : Prop := ∀ x ∈ faults, x.cause.Ordinary

theorem Fault.cause?_ordinary {faults : List Fault} (h : Ordinary faults) {name : Bytes}
    {call : TreeCall} {f : Failure} (hf : cause? faults name call = some f) : f.Ordinary := by
  unfold cause? at hf
  obtain ⟨x, hx, rfl⟩ := Option.map_eq_some_iff.mp hf
  exact h x (List.mem_of_find?_eq_some hx)

/-- A fault with an ordinary cause may be put in the way of any call. -/
theorem Fault.orElse_civil {α : Type} {faults : List Fault} (h : Ordinary faults)
    {operation name : Bytes} {call : TreeCall} {answer : Except Failure α} (ha : Civil answer) :
    Civil (orElse faults operation name call answer) := by
  unfold orElse
  cases hc : cause? faults name call with
  | none => exact ha
  | some f => exact civil_error (by simpa using cause?_ordinary h hc)

theorem Fault.reading?_ordinary {faults : List Fault} (h : Ordinary faults) {name : Bytes} {after : Nat}
    {f : Failure} (hf : reading? faults name = some (after, f)) : f.Ordinary := by
  unfold reading? at hf
  obtain ⟨x, hx, hxf⟩ := List.exists_of_findSome?_eq_some hf
  split at hxf
  · split at hxf
    · cases hxf
      exact h x hx
    · cases hxf
  · cases hxf

/-- And so may one that breaks off reading. -/
theorem Fault.cut_ordinary {faults : List Fault} (h : Ordinary faults) {name : Bytes}
    (delivery : Bytes × Option Failure) (hd : ∀ f, delivery.2 = some f → f.Ordinary) {f : Failure}
    (hf : (cut faults name delivery).2 = some f) : f.Ordinary := by
  unfold cut at hf
  split at hf
  · rename_i after cause hr
    cases hf
    simpa using reading?_ordinary h hr
  · exact hd f hf

/-- What is known of an open file and what comes out of it end in ordinary failures, if any. -/
structure Reading.Civil (r : Reading) : Prop where
  info : AgentKit.Civil r.info
  failure : ∀ f, r.failure = some f → f.Ordinary

namespace Tree

/-- The tree does not itself fail with a source or a project that is not found. -/
def Ordinary : Tree → Prop
  | .onDisk _ => True
  | .inMemory m => Fault.Ordinary m.faults
  | .faulty faults t => Fault.Ordinary faults ∧ t.Ordinary

/-- That a name is improper is no matter of the source as a whole. -/
theorem pathOf_civil (dir name : Bytes) : Civil (pathOf dir name) := by
  unfold pathOf
  split
  · exact civil_error (by simp)
  · split
    · exact civil_error (by simp)
    · split <;> exact civil_ok _

theorem onPathOf_civil {α : Type} (dir call operation name : Bytes) (act : Bytes → Except Errno α) :
    Civil (onPathOf dir call operation name act) := by
  unfold onPathOf
  cases hp : pathOf dir name with
  | error f => exact civil_error (by simpa using pathOf_civil dir name f hp)
  | ok path => exact civil_explain operation name _

theorem opened_civil {m : Memory} (h : Fault.Ordinary m.faults) (name : Bytes) :
    Civil (m.opened name) := by
  refine Fault.orElse_civil h ?_
  cases m.get? name with
  | some e => exact civil_ok e
  | none => exact civil_error (by simp)

/-- By induction on the tree, as for the other calls: a faulty tree asks the one under it. -/
theorem stat_civil {d : Disk} {name : Bytes} : ∀ {t : Tree}, t.Ordinary → Civil (t.stat d name)
  | .onDisk dir, _ => onPathOf_civil dir _ _ _ _
  | .inMemory _, h =>
    (opened_civil h name).bind fun e _ => Fault.orElse_civil h (civil_ok e.info)
  | .faulty .., h => Fault.orElse_civil h.1 (stat_civil h.2)

theorem list_civil {d : Disk} {name : Bytes} : ∀ {t : Tree}, t.Ordinary → Civil (t.list d name)
  | .onDisk dir, _ => (onPathOf_civil dir _ _ _ _).bind fun _ _ => civil_ok _
  | .inMemory m, h => by
    refine (opened_civil h name).bind fun e _ => Fault.orElse_civil h ?_
    cases e with
    | dir k => exact civil_ok _
    | file k c => exact civil_error (by simp)
    | link k => exact civil_error (by simp)
  | .faulty .., h => Fault.orElse_civil h.1 (Fault.orElse_civil h.1 (list_civil h.2))

theorem openFile_civil (d : Disk) (name : Bytes) : ∀ {t : Tree}, t.Ordinary →
    Civil (t.openFile d name) ∧ ∀ r, t.openFile d name = .ok r → r.Civil
  | .onDisk dir, _ => by
    refine ⟨(onPathOf_civil dir _ _ _ _).bind fun pe _ => ?_, fun r hr => ?_⟩
    · obtain ⟨p, e⟩ := pe
      cases e <;> exact civil_ok _
    · obtain ⟨⟨p, e⟩, -, hr⟩ := except_bind_ok.mp hr
      cases e with
      | file m c =>
        cases hr
        exact ⟨civil_ok _, fun f hf => by cases hf⟩
      | dir m =>
        cases hr
        exact ⟨civil_ok _, fun f hf => by cases hf; simp⟩
      | link k =>
        cases hr
        exact ⟨civil_ok _, fun f hf => by cases hf; simp⟩
  | .inMemory m, h => by
    refine ⟨(opened_civil h name).bind fun e _ => civil_ok _, fun r hr => ?_⟩
    obtain ⟨e, -, hr⟩ := except_bind_ok.mp hr
    cases hr
    refine ⟨Fault.orElse_civil h (civil_ok _), fun f hf => ?_⟩
    cases e with
    | file k c => exact Fault.cut_ordinary h (c, none) (fun g hg => by cases hg) hf
    | dir k =>
      cases hf
      simp
    | link k =>
      cases hf
      simp
  | .faulty faults t, h => by
    obtain ⟨hopen, hread⟩ := openFile_civil d name h.2
    refine ⟨Fault.orElse_civil h.1 fun f hf => ?_, fun r hr => ?_⟩
    · cases ht : t.openFile d name with
      | error g =>
        rw [ht] at hf
        cases hf
        exact hopen _ ht
      | ok r =>
        rw [ht] at hf
        cases hf
    · obtain ⟨-, hr⟩ := Fault.orElse_eq_ok.mp hr
      cases ht : t.openFile d name with
      | error g =>
        rw [ht] at hr
        cases hr
      | ok r₀ =>
        rw [ht] at hr
        cases hr
        have hr₀ := hread r₀ ht
        exact ⟨Fault.orElse_civil h.1 hr₀.info,
          fun f hf => Fault.cut_ordinary h.1 (r₀.content, r₀.failure) hr₀.failure hf⟩

end Tree

namespace Disk

theorem makeLast_civil (d : Disk) (path : Bytes) (mode : Nat) : Civil (d.makeLast path mode) := by
  unfold makeLast
  split
  · exact civil_ok _
  · split
    · exact civil_ok _
    · exact civil_error (by simp)

/-- Making directories fails with what the system says. -/
theorem makeDirectories_ordinary {d : Disk} {path : Bytes} {mode : Nat} {f : Failure}
    (hf : (d.makeDirectories path mode).2 = some f) : f.Ordinary := by
  refine makeDirectoriesWithin_rel (R := fun result => ∀ f, result.2 = some f → f.Ordinary) ?_ ?_ _ path
    (fun _ h _ => h) (fun {d₁ x g} _ hl => ?_) f hf
  · intro f hf
    cases hf
  · intro path x f hf
    cases hf
    simp
  · intro f hf
    cases hf
    exact makeLast_civil d₁ x mode _ hl

end Disk

namespace Copy

variable {w : Walk.Scope} {t : Tree} {dest : Bytes} {dryRun : Bool} {d : Disk} {x : Visit} {s : State}
  {f : Failure}

/-- A file fails in four ways, and each passes on an ordinary failure. -/
theorem file_ordinary (ht : t.Ordinary) {name target : Bytes}
    (hf : (file t d name target).2 = some f) : f.Ordinary := by
  obtain ⟨hopen, hread⟩ := Tree.openFile_civil d name ht
  unfold file at hf
  cases ho : t.openFile d name with
  | error g =>
    rw [ho] at hf
    cases hf
    exact hopen _ ho
  | ok r =>
    rw [ho] at hf
    dsimp only at hf
    cases hi : r.info with
    | error g =>
      rw [hi] at hf
      cases hf
      exact (hread r ho).info _ hi
    | ok info =>
      rw [hi] at hf
      dsimp only at hf
      rcases openTarget_cases d target (fileMode info) with ⟨x, hx⟩ | ⟨d', w, hw, -⟩
      · rw [hx] at hf
        cases hf
        simp
      · rw [hw] at hf
        exact (hread r ho).failure f hf

theorem visit_ordinary (ht : t.Ordinary) (hf : (visit t dest dryRun x s).2 = some f) : f.Ordinary := by
  unfold visit at hf
  dsimp only at hf
  cases dryRun with
  | true => cases hdir : x.isDir <;> rw [hdir] at hf <;> cases hf
  | false =>
    cases hdir : x.isDir with
    | true =>
      rw [hdir] at hf
      obtain ⟨g, hg, rfl⟩ := Option.map_eq_some_iff.mp hf
      exact Failure.ordinary_during.mpr (makeDirectories_ordinary hg)
    | false =>
      rw [hdir] at hf
      simp only [Bool.false_eq_true, if_false] at hf
      cases hfile : file t s.disk x.name (Path.below dest x.rel) with
      | mk d' g =>
        rw [hfile] at hf
        cases g with
        | none => cases hf
        | some g =>
          cases hf
          exact Failure.ordinary_during.mpr (file_ordinary ht (congrArg Prod.snd hfile))

/-- A walk fails at a call or at a visit. -/
theorem walk_ordinary (ht : w.tree.Ordinary)
    (hf : (Walk.run w { disk := State.disk, visit := visit w.tree dest dryRun } s).2 = some f) :
    f.Ordinary := by
  have hguided : Walk.Guided w { disk := State.disk, visit := visit w.tree dest dryRun }
      (fun _ _ => True) (fun _ => True) Failure.Ordinary :=
    { root := fun _ _ _ => trivial
      item := fun _ _ _ _ _ => trivial
      visit := fun _ _ _ => ⟨trivial, fun f hf => visit_ordinary ht hf⟩
      stat := fun _ h => Failure.ordinary_during.mpr (Tree.stat_civil ht _ h)
      list := fun _ h => Failure.ordinary_during.mpr (Tree.list_civil ht _ h) }
  exact (hguided.run_behaves s trivial).2 f hf

theorem checkPatterns_civil (patterns : List Bytes) : Civil (Walk.checkPatterns patterns) := by
  unfold Walk.checkPatterns
  split
  · exact civil_error (by simp)
  · exact civil_ok _

/-- **A copy fails in ordinary ways**, if the tree it copies does. -/
theorem run_ordinary (ht : w.tree.Ordinary) (hf : (run w dest dryRun d).2 = some f) : f.Ordinary := by
  have hcourse := course w dest dryRun d
  generalize run w dest dryRun d = result at hcourse hf
  cases hcourse with
  | malformed hp =>
    cases hf
    exact checkPatterns_civil w.exclude _ hp
  | dry _ => exact walk_ordinary ht hf
  | unmade _ hm =>
    cases hf
    exact Failure.ordinary_during.mpr (makeDirectories_ordinary (congrArg Prod.snd hm))
  | walked _ _ => exact walk_ordinary ht hf

end Copy

/-! ## 2. The ways an install can go

The order of the constructors is the order in which the install looks. -/

/-- The source has a tree, and its root is a directory. -/
def Source.Valid (source : Source) (d : Disk) : Prop :=
  ∃ t info, source.tree = some t ∧ t.stat d source.root = .ok info ∧ info.isDir = true

/-- The source does not itself fail with a source or a project that is not found. -/
def Source.Ordinary (source : Source) : Prop := ∀ t, source.tree = some t → t.Ordinary

/-- The absolute path of the project leads to a directory. -/
def Project.Present (d : Disk) (project : Bytes) : Prop :=
  ∃ root, d.absolute project = .ok root ∧ d.isDirectory root = true

/-- A source is valid exactly if it is accepted. -/
theorem Source.valid_iff {source : Source} {d : Disk} :
    source.Valid d ↔ ∃ t, source.check d = .ok t := by
  constructor
  · rintro ⟨t, info, htree, hstat, hdir⟩
    exact ⟨t, Install.check_ok.mpr ⟨htree, info, hstat, hdir⟩⟩
  · rintro ⟨t, ht⟩
    obtain ⟨htree, info, hstat, hdir⟩ := Install.check_ok.mp ht
    exact ⟨t, info, htree, hstat, hdir⟩

/-- A project is there exactly if it is found. -/
theorem Project.present_iff {d : Disk} {project : Bytes} :
    Present d project ↔ ∃ root, resolve d project = .ok root := by
  constructor
  · rintro ⟨root, h⟩
    exact ⟨root, resolve_ok.mpr h⟩
  · rintro ⟨root, h⟩
    exact ⟨root, resolve_ok.mp h⟩

/-- A source is refused as a source that is not found, and as nothing else. -/
theorem Source.check_error {source : Source} {d : Disk} {f : Failure} (ho : source.Ordinary)
    (h : source.check d = .error f) : f.isSourceNotFound = true ∧ f.isTargetNotFound = false := by
  unfold check at h
  cases htree : source.tree with
  | none =>
    rw [htree] at h
    cases h
    exact ⟨rfl, rfl⟩
  | some t =>
    rw [htree] at h
    dsimp only at h
    cases hstat : t.stat d source.root with
    | error g =>
      rw [hstat] at h
      cases h
      refine ⟨rfl, ?_⟩
      -- The reason may be left out of the report, and else it is ordinary.
      by_cases hg : g.isNotDirectory = true
      · rw [if_pos hg]
        rfl
      · rw [if_neg hg]
        exact (Tree.stat_civil (ho t htree) g hstat).2
    | ok info =>
      rw [hstat] at h
      dsimp only at h
      split at h <;> cases h
      exact ⟨rfl, rfl⟩

theorem absolute_civil (d : Disk) (path : Bytes) : Civil (d.absolute path) := by
  unfold absolute
  by_cases habs : Path.isAbsolute path = true
  · rw [if_pos habs]
    exact civil_ok _
  · rw [if_neg habs]
    exact (civil_explain _ _ _).bind fun _ _ => civil_ok _

/-- A project is refused as a project that is not found, and as nothing else. -/
theorem Project.resolve_error {d : Disk} {project : Bytes} {f : Failure}
    (h : resolve d project = .error f) : f.isSourceNotFound = false ∧ f.isTargetNotFound = true := by
  unfold resolve at h
  cases habs : d.absolute project with
  | error g =>
    rw [habs] at h
    cases h
    exact ⟨(absolute_civil d project g habs).1, rfl⟩
  | ok root =>
    rw [habs] at h
    dsimp only at h
    cases hstat : d.stat root with
    | error g =>
      rw [hstat] at h
      cases h
      exact ⟨(civil_explain _ _ _ g hstat).1, rfl⟩
    | ok info =>
      rw [hstat] at h
      dsimp only at h
      split at h <;> cases h
      exact ⟨rfl, rfl⟩

namespace Install

variable {i : Install} {project root : Bytes} {d d' : Disk} {r : Result} {exclude : List Bytes}

/-- **How an install can go**, the disk it leaves and its result. -/
inductive Course (i : Install) (project : Bytes) (d : Disk) : Disk → Except Failure Result → Prop
  | noSource {f : Failure} : i.source.check d = .error f → Course i project d d (.error f)
  | noTarget {t : Tree} {f : Failure} : i.source.check d = .ok t →
      Project.resolve d project = .error f → Course i project d d (.error f)
  | skipped {t : Tree} {root : Bytes} : i.source.check d = .ok t →
      Project.resolve d project = .ok root → d.isDirectory (Project.kitPath root) = true →
      i.force = false → Course i project d d (.ok ⟨.skipped, 0, Project.kitPath root⟩)
  | failed {t : Tree} {root doing : Bytes} {s : Copy.State} {f : Failure} :
      i.source.check d = .ok t → Project.resolve d project = .ok root →
      (d.isDirectory (Project.kitPath root) = true → i.force = true) →
      Copy.run ⟨t, i.source.root, i.exclude⟩ (Project.kitPath root) i.dryRun d = (s, some f) →
      Course i project d s.disk (.error (.during doing f))
  | copied {t : Tree} {root : Bytes} {s : Copy.State} : i.source.check d = .ok t →
      Project.resolve d project = .ok root →
      (d.isDirectory (Project.kitPath root) = true → i.force = true) →
      Copy.run ⟨t, i.source.root, i.exclude⟩ (Project.kitPath root) i.dryRun d = (s, none) →
      Course i project d s.disk
        (.ok ⟨i.action (d.isDirectory (Project.kitPath root)), s.count, Project.kitPath root⟩)

/-- An install goes one of the five ways. -/
theorem course (i : Install) (project : Bytes) (d : Disk) :
    i.Course project d (i.run project d).disk (i.run project d).result := by
  unfold run
  cases hc : i.source.check d with
  | error f => exact .noSource hc
  | ok t =>
    cases hr : Project.resolve d project with
    | error f => exact .noTarget hc hr
    | ok root =>
      dsimp only
      by_cases hskip : (d.isDirectory (Project.kitPath root) && !i.force) = true
      · rw [if_pos hskip]
        rw [Bool.and_eq_true, Bool.not_eq_true'] at hskip
        exact .skipped hc hr hskip.1 hskip.2
      · rw [if_neg hskip]
        have hforce : d.isDirectory (Project.kitPath root) = true → i.force = true := by
          intro hp
          simpa [hp] using hskip
        unfold copy
        dsimp only
        cases hrun : Copy.run ⟨t, i.source.root, i.exclude⟩ (Project.kitPath root) i.dryRun d with
        | mk s f =>
          cases f with
          | none => exact .copied hc hr hforce hrun
          | some f => exact .failed hc hr hforce hrun

/-- What a status says of a project that is there. -/
theorem look_installed (h : d.absolute project = .ok root) (exclude : List Bytes) :
    (Status.look project exclude d).installed = d.isDirectory (Project.kitPath root) := by
  unfold Status.look
  rw [absoluteOr_eq h]
  dsimp only
  cases d.isDirectory (Project.kitPath root) with
  | false => rfl
  | true =>
    rw [if_neg (by simp)]
    split <;> rfl

/-! ## 3. What decides the outcome

For each part of the statement the five ways are gone through. -/

variable {result : Except Failure Result}

/-- The install failed, and the failure is classified as said. -/
def Fails (result : Except Failure Result) (classified : Failure → Bool) : Prop :=
  ∃ f, result = .error f ∧ classified f = true

/-- The install found a kit and did nothing. -/
def Skips (result : Except Failure Result) : Prop := ∃ r, result = .ok r ∧ r.action = .skipped

theorem not_fails_ok {r : Result} {classified : Failure → Bool} : ¬ Fails (.ok r) classified := by
  rintro ⟨f, hf, -⟩
  cases hf

theorem fails_error {f : Failure} {classified : Failure → Bool} :
    Fails (.error f) classified ↔ classified f = true := by
  constructor
  · rintro ⟨g, hg, h⟩
    cases hg
    exact h
  · intro h
    exact ⟨f, rfl, h⟩

instance (result : Except Failure Result) (classified : Failure → Bool) : Decidable (Fails result classified) :=
  match result with
  | .ok _ => .isFalse not_fails_ok
  | .error _ => decidable_of_iff _ fails_error.symm

theorem not_skips_error {f : Failure} : ¬ Skips (.error f) := by
  rintro ⟨r, hr, -⟩
  cases hr

theorem skips_ok : Skips (.ok r) ↔ r.action = .skipped := by
  constructor
  · rintro ⟨r', hr, h⟩
    cases hr
    exact h
  · intro h
    exact ⟨r, rfl, h⟩

/-- What is copied is not reported as skipped. -/
theorem action_ne_skipped (i : Install) (present : Bool) : i.action present ≠ .skipped := by
  unfold action
  cases i.dryRun <;> cases present <;> decide

/-- The five ways, and which of them fail for want of a source. -/
theorem Course.noSource_iff (h : i.Course project d d' result) (ho : i.source.Ordinary) :
    Fails result Failure.isSourceNotFound ↔ ¬ i.source.Valid d := by
  rw [Source.valid_iff]
  cases h with
  | noSource hc => simp [fails_error, (Source.check_error ho hc).1, hc]
  | noTarget hc hr => simp [fails_error, (Project.resolve_error hr).1, hc]
  | skipped hc => simp [not_fails_ok, hc]
  | failed hc _ _ hrun =>
    have hord := Copy.run_ordinary (ho _ (check_ok.mp hc).1) (congrArg Prod.snd hrun)
    simp [fails_error, (Failure.ordinary_during.mpr hord).1, hc]
  | copied hc => simp [not_fails_ok, hc]

/-- The same for want of a project.  That the source comes first is seen here. -/
theorem Course.noTarget_iff (h : i.Course project d d' result) (ho : i.source.Ordinary) :
    Fails result Failure.isTargetNotFound ↔ i.source.Valid d ∧ ¬ Project.Present d project := by
  rw [Source.valid_iff, Project.present_iff]
  cases h with
  | noSource hc => simp [fails_error, (Source.check_error ho hc).2, hc]
  | noTarget hc hr => simp [fails_error, (Project.resolve_error hr).2, hc, hr]
  | skipped hc hr => simp [not_fails_ok, hr]
  | failed hc hr _ hrun =>
    have hord := Copy.run_ordinary (ho _ (check_ok.mp hc).1) (congrArg Prod.snd hrun)
    simp [fails_error, (Failure.ordinary_during.mpr hord).2, hr]
  | copied hc hr => simp [not_fails_ok, hr]

/-- What a status says of a project that is found. -/
theorem installed_eq (h : Project.resolve d project = .ok root) (exclude : List Bytes) :
    (Status.look project exclude d).installed = d.isDirectory (Project.kitPath root) :=
  look_installed (Project.resolve_ok.mp h).1 exclude

/-- The same for installs that are skipped. -/
theorem Course.skips_iff (h : i.Course project d d' result) (exclude : List Bytes) :
    Skips result ↔ i.source.Valid d ∧ Project.Present d project ∧ i.force = false ∧
      (Status.look project exclude d).installed = true := by
  rw [Source.valid_iff, Project.present_iff]
  cases h with
  | noSource hc => simp [not_skips_error, hc]
  | noTarget hc hr => simp [not_skips_error, hr]
  | skipped hc hr hp hforce => simp [skips_ok, hc, hr, hforce, installed_eq hr, hp]
  | failed hc hr hforce _ =>
    have hnot : i.force = false → d.isDirectory (Project.kitPath _) = true → False :=
      fun hf hp => by rw [hforce hp] at hf; cases hf
    simpa [not_skips_error, hc, hr, installed_eq hr] using hnot
  | copied hc hr hforce _ =>
    have hnot : i.force = false → d.isDirectory (Project.kitPath _) = true → False :=
      fun hf hp => by rw [hforce hp] at hf; cases hf
    simpa [skips_ok, action_ne_skipped, hc, hr, installed_eq hr] using hnot

/-- An install that succeeds was skipped or is what the options and the kit that was there say. -/
theorem Course.action_eq (h : i.Course project d d' (.ok r)) (exclude : List Bytes) :
    (r.action = .skipped ∧ r.files = 0) ∨
      r.action = i.action (Status.look project exclude d).installed := by
  cases h with
  | skipped => exact Or.inl ⟨rfl, rfl⟩
  | copied _ hr => exact Or.inr (by rw [installed_eq hr])

/-- A copy that changes anything has patterns that can be read and is not a dry run. -/
theorem copy_changes {w : Walk.Scope} {dest : Bytes} {dryRun : Bool} {s : Copy.State}
    {f : Option Failure} (hrun : Copy.run w dest dryRun d = (s, f)) (hne : s.disk ≠ d) :
    Walk.checkPatterns w.exclude = .ok () ∧ dryRun = false := by
  have hdisk : s.disk = (Copy.run w dest dryRun d).1.disk := by rw [hrun]
  constructor
  · by_contra hp
    exact hne (hdisk.trans (Copy.run_malformed dest dryRun d hp))
  · by_contra hdry
    rw [Bool.not_eq_false] at hdry
    subst hdry
    exact hne (hdisk.trans (Copy.run_dryRun w dest d))

/-- **Only a copy that is made changes anything**: the source and the project are there, the kit is not or may
be overwritten, the patterns can be read and it is not a dry run. -/
theorem Course.changes (h : i.Course project d d' result) (hne : d' ≠ d) :
    i.source.Valid d ∧ Project.Present d project ∧ ¬ Skips result ∧
      Walk.checkPatterns i.exclude = .ok () ∧ i.dryRun = false := by
  rw [Source.valid_iff, Project.present_iff]
  cases h with
  | noSource => exact absurd rfl hne
  | noTarget => exact absurd rfl hne
  | skipped => exact absurd rfl hne
  | failed hc hr _ hrun => exact ⟨⟨_, hc⟩, ⟨_, hr⟩, not_skips_error, copy_changes hrun hne⟩
  | copied hc hr _ hrun =>
    exact ⟨⟨_, hc⟩, ⟨_, hr⟩, fun h => action_ne_skipped i _ (skips_ok.mp h), copy_changes hrun hne⟩

/-- After an install that was not a dry run the project has a kit. -/
theorem Course.leaves_kit (h : i.Course project d d' (.ok r)) (hreal : i.dryRun = false) :
    ∃ root, Project.resolve d' project = .ok root ∧ r.destination = Project.kitPath root ∧
      d'.isDirectory (Project.kitPath root) = true := by
  cases h with
  | @skipped _ root _ hr hp => exact ⟨root, hr, rfl, hp⟩
  | @copied t root s _ hr _ hrun =>
    rw [hreal] at hrun
    have hup := Copy.run_upholds ⟨t, i.source.root, i.exclude⟩ (Project.kitPath root) false d
    rw [hrun] at hup
    exact ⟨root, Project.resolve_upholds hup hr, rfl, Copy.run_isDirectory hrun⟩

/-- A project with a kit is left alone by an install that is not forced. -/
theorem run_skips {j : Install} (hforce : j.force = false) (hvalid : j.source.Valid d)
    (hr : Project.resolve d project = .ok root)
    (hkit : d.isDirectory (Project.kitPath root) = true) :
    (j.run project d).result = .ok ⟨.skipped, 0, Project.kitPath root⟩ := by
  obtain ⟨t, ht⟩ := Source.valid_iff.mp hvalid
  unfold run
  rw [ht, hr]
  simp only [hkit, hforce, Bool.not_false, Bool.and_self, if_true]

/-- What an install comes to, for a status that excludes what it likes.

A failure is classified by what it comes down to.  If a source failed with what says itself that there is no source
or no project, that would be passed on and read as if the install had said so.  Those parts that read the class of a
failure leave such sources out; all others hold of every source. -/
structure Decided (i : Install) (project : Bytes) (d : Disk) (exclude : List Bytes) : Prop where
  noSource : i.source.Ordinary →
    (Fails (i.run project d).result Failure.isSourceNotFound ↔ ¬ i.source.Valid d)
  noTarget : i.source.Ordinary →
    (Fails (i.run project d).result Failure.isTargetNotFound ↔ i.source.Valid d ∧ ¬ Project.Present d project)
  skipped : Skips (i.run project d).result ↔ i.source.Valid d ∧ Project.Present d project ∧
    i.force = false ∧ (Status.look project exclude d).installed = true
  status : ∀ root, d.absolute project = .ok root →
    (Status.look project exclude d).installed = d.isDirectory (Project.kitPath root)
  action : ∀ r, (i.run project d).result = .ok r → (r.action = .skipped ∧ r.files = 0) ∨
    r.action = if i.dryRun then .dryRun
      else if (Status.look project exclude d).installed then .updated else .installed
  /-- Nothing is written without a source or a project, where a kit is left alone, with patterns that cannot be
  read, or on a dry run, whether that succeeds or not. -/
  unchanged : ¬ i.source.Valid d ∨ ¬ Project.Present d project ∨ Skips (i.run project d).result ∨
    Walk.checkPatterns i.exclude ≠ .ok () ∨ i.dryRun = true → (i.run project d).disk = d
  unchanged_of_notFound : i.source.Ordinary →
    Fails (i.run project d).result Failure.isSourceNotFound ∨
      Fails (i.run project d).result Failure.isTargetNotFound → (i.run project d).disk = d
  /-- After any other success an install that is not forced is skipped, from whatever source. -/
  settled : ∀ r, (i.run project d).result = .ok r → i.dryRun = false → ∀ j : Install, j.force = false →
    j.source.Valid (i.run project d).disk →
    (j.run project (i.run project d).disk).result = .ok ⟨.skipped, 0, r.destination⟩

/-- **What an install comes to.**  It fails for want of a source exactly if the source is not valid, for want
of a project exactly if the source is valid and the project is not there, and is skipped exactly if both are
there, it is not forced and a status reports a kit.  So if both are there, neither failure is possible.
Otherwise a success is what the options and the status say. -/
theorem run_decides (i : Install) (project : Bytes) (d : Disk) (exclude : List Bytes) :
    Decided i project d exclude := by
  have h := i.course project d
  -- What changes anything is a copy, and everything that is said to leave the disk alone rules it out.
  have hunchanged : ¬ i.source.Valid d ∨ ¬ Project.Present d project ∨ Skips (i.run project d).result ∨
      Walk.checkPatterns i.exclude ≠ .ok () ∨ i.dryRun = true → (i.run project d).disk = d := by
    intro hout
    by_contra hne
    obtain ⟨hvalid, hpresent, hskip, hp, hreal⟩ := h.changes hne
    rcases hout with hout | hout | hout | hout | hout
    · exact hout hvalid
    · exact hout hpresent
    · exact hskip hout
    · exact hout hp
    · rw [hreal] at hout
      cases hout
  exact {
    noSource := h.noSource_iff
    noTarget := h.noTarget_iff
    skipped := h.skips_iff exclude
    status := fun root hroot => look_installed hroot exclude
    action := fun r hr => by
      rw [hr] at h
      exact h.action_eq exclude
    unchanged := hunchanged
    unchanged_of_notFound := fun ho hout => hunchanged <| hout.elim (fun hf => Or.inl ((h.noSource_iff ho).mp hf))
      fun hf => Or.inr (Or.inl ((h.noTarget_iff ho).mp hf).2)
    settled := fun r hr hreal j hforce hvalid => by
      rw [hr] at h
      obtain ⟨root, hroot, hdest, hkit⟩ := h.leaves_kit hreal
      rw [hdest]
      exact run_skips hforce hvalid hroot hkit }

/-- A kit with a link in it to a file that may not be written. -/
def linkToLockedFile : Disk :=
  { entries :=
      [([("locked" : Bytes)], .file 0o444 "old"),
        ([("p" : Bytes)], .dir 0o755),
        ([("p" : Bytes), (".agent" : Bytes)], .dir 0o755),
        ([("p" : Bytes), (".agent" : Bytes), ("a" : Bytes)], .link "/locked")] }

/-- A source in memory, one file of which cannot be opened for the reason given. -/
def sourceFailingAtB (cause : Failure) : Source :=
  { tree := some (.faulty [⟨"b", .opening, cause⟩]
      (.inMemory { entries := [("a", .file 0o644 "new"), ("b", .file 0o644 "")] }))
    label := "memory" }

/-- The install of all that can be opened. -/
def installAllButB : Install := { source := sourceFailingAtB .forbidden, force := true, exclude := ["b"] }

/-- The link is replaced, and the file that it led to stays. -/
theorem run_decides_linkToLockedFile :
    installAllButB.source.Ordinary ∧
      (installAllButB.run "/p" linkToLockedFile).result.toOption = some ⟨.updated, 1, "/p/.agent"⟩ ∧
      (installAllButB.run "/p" linkToLockedFile).disk.get? [("locked" : Bytes)] = some (.file 0o444 "old") ∧
      ¬ Fails (installAllButB.run "/p" linkToLockedFile).result Failure.isSourceNotFound ∧
      (({ source := sourceFailingAtB .forbidden } : Install).run "/p"
        (installAllButB.run "/p" linkToLockedFile).disk).result = .ok ⟨.skipped, 0, "/p/.agent"⟩ := by
  have hord : installAllButB.source.Ordinary := by
    intro t ht
    cases ht
    exact ⟨by simp [Fault.Ordinary, Failure.Ordinary, Failure.isSourceNotFound,
      Failure.isTargetNotFound], by simp [Tree.Ordinary, Fault.Ordinary]⟩
  have hres : (installAllButB.run "/p" linkToLockedFile).result.toOption = some ⟨.updated, 1, "/p/.agent"⟩ := by
    decide +kernel
  have hvalid : ∀ d, (sourceFailingAtB .forbidden).Valid d := fun d => ⟨_, ⟨true, 0o555⟩, rfl, rfl, rfl⟩
  have hdecided := run_decides installAllButB "/p" linkToLockedFile []
  exact ⟨hord, hres, by decide +kernel, fun hf => (hdecided.noSource hord).mp hf (hvalid _),
    hdecided.settled _ (ok_of_toOption hres) rfl { source := sourceFailingAtB .forbidden } rfl (hvalid _)⟩

/-- **A source that is there may be reported missing**, and with the disk changed, if opening one of its files fails
with a report of that kind.  So the class of a failure says nothing of such a source. -/
theorem missing_though_valid :
    (sourceFailingAtB (.sourceNotFound "elsewhere" none)).Valid {} ∧
      Fails (({ source := sourceFailingAtB (.sourceNotFound "elsewhere" none) } : Install).run "/" {}).result
        Failure.isSourceNotFound ∧
      (({ source := sourceFailingAtB (.sourceNotFound "elsewhere" none) } : Install).run "/" {}).disk.get?
        [(".agent" : Bytes), ("a" : Bytes)] = some (.file 0o644 "new") :=
  ⟨⟨_, ⟨true, 0o555⟩, rfl, rfl, rfl⟩, by decide +kernel, by decide +kernel⟩

/-- **A project is found under its absolute path only.**  The path as it stands leads to no directory, but
it stands for the one that relative paths start from. -/
theorem found_though_path_leads_nowhere :
    Disk.isDirectory {} "nowhere/.." = false ∧ (sourceFailingAtB .forbidden).Valid {} ∧
      (({ source := sourceFailingAtB .forbidden, exclude := ["b"] } : Install).run "nowhere/.." {}).result.toOption =
        some ⟨.installed, 1, "/.agent"⟩ :=
  ⟨by decide +kernel, ⟨_, ⟨true, 0o555⟩, rfl, rfl, rfl⟩, by decide +kernel⟩

end Install

end AgentKit
