import AgentKit.Proofs.CommandLine
import AgentKit.Proofs.Looking
/-!
# The same install in other words

Two pairs of command lines ask for the same install.  `update` is `init` with `--force` in front of its
other arguments; and a line with `--quiet` is the line without it, shown to nobody.  In both cases the two
lines are read into arguments that say the same of all flags but one, and a run looks at that one flag in
one place.

1. Reading a line after a flag has been preset (`Presets`): both readings fail with the same fault, or both
   succeed and differ in that flag only.
2. What the settings and an install depend on.  An install has no bad news but its fault, and all its
   diagnostics are at one level.
3. **Updating is installing by force** (`run_update`).
4. **A quiet run is the run that would have been shown** (`run_quiet`).

What can make a difference between the two runs of a pair?  The name of the command is in their diagnostics, and in an
error about arguments that it does not take.  A flag may be taken back by a later one.  And help is for the command that is
named.  These are the cases that the statements leave out; in all others the runs are the same, also in how they fail.
-/

namespace AgentKit

/-! ## 1. A flag that was preset

Flags are read from left to right, and each is assigned to what has been read so far.  So reading on from two
states that differ in one flag gives two states that differ at most in this flag. -/

/-- Two answers agree: the same failure, or values that are related. -/
inductive Agree {ε α β : Type} (rel : α → β → Prop) : Except ε α → Except ε β → Prop
  | ok {a : α} {b : β} : rel a b → Agree rel (.ok a) (.ok b)
  | error (e : ε) : Agree rel (.error e) (.error e)

section

variable {ε α β α' β' : Type} {rel : α → β → Prop} {rel' : α' → β' → Prop} {x : Except ε α} {y : Except ε β}

/-- The next step agrees if it does so on related values. -/
theorem Agree.bind {f : α → Except ε α'} {g : β → Except ε β'} (h : Agree rel x y)
    (hfg : ∀ a b, rel a b → Agree rel' (f a) (g b)) : Agree rel' (x >>= f) (y >>= g) := by
  cases h with
  | ok hab => exact hfg _ _ hab
  | error e => exact .error e

theorem Agree.map {f : α → α'} {g : β → β'} (h : Agree rel x y) (hfg : ∀ a b, rel a b → rel' (f a) (g b)) :
    Agree rel' (x.map f) (y.map g) := by
  cases h with
  | ok hab => exact .ok (hfg _ _ hab)
  | error e => exact .error e

end

namespace Arguments

variable {a b : Arguments} {name : Bytes} {v : FlagValue}

/-- The arguments say the same but for one flag. -/
structure SameBut (name : Bytes) (a b : Arguments) : Prop where
  rest : a.rest = b.rest
  get : ∀ n, n ≠ name → a.get? n = b.get? n

/-- `b` has what `a` has, and `v` for the flag `name` where `a` says nothing of it. -/
structure Presets (name : Bytes) (v : FlagValue) (a b : Arguments) : Prop where
  rest : a.rest = b.rest
  get : ∀ n, b.get? n = (a.get? n).or (if n = name then some v else none)

theorem Presets.sameBut (h : Presets name v a b) : SameBut name a b := by
  refine ⟨h.rest, fun n hn => ?_⟩
  rw [h.get n, if_neg hn, Option.or_none]

/-- A flag that is given on the line goes before one that was preset. -/
theorem Presets.put (h : Presets name v a b) (n : Bytes) (x : FlagValue) :
    Presets name v (a.put n x) (b.put n x) := by
  refine ⟨h.rest, fun m => ?_⟩
  rw [Flag.get?_put, Flag.get?_put, h.get m]
  by_cases hm : m = n
  · rw [if_pos hm, if_pos hm, Option.some_or]
  · rw [if_neg hm, if_neg hm]

theorem Presets.addRest (h : Presets name v a b) (ws : List Bytes) :
    Presets name v { a with rest := a.rest ++ ws } { b with rest := b.rest ++ ws } :=
  ⟨congrArg (· ++ ws) h.rest, h.get⟩

theorem text_congr {n : Bytes} (h : a.get? n = b.get? n) (initial : Bytes) : a.text n initial = b.text n initial := by
  rw [text, text, h]

theorem switch_congr {n : Bytes} (h : a.get? n = b.get? n) : a.switch n = b.switch n := by
  rw [switch, switch, h]

end Arguments

namespace Flag

open Arguments

variable {flags : List Flag} {f : Flag} {a b : Arguments} {name : Bytes} {v : FlagValue}

/-- What is read into arguments with a preset flag, with the arguments that are left. -/
def PresetsRead (name : Bytes) (v : FlagValue) (p q : Arguments × List Bytes) : Prop :=
  Presets name v p.1 q.1 ∧ p.2 = q.2

/-- A list is the only flag whose new value depends on the old one, so the preset flag must not be a
list. -/
theorem assign_presets (h : Presets name v a b) (hf : f.name = name → f.kind ≠ .list) (value : Bytes) :
    Agree (Presets name v) (f.assign value a) (f.assign value b) := by
  unfold assign
  cases hk : f.kind with
  | text => exact .ok (h.put _ _)
  | switch =>
    cases truth? value with
    | none => exact .error _
    | some x => exact .ok (h.put _ _)
  | list =>
    have hget : b.get? f.name = a.get? f.name := by
      rw [h.get, if_neg fun hname => hf hname hk, Option.or_none]
    dsimp only
    rw [hget]
    cases Csv.read value with
    | error e => exact .error _
    | ok ts =>
      cases a.get? f.name with
      | none => exact .ok (h.put _ _)
      | some x => cases x <;> exact .ok (h.put _ _)

/-- The same, with the arguments that are left to read. -/
theorem assign_presetsRead (h : Presets name v a b) (hf : f.name = name → f.kind ≠ .list) (value : Bytes)
    (more : List Bytes) :
    Agree (PresetsRead name v) ((f.assign value a).map (·, more)) ((f.assign value b).map (·, more)) :=
  (assign_presets h hf value).map fun _ _ hab => ⟨hab, rfl⟩

section

variable (hflags : ∀ f ∈ flags, f.name = name → f.kind ≠ .list)
include hflags

/-- A flag with two dashes, which may take the next argument. -/
theorem long_presets (h : Presets name v a b) (arg : Bytes) (more : List Bytes) :
    Agree (PresetsRead name v) (long flags arg more a) (long flags arg more b) := by
  unfold long
  dsimp only
  split
  · exact .error _
  · cases hfind : flags.find? fun f => decide (f.name = (arg.drop 2).takeWhile (· ≠ byte '=')) with
    | none => exact .error _
    | some f =>
      have hassign := assign_presetsRead h (hflags f (List.mem_of_find?_eq_some hfind))
      dsimp only
      split
      · exact hassign _ _
      · exact hassign _ _
      · exact hassign _ _
      · exact .error _

/-- Flags of one letter, several of which may share a dash. -/
theorem letters_presets (h : Presets name v a b) (more : List Bytes) (cs : Bytes) :
    Agree (PresetsRead name v) (letters flags more cs a) (letters flags more cs b) := by
  induction cs generalizing a b with
  | nil => exact .ok ⟨h, rfl⟩
  | cons c t ih =>
    unfold letters
    split
    · exact .ok ⟨h, rfl⟩
    · cases hfind : flags.find? fun f => decide (f.letter = some c) with
      | none => exact .error _
      | some f =>
        have hf := hflags f (List.mem_of_find?_eq_some hfind)
        have hassign := assign_presetsRead h hf
        dsimp only
        split
        · exact hassign _ _
        · exact (assign_presets h hf _).bind fun _ _ hab => ih hab
        · exact hassign _ _
        · exact hassign _ _
        · exact .error _

/-- **A line is read alike after a flag has been preset.** -/
theorem parseFrom_presets (fuel : Nat) (args : List Bytes) (h : Presets name v a b) :
    Agree (Presets name v) (parseFrom flags fuel a args) (parseFrom flags fuel b args) := by
  induction fuel generalizing a b args with
  | zero => exact .ok h
  | succ fuel ih =>
    cases args with
    | nil => exact .ok h
    | cons arg more =>
      unfold parseFrom
      split
      · exact .ok (h.addRest more)
      · refine (long_presets hflags h _ more).bind ?_
        rintro ⟨a', more'⟩ ⟨b', _⟩ ⟨hab, rfl⟩
        exact ih more' hab
      · refine (letters_presets hflags h more _).bind ?_
        rintro ⟨a', more'⟩ ⟨b', _⟩ ⟨hab, rfl⟩
        exact ih more' hab
      · exact ih more (h.addRest [arg])

end

/-- The flag without the words that explain it. -/
def bare (f : Flag) : Flag := { name := f.name, letter := f.letter, kind := f.kind }

/-- Flags are found by their names, and these do not explain anything. -/
theorem find?_name_bare (flags : List Flag) (n : Bytes) :
    (flags.map bare).find? (fun f => decide (f.name = n)) =
      (flags.find? fun f => decide (f.name = n)).map bare := List.find?_map

theorem find?_letter_bare (flags : List Flag) (c : UInt8) :
    (flags.map bare).find? (fun f => decide (f.letter = some c)) =
      (flags.find? fun f => decide (f.letter = some c)).map bare := List.find?_map

theorem long_bare (flags : List Flag) (arg : Bytes) (more : List Bytes) (a : Arguments) :
    long (flags.map bare) arg more a = long flags arg more a := by
  unfold long
  dsimp only
  rw [find?_name_bare]
  split
  · rfl
  · cases flags.find? fun f => decide (f.name = (arg.drop 2).takeWhile (· ≠ byte '=')) <;> rfl

theorem letters_bare (flags : List Flag) (more : List Bytes) (cs : Bytes) (a : Arguments) :
    letters (flags.map bare) more cs a = letters flags more cs a := by
  induction cs generalizing a with
  | nil => rfl
  | cons c t ih =>
    unfold letters
    simp only [ih]
    rw [find?_letter_bare]
    split
    · rfl
    · cases flags.find? fun f => decide (f.letter = some c) <;> rfl

theorem parseFrom_bare (flags : List Flag) (fuel : Nat) (a : Arguments) (args : List Bytes) :
    parseFrom (flags.map bare) fuel a args = parseFrom flags fuel a args := by
  induction fuel generalizing a args with
  | zero => rfl
  | succ fuel ih =>
    cases args with
    | nil => rfl
    | cons arg more =>
      unfold parseFrom
      simp only [ih, long_bare, letters_bare]

/-- **How a line is read does not depend on how flags are explained.** -/
theorem parse_congr {flags flags' : List Flag} (h : flags.map bare = flags'.map bare) (args : List Bytes) :
    parse flags args = parse flags' args := by
  rw [parse, parse, ← parseFrom_bare flags, h, parseFrom_bare]

end Flag

/-! ## 2. What an install depends on

The flags are gone through that matter for the settings, for the install and for its report. -/

namespace Command

open Arguments

variable {env : Environment} {args rest : List Bytes} {c c' : Command} {a b : Arguments} {s : Setup} {d : Disk}
  {r r' : Report} {name : Bytes}

/-- The flags that settings are made from. -/
def settingNames : List Bytes := ["config", "exclude", "color", "log-level", "log-format", "source"]

/-- **Settings depend on the flags for settings**, and on the command only if this is the status. -/
theorem setup_congr (h : ∀ n ∈ settingNames, a.get? n = b.get? n) (hc : c ≠ .status) (hc' : c' ≠ .status) :
    setup c d a = setup c' d b := by
  have hfile : configFile d a = configFile d b := by
    unfold configFile
    rw [text_congr (h "config" (by decide))]
  have hvalue : ∀ n ∈ settingNames, ∀ entries, Config.valueOf a entries n = Config.valueOf b entries n := by
    intro n hn entries
    rw [Config.valueOf, Config.valueOf, h n hn]
  have hresolve : ∀ entries, Config.resolve a entries = Config.resolve b entries := by
    intro entries
    unfold Config.resolve Config.listSetting Config.textSetting
    rw [hvalue "exclude" (by decide), hvalue "color" (by decide), hvalue "log-level" (by decide),
      hvalue "log-format" (by decide), hvalue "source" (by decide)]
  have hload : ∀ file, Config.load a file = Config.load b file := by
    intro file
    unfold Config.load
    simp only [hresolve]
  have hstrict : strictSetup d a = strictSetup d b := by
    unfold strictSetup
    rw [hfile, hload]
  -- What is left is what the command does with settings that it cannot have.
  unfold setup
  rw [hstrict]
  cases strictSetup d b with
  | ok s => rfl
  | error f =>
    dsimp only
    rw [if_neg hc, if_neg hc']

/-- What the report on an install takes from the arguments: where to, whether by force, whether to write,
and whom to show it to. -/
theorem runInstall_congr {always always' : Bool} (hpath : a.get? "path" = b.get? "path")
    (hdry : a.get? "dry-run" = b.get? "dry-run")
    (hforce : (a.switch "force" || always) = (b.switch "force" || always')) :
    runInstall s a always d = { runInstall s b always' d with quiet := a.switch "quiet" } := by
  unfold runInstall
  rw [text_congr hpath, switch_congr hdry, hforce]
  dsimp only
  split <;> rfl

/-- An install is told of without bad news. -/
theorem install_calm (i : Install) (project : Bytes) (d : Disk) : Calm (i.run project d).shown := by
  unfold Install.run
  cases i.source.check d with
  | error f => simp [Calm]
  | ok t =>
    cases Project.resolve d project with
    | error f => simp [Calm]
    | ok root =>
      dsimp only
      split
      · simp [Calm, Install.alreadyThere, Message.isUrgent]
      · unfold Install.copy
        dsimp only
        split
        · simp [Calm]
        · intro m hm
          cases List.mem_singleton.mp hm
          unfold Install.Result.message
          split <;> rfl

theorem nextStep_calm (r : Install.Result) : Calm (nextStep r) := by
  unfold nextStep
  split <;> simp [Calm, Message.isUrgent]

/-- The records are for those who look for the cause of something. -/
def Minor (log : List Log.Record) : Prop := ∀ l ∈ log, l.level = .debug

theorem visit_minor (t : Tree) (dest : Bytes) (dryRun : Bool) (x : Visit) (s : Copy.State) (h : Minor s.log) :
    Minor (Copy.visit t dest dryRun x s).1.log := by
  have hnote : ∀ message, Minor (s.log ++ [Copy.note message dest x.rel]) := by
    intro message
    refine List.forall_mem_append.mpr ⟨h, fun l hl => ?_⟩
    cases List.mem_singleton.mp hl
    rfl
  unfold Copy.visit
  dsimp only
  split
  · split <;> exact h
  · split
    · exact hnote _
    · split
      · exact h
      · exact hnote _

theorem copy_minor (w : Walk.Scope) (dest : Bytes) (dryRun : Bool) (d : Disk) :
    Minor (Copy.run w dest dryRun d).1.log := by
  have hnil : Minor [] := fun l hl => by cases hl
  have hcourse := Copy.course w dest dryRun d
  generalize Copy.run w dest dryRun d = result at hcourse
  cases hcourse with
  | malformed => exact hnil
  | dry => exact Walk.run_keeps (fun s : Copy.State => Minor s.log) (visit_minor w.tree dest true) hnil
  | unmade => exact hnil
  | walked => exact Walk.run_keeps (fun s : Copy.State => Minor s.log) (visit_minor w.tree dest false) hnil

theorem install_minor (i : Install) (project : Bytes) (d : Disk) : Minor (i.run project d).log := by
  unfold Install.run
  cases i.source.check d with
  | error f => simp [Minor]
  | ok t =>
    cases Project.resolve d project with
    | error f => simp [Minor]
    | ok root =>
      dsimp only
      split
      · simp [Minor, Log.Record.debug]
      · have hcopy := copy_minor ⟨t, i.source.root, i.exclude⟩ (Project.kitPath root) i.dryRun d
        unfold Install.copy
        dsimp only
        split
        · rename_i hrun
          rw [hrun] at hcopy
          exact hcopy
        · rename_i hrun
          rw [hrun] at hcopy
          refine List.forall_mem_append.mpr ⟨hcopy, fun l hl => ?_⟩
          cases List.mem_singleton.mp hl
          rfl

/-- What every report on an install has in common. -/
structure Installs (r : Report) : Prop where
  calm : Calm r.shown
  printed : r.printed = []
  minor : Minor r.log

/-- All ways to report on an install are of this kind. -/
theorem runInstall_installs (s : Setup) (a : Arguments) (always : Bool) (d : Disk) :
    Installs (runInstall s a always d) := by
  unfold runInstall
  dsimp only
  split
  · exact ⟨install_calm _ _ _, rfl, List.forall_mem_cons.mpr ⟨rfl, install_minor _ _ _⟩⟩
  · exact ⟨(install_calm _ _ _).append (nextStep_calm _), rfl,
      List.forall_mem_cons.mpr ⟨rfl, install_minor _ _ _⟩⟩

/-- The commands that install. -/
def installers : List Command := [.init, .update]

/-- The two commands do the same but for one of them using force always. -/
theorem work_install (hc : c ∈ installers) (env : Environment) (s : Setup) (a : Arguments) :
    c.work env s a = runInstall s a (decide (c = .update)) env.disk := by
  simp only [installers, List.mem_cons, List.not_mem_nil, or_false] at hc
  rcases hc with rfl | rfl <;> rfl

theorem start_error {f : Fault} (hs : setup c env.disk a = .error f) :
    c.start env a = { disk := env.disk, fault := some f } := by
  unfold start
  rw [hs]

theorem start_installs (hc : c ∈ installers) (env : Environment) (a : Arguments) :
    Installs (c.start env a) := by
  cases hs : setup c env.disk a with
  | error f =>
    rw [start_error hs]
    exact ⟨by simp [Calm], rfl, by simp [Minor]⟩
  | ok s =>
    have hwork := runInstall_installs s a (decide (c = .update)) env.disk
    rw [← work_install hc] at hwork
    rw [start_ok hs]
    refine ⟨hwork.calm, hwork.printed, ?_⟩
    intro signed hsigned
    obtain ⟨l, hl, rfl⟩ := List.mem_map.mp hsigned
    rcases List.mem_cons.mp hl with rfl | hl
    · rfl
    · exact hwork.minor l hl

/-- The flags that an install depends on, but for those that the commands differ in. -/
def installNames : List Bytes := "path" :: "dry-run" :: settingNames

/-- The two commands ask for the same install. -/
structure Twins (c : Command) (a : Arguments) (c' : Command) (b : Arguments) : Prop where
  left : c ∈ installers
  right : c' ∈ installers
  get : ∀ n ∈ installNames, a.get? n = b.get? n
  force : (a.switch "force" || decide (c = .update)) = (b.switch "force" || decide (c' = .update))

theorem ne_status (hc : c ∈ installers) : c ≠ .status := by
  rintro rfl
  exact absurd hc (by decide)

/-- **The reports on one install differ in their signature and in whom they are shown to.** -/
theorem Twins.start (h : Twins c a c' b) (env : Environment) :
    ∃ (r : Report) (q q' : Bool) (log : List Log.Record),
      c.start env a = { r with quiet := q, log := log.map c.sign } ∧
      c'.start env b = { r with quiet := q', log := log.map c'.sign } ∧
      (a.get? "quiet" = b.get? "quiet" → q = q') ∧
      (r.settings = {} ∨ ∃ s, setup c env.disk a = .ok s ∧ r.settings = s.settings) := by
  -- They have the same settings or fail for the same reason.
  have hsetup : setup c env.disk a = setup c' env.disk b :=
    setup_congr (fun n hn => h.get n (List.mem_cons_of_mem _ (List.mem_cons_of_mem _ hn))) (ne_status h.left)
      (ne_status h.right)
  cases hs : setup c env.disk a with
  | error f =>
    rw [start_error hs, start_error (hsetup.symm.trans hs)]
    exact ⟨{ disk := env.disk, fault := some f }, false, false, [], rfl, rfl, fun _ => rfl, Or.inl rfl⟩
  | ok s =>
    have hloaded : loaded a = loaded b := by
      rw [loaded, loaded, text_congr (h.get "config" (by decide))]
    have hwork := @runInstall_congr a b s env.disk _ _ (h.get "path" (by decide)) (h.get "dry-run" (by decide)) h.force
    rw [start_ok hs, start_ok (hsetup.symm.trans hs), work_install h.left, work_install h.right, hwork, hloaded]
    refine ⟨{ runInstall s b (decide (c' = .update)) env.disk with settings := s.settings }, a.switch "quiet",
      (runInstall s b (decide (c' = .update)) env.disk).quiet,
      loaded b :: (runInstall s b (decide (c' = .update)) env.disk).log, rfl, rfl, ?_, Or.inr ⟨s, rfl, rfl⟩⟩
    intro hquiet
    rw [switch_congr hquiet]
    unfold runInstall
    dsimp only
    split <;> rfl

/-- A line that cannot be read is refused before anything is done. -/
theorem report_refused {f : FlagFault} (hf : find args = .ok (c, rest)) (hp : Flag.parse c.flags rest = .error f)
    (hc : c ∈ workers) : report env args = { disk := env.disk, fault := some (.flags f) } := by
  rw [← read_of_worker hc] at hp
  simp [report, hf, hp]

/-- So is a line with arguments that the command does not take. -/
theorem report_unexpected {arg : Bytes} {more : List Bytes} (hf : find args = .ok (c, rest))
    (hp : Flag.parse c.flags rest = .ok a) (hhelp : a.switch "help" = false) (hc : c ∈ workers)
    (hrest : a.rest = arg :: more) :
    report env args = { disk := env.disk, fault := some (.unexpected c arg) } := by
  rw [← read_of_worker hc] at hp
  simp [report, hf, hp, hhelp, runs_of_worker hc, argumentFault?_of_worker hc, hrest]

/-! ## 3. Updating

`--force` is read first and sets a flag.  From there on `init` reads what `update` reads from the beginning, for
they have the same flags. -/

/-- Where notes for debugging are not shown, no diagnostics are written. -/
theorem lines_minor {settings : Log.Settings} {log : List Log.Record} (h : Minor log)
    (hlevel : settings.shows .debug = false) (time : Bytes) : settings.lines time log = [] := by
  refine List.flatMap_eq_nil_iff.mpr fun l hl => ?_
  unfold Log.Settings.line
  rw [h l hl, hlevel]
  rfl

/-- A command that is named first is the one that is run. -/
theorem find_name (hc : c ∈ workers) (args : List Bytes) : find (c.name :: args) = .ok (c, args) := by
  have hname : ∀ c ∈ workers, c.name ≠ "--" ∧ takesNext commonFlags c.name = false ∧
      (c.name.isEmpty || dashed c.name) = false ∧ (named ++ requests).find? (·.name = c.name) = some c := by decide
  obtain ⟨hdashes, htakes, hword, hfind⟩ := hname c hc
  have hcompletion : c ≠ .completion := by
    rintro rfl
    exact absurd hc (by decide)
  -- The name is the first word, and it is the first word that is taken out of the arguments again.
  have hwords : words commonFlags (c.name :: args) = c.name :: words commonFlags args := by
    rw [words.eq_def]
    simp only [hdashes, htakes, hword, if_false, Bool.false_eq_true]
  have hwithout : without commonFlags c.name (c.name :: args) = args := by
    rw [without.eq_def]
    simp only [hdashes, htakes, if_false, if_true, Bool.false_eq_true]
  rw [find, findAmong, hwords]
  dsimp only
  rw [hfind, hwithout]
  cases c <;> first | rfl | exact absurd rfl hcompletion

/-- Behind `--force` the arguments are read as they are, but for what they leave open of that flag. -/
theorem parse_force (args : List Bytes) : Agree (Presets "force" (.switch true))
    (Flag.parse Command.update.flags args) (Flag.parse Command.init.flags ("--force" :: args)) := by
  have hread : Flag.parse Command.init.flags ("--force" :: args) =
      Flag.parseFrom Command.init.flags args.length { given := [("force", .switch true)] } args := rfl
  have hflags : Command.update.flags.map Flag.bare = Command.init.flags.map Flag.bare := rfl
  rw [Flag.parse_congr hflags, hread]
  refine Flag.parseFrom_presets (by decide) _ _ ⟨rfl, fun n => ?_⟩
  rw [get?, get?, lookup_cons_if]
  rfl

/-- A switch that was given is on or off. -/
theorem switch_of_parse {flags : List Flag} (hp : Flag.parse flags args = .ok a)
    (hkind : ∀ f ∈ flags, f.name = name → f.kind = .switch) :
    ∀ v, a.get? name = some v → ∃ x, v = .switch x := by
  obtain ⟨gs, ws, hreads⟩ := Flag.reads_of_parse hp
  obtain ⟨b, hb, hget⟩ := Flag.assignAll_of_reads hp hreads
  have hgs : ∀ g ∈ gs, g.1.name = name → g.1.kind = .switch := fun g hg => hkind g.1 (hreads.mem g hg)
  -- Along the texts that flags are given: each of them sets the switch to a truth value.
  have hrun : ∀ (a₀ : Arguments), Flag.assignAll gs a₀ = .ok b →
      (∀ v, a₀.get? name = some v → ∃ x, v = .switch x) → ∀ v, b.get? name = some v → ∃ x, v = .switch x := by
    clear hb hreads
    induction gs with
    | nil =>
      intro a₀ h h₀
      cases h
      exact h₀
    | cons g gs ih =>
      intro a₀ h h₀
      obtain ⟨a₁, x, hrest, hx, hget₁⟩ := Flag.assignAll_cons h
      refine ih (fun g' hg' => hgs g' (List.mem_cons_of_mem _ hg')) a₁ hrest fun v hv => ?_
      rw [hget₁] at hv
      split at hv
      · rename_i hname
        rw [hgs g List.mem_cons_self hname.symm] at hx
        cases hx
        cases hv
        exact ⟨_, rfl⟩
      · exact h₀ v hv
  intro v hv
  rw [hget] at hv
  exact hrun {} hb (fun v hv => by cases hv) v hv

/-- What is not forced off by the arguments is forced by `--force` in front of them. -/
theorem twins_force (hp : Flag.parse Command.update.flags args = .ok a)
    (hforce : a.get? "force" ≠ some (.switch false)) (h : Presets "force" (.switch true) a b) :
    Twins .update a .init b := by
  have hswitch : b.switch "force" = true := by
    rw [Arguments.switch, h.get, if_pos rfl]
    cases hget : a.get? "force" with
    | none => rfl
    | some v =>
      obtain ⟨x, rfl⟩ := switch_of_parse hp (by decide) v hget
      cases x with
      | true => rfl
      | false => exact absurd hget hforce
  refine ⟨by decide, by decide, fun n hn => h.sameBut.get n ?_, by simp [hswitch]⟩
  rintro rfl
  exact absurd hn (by decide)

/-- **Updating is installing by force.**  The arguments may not take the force back or ask for help.  The two
runs end alike; they write the same errors and diagnostics too if no argument is left over, which an error
would quote with the command, and if no diagnostics are written, which are signed with it. -/
theorem run_update (env : Environment) (args : List Bytes)
    (h : ∀ a, Flag.parse Command.update.flags args = .ok a →
      a.get? "force" ≠ some (.switch false) ∧ a.switch "help" = false) :
    (run env ("update" :: args)).exit = (run env ("init" :: "--force" :: args)).exit ∧
    (run env ("update" :: args)).disk = (run env ("init" :: "--force" :: args)).disk ∧
    (run env ("update" :: args)).output.out = (run env ("init" :: "--force" :: args)).output.out ∧
    ((∀ a, Flag.parse Command.update.flags args = .ok a → a.rest = [] ∧
        ∀ s, setup .update env.disk a = .ok s → s.settings.shows .debug = false) →
      (run env ("update" :: args)).output.err = (run env ("init" :: "--force" :: args)).output.err) := by
  have hfind : find ("update" :: args) = .ok (.update, args) :=
    @find_name .update (by decide) args
  have hfind' : find ("init" :: "--force" :: args) = .ok (.init, "--force" :: args) :=
    @find_name .init (by decide) ("--force" :: args)
  have hread := parse_force args
  cases hp : Flag.parse Command.update.flags args with
  | error f =>
    rw [hp] at hread
    generalize hp' : Flag.parse Command.init.flags ("--force" :: args) = y at hread
    cases hread
    rw [run, run, report_refused hfind hp (by decide), report_refused hfind' hp' (by decide)]
    exact ⟨rfl, rfl, rfl, fun _ => rfl⟩
  | ok a =>
    obtain ⟨hforce, hhelp⟩ := h a hp
    rw [hp] at hread
    generalize hp' : Flag.parse Command.init.flags ("--force" :: args) = y at hread
    cases hread with
    | @ok _ b hab =>
      have hhelp' : b.switch "help" = false := by
        rw [← switch_congr (hab.sameBut.get "help" (by decide)), hhelp]
      have hsame := hab.rest
      -- Both commands refuse arguments that are left over.
      cases hrest : a.rest with
      | cons arg more =>
        rw [hrest] at hsame
        rw [run, run, report_unexpected hfind hp hhelp (by decide) hrest,
          report_unexpected hfind' hp' hhelp' (by decide) hsame.symm]
        refine ⟨rfl, rfl, rfl, fun hquiet => ?_⟩
        cases hrest.symm.trans (hquiet a rfl).1
      | nil =>
        rw [hrest] at hsame
        have hleft := @start_installs .update (by decide) env a
        have hright := @start_installs .init (by decide) env b
        obtain ⟨r, q, q', log, hupdate, hinit, hquiet, hsettings⟩ := (twins_force hp hforce hab).start env
        cases hquiet (hab.sameBut.get "quiet" (by decide))
        rw [run, run, report_start hfind hp hhelp (by decide) hrest,
          report_start hfind' hp' hhelp' (by decide) hsame.symm]
        rw [hupdate] at hleft ⊢
        rw [hinit] at hright ⊢
        refine ⟨?_, ?_, ?_, fun hlevel => ?_⟩
        · rw [Report.ending_exit, Report.ending_exit]
        · rw [Report.ending_disk, Report.ending_disk]
        · rw [Report.ending_out, Report.ending_out]
          rfl
        · have hshows : r.settings.shows .debug = false := by
            rcases hsettings with hnone | ⟨s, hs, hsome⟩
            · rw [hnone]
              rfl
            · rw [hsome]
              exact (hlevel a rfl).2 s hs
          rw [Report.ending_err env hleft.calm, Report.ending_err env hright.calm]
          rw [lines_minor hleft.minor hshows, lines_minor hright.minor hshows]
          rfl

/-- Where the kit is, and the project to put it into. -/
def kitToProject : List Bytes := ["--source", "/kit", "--path", "/project"]

/-- What is read from them. -/
def kitToProjectRead : Arguments := ⟨[("path", .text "/project"), ("source", .text "/kit")], []⟩

/-- A project without a kit, which gets one by either line. -/
theorem run_update_kitAndProject :
    Flag.parse Command.update.flags kitToProject = .ok kitToProjectRead ∧
    (run kitAndProject ("update" :: kitToProject)).disk ≠ kitAndProject.disk ∧
    (run kitAndProject ("update" :: kitToProject)).disk =
      (run kitAndProject ("init" :: "--force" :: kitToProject)).disk ∧
    (run kitAndProject ("update" :: kitToProject)).output =
      (run kitAndProject ("init" :: "--force" :: kitToProject)).output := by
  have hparse : Flag.parse Command.update.flags kitToProject = .ok kitToProjectRead := by rfl
  have hdisk : (run kitAndProject ("update" :: kitToProject)).disk ≠ kitAndProject.disk := by decide +kernel
  have hlevel : (setup .update kitAndProject.disk kitToProjectRead).toOption.map (·.settings.shows .debug) =
      some false := by decide +kernel
  obtain ⟨-, hsame, hout, herr⟩ := run_update kitAndProject kitToProject fun a ha => by
    cases hparse.symm.trans ha
    decide
  have herr := herr fun a ha => by
    cases hparse.symm.trans ha
    refine ⟨rfl, fun s hs => ?_⟩
    rw [hs] at hlevel
    exact Option.some.inj hlevel
  refine ⟨hparse, hdisk, hsame, ?_⟩
  cases hu : (run kitAndProject ("update" :: kitToProject)).output
  cases hi : (run kitAndProject ("init" :: "--force" :: kitToProject)).output
  rw [hu, hi] at hout herr
  cases hout
  cases herr
  rfl

/-! ## 4. Quiet

Bad news would be shown even in quiet.  As an install has none, nothing is. -/

/-- An install that is asked to be quiet prints nothing. -/
theorem start_quiet (hc : c ∈ installers) (env : Environment) (hquiet : a.switch "quiet" = true) :
    ((c.start env a).ending env).output.out = [] := by
  have hinstalls := start_installs hc env a
  rw [Report.ending_out, hinstalls.printed, List.append_nil]
  cases hs : setup c env.disk a with
  | error f =>
    rw [start_error hs]
    rfl
  | ok s =>
    have hreport : (c.start env a).quiet = true := by
      rw [start_ok hs, work_install hc]
      unfold runInstall
      dsimp only
      split <;> exact hquiet
    refine List.flatMap_eq_nil_iff.mpr fun m hm => ?_
    simp [Display.write, Report.display, hreport, hinstalls.calm m hm]

/-- **A quiet run is the run that would have been shown.**  Two lines that name the same command and say the
same but for the switch that asks for quiet end alike, on disk and in the second stream too, and the quiet
one prints nothing. -/
theorem run_quiet (env : Environment) {args args' rest rest' : List Bytes} {c : Command} {a b : Arguments}
    (hc : c = .init ∨ c = .update) (hfind : find args = .ok (c, rest)) (hfind' : find args' = .ok (c, rest'))
    (hparse : Flag.parse c.flags rest = .ok a) (hparse' : Flag.parse c.flags rest' = .ok b)
    (hsame : a.SameBut "quiet" b) (hquiet : a.switch "quiet" = true) (hhelp : a.switch "help" = false) :
    (run env args).exit = (run env args').exit ∧ (run env args).disk = (run env args').disk ∧
      (run env args).output.err = (run env args').output.err ∧ (run env args).output.out = [] := by
  have hinstalls : c ∈ installers := by rcases hc with rfl | rfl <;> decide
  have hworker : c ∈ workers := by rcases hc with rfl | rfl <;> decide
  have hhelp' : b.switch "help" = false := by
    rw [← switch_congr (hsame.get "help" (by decide)), hhelp]
  have hrests := hsame.rest
  cases hrest : a.rest with
  | cons arg more =>
    rw [hrest] at hrests
    rw [run, run, report_unexpected hfind hparse hhelp hworker hrest,
      report_unexpected hfind' hparse' hhelp' hworker hrests.symm]
    exact ⟨rfl, rfl, rfl, rfl⟩
  | nil =>
    rw [hrest] at hrests
    have htwins : Twins c a c b := by
      refine ⟨hinstalls, hinstalls, fun n hn => hsame.get n ?_, ?_⟩
      · rintro rfl
        exact absurd hn (by decide)
      · rw [switch_congr (hsame.get "force" (by decide))]
    have hleft := start_installs hinstalls env a
    have hright := start_installs hinstalls env b
    have hout := start_quiet hinstalls env hquiet
    obtain ⟨r, q, q', log, hstart, hstart', -, -⟩ := htwins.start env
    rw [run, run, report_start hfind hparse hhelp hworker hrest,
      report_start hfind' hparse' hhelp' hworker hrests.symm]
    refine ⟨?_, ?_, ?_, hout⟩
    · rw [hstart, hstart', Report.ending_exit, Report.ending_exit]
    · rw [hstart, hstart', Report.ending_disk, Report.ending_disk]
    · rw [Report.ending_err env hleft.calm, Report.ending_err env hright.calm, hstart, hstart']
      rfl

/-- The same paths, and a wish for quiet. -/
def quietPaths : List Bytes := kitToProject ++ [("--quiet" : Bytes)]

/-- The quiet line installs as well, and the other one says so. -/
theorem run_quiet_kitAndProject :
    (run kitAndProject ("init" :: quietPaths)).disk ≠ kitAndProject.disk ∧
    (run kitAndProject ("init" :: quietPaths)).disk = (run kitAndProject ("init" :: kitToProject)).disk ∧
    (run kitAndProject ("init" :: quietPaths)).output.err = (run kitAndProject ("init" :: kitToProject)).output.err ∧
    (run kitAndProject ("init" :: kitToProject)).output.out ≠ [] ∧
    (run kitAndProject ("init" :: quietPaths)).output.out = [] := by
  have hfind : find ("init" :: quietPaths) = .ok (.init, quietPaths) := by rfl
  have hfind' : find ("init" :: kitToProject) = .ok (.init, kitToProject) := by rfl
  have hparse : Flag.parse Command.init.flags quietPaths =
      .ok (kitToProjectRead.put "quiet" (.switch true)) := by rfl
  have hparse' : Flag.parse Command.init.flags kitToProject = .ok kitToProjectRead := by rfl
  have hsame : SameBut "quiet" (kitToProjectRead.put "quiet" (.switch true)) kitToProjectRead := by
    refine ⟨rfl, fun n hn => ?_⟩
    rw [Flag.get?_put, if_neg hn]
  obtain ⟨-, hdisk, herr, hout⟩ :=
    run_quiet kitAndProject (Or.inl rfl) hfind hfind' hparse hparse' hsame (by decide) (by decide)
  exact ⟨by decide +kernel, hdisk, herr, by decide +kernel, hout⟩

end Command

end AgentKit
