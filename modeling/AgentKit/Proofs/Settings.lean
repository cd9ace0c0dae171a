import AgentKit.Command
import AgentKit.Proofs.Calls
import AgentKit.Proofs.CommandLine
import Mathlib.Tactic
/-!
# Each setting on its own

Five settings are resolved at once, but what one of them becomes hangs on two things only: on what its own flag
was given, and, where the flag is not there, on what the file has under its own name.  So the settings can be
taken one by one (`load_iff`): each is read from one value, that of the flag, that of the file, or else it is
the default.

The rest is where these values come from.  For the flag it is what `CommandLine` says of all texts that the
flag is given.  For the file it is an entry under the name, in whatever case the name is written
(`lookup_lowerEntries`).

1. Settings and their values (`resolve_iff`, `load_iff`).
2. What a flag says (`Says`, `value_of_flag`).
3. What a file says (`Mentions`).
4. **The flag goes before the file and the file before the default, for each setting on its own**
   (`load_precedence`).

One of the settings is a list and four are texts, and their values have different types.  `Setting.Value` is the type that goes
with a setting, so that all five are spoken of in one statement.

Settings can be refused as a whole, because of one of them.  So it is not clear from the start that settings that load
with a file also load without it.  They do (`load_flags`): what remains is either from a flag, and was accepted before, or a
default, and those are accepted.
-/

namespace AgentKit

/-- A setting. -/
inductive Setting where
  | exclude
  | color
  | logLevel
  | logFormat
  | source
  deriving DecidableEq, Repr

namespace Setting

/-! ## 1. Settings and their values

The program resolves the five settings in one go and collects the complaints about them.  It succeeds if there
are none. -/

/-- Its name, the same for the flag and in the file. -/
def name : Setting → Bytes
  | exclude => "exclude"
  | color => "color"
  | logLevel => "log-level"
  | logFormat => "log-format"
  | source => "source"

/-- What it can be set to. -/
abbrev Value : Setting → Type
  | exclude => List Bytes
  | color | logLevel | logFormat | source => Bytes

/-- What it is in the settings of a run. -/
def get (c : Config) : (s : Setting) → s.Value
  | exclude => c.exclude
  | color => c.color
  | logLevel => c.logLevel
  | logFormat => c.logFormat
  | source => c.source

/-- The complaint about a text as one of a list. -/
def single (e : Except Bytes Bytes) : Except (List Bytes) Bytes := e.mapError ([·])

/-- What a value sets it to. -/
def read : (s : Setting) → Yaml.Value → Except (List Bytes) s.Value
  | exclude, v => Config.textsOf "exclude" v
  | color, v => single (Config.textOf "color" v)
  | logLevel, v => single (Config.textOf "log-level" v)
  | logFormat, v => single (Config.textOf "log-format" v)
  | source, v => single (Config.textOf "source" v)

/-- What it is set to by flags and entries of a file. -/
def value (args : Arguments) (entries : List (Bytes × Yaml.Value)) (s : Setting) :
    Except (List Bytes) s.Value :=
  match Config.valueOf args entries s.name with
  | some v => s.read v
  | none => .ok (s.get {})

variable {args : Arguments} {entries : List (Bytes × Yaml.Value)} {c : Config} {s : Setting}

theorem single_ok {e : Except Bytes Bytes} {t : Bytes} : single e = .ok t ↔ e = .ok t := by
  cases e <;> simp [single, Except.mapError]

/-- `value` is what the program computes, here for the list and below for the texts. -/
theorem value_exclude : value args entries exclude = Config.listSetting args entries "exclude" := by
  rw [value, Config.listSetting, name]
  cases Config.valueOf args entries "exclude" <;> rfl

/-- A text is read from its value, or it is the default. -/
theorem single_textSetting (name initial : Bytes) :
    single (Config.textSetting args entries name initial) =
      match Config.valueOf args entries name with
      | some v => single (Config.textOf name v)
      | none => .ok initial := by
  rw [Config.textSetting]
  cases Config.valueOf args entries name <;> rfl

theorem value_color : value args entries color = single (Config.textSetting args entries "color" "auto") := by
  rw [single_textSetting]
  rfl

theorem value_logLevel :
    value args entries logLevel = single (Config.textSetting args entries "log-level" "warn") := by
  rw [single_textSetting]
  rfl

theorem value_logFormat :
    value args entries logFormat = single (Config.textSetting args entries "log-format" "text") := by
  rw [single_textSetting]
  rfl

theorem value_source : value args entries source = single (Config.textSetting args entries "source" []) := by
  rw [single_textSetting]
  rfl

/-- **Settings are resolved each on its own.** -/
theorem resolve_iff : Config.resolve args entries = .ok c ↔ ∀ s, value args entries s = .ok (get c s) := by
  constructor
  · intro h s
    unfold Config.resolve at h
    dsimp only at h
    split at h
    · -- All five were read, so none of them had a complaint.
      rename_i hexclude hcolor hlevel hformat hsource
      cases h
      cases s with
      | exclude => rw [value_exclude, hexclude, get]
      | color => rw [value_color, hcolor]; rfl
      | logLevel => rw [value_logLevel, hlevel]; rfl
      | logFormat => rw [value_logFormat, hformat]; rfl
      | source => rw [value_source, hsource]; rfl
    · cases h
  · intro h
    have hexclude := h exclude
    have hcolor := h color
    have hlevel := h logLevel
    have hformat := h logFormat
    have hsource := h source
    rw [value_exclude] at hexclude
    rw [value_color, single_ok] at hcolor
    rw [value_logLevel, single_ok] at hlevel
    rw [value_logFormat, single_ok] at hformat
    rw [value_source, single_ok] at hsource
    unfold Config.resolve
    dsimp only
    rw [hexclude, hcolor, hlevel, hformat, hsource]
    rfl

/-- What a file that may be missing has in it. -/
def entriesOf : Option Config.File → Except ConfigFault (List (Bytes × Yaml.Value))
  | some f => f.entries
  | none => .ok []

/-- **Settings are loaded** if the file can be read, each setting can, and together they are accepted. -/
theorem load_iff {file : Option Config.File} :
    Config.load args file = .ok c ↔ ∃ entries, entriesOf file = .ok entries ∧
      (∀ s, value args entries s = .ok (get c s)) ∧ c.validate = .ok () := by
  have hload : Config.load args file = (entriesOf file >>= fun es => Config.resolve args es >>= fun c =>
      c.validate >>= fun _ => pure c) := by
    cases file <;> rfl
  rw [hload, Disk.except_bind_ok]
  constructor
  · rintro ⟨es, hes, h⟩
    obtain ⟨c', hc', h⟩ := Disk.except_bind_ok.mp h
    obtain ⟨_, hvalid, h⟩ := Disk.except_bind_ok.mp h
    cases h
    exact ⟨es, hes, resolve_iff.mp hc', hvalid⟩
  · rintro ⟨es, hes, hvalues, hvalid⟩
    exact ⟨es, hes, Disk.except_bind_ok.mpr ⟨c, resolve_iff.mpr hvalues, Disk.except_bind_ok.mpr ⟨_, hvalid, rfl⟩⟩⟩

/-! ## 2. What a flag says

The value that a flag has in the end is the last text it was given, or for a list all of them. -/

/-- What its flag takes. -/
def kind : Setting → FlagKind
  | exclude => .list
  | color | logLevel | logFormat | source => .text

/-- Every command has the flag of every setting, and no other flag of that name. -/
theorem kind_of_flags (cmd : Command) (s : Setting) : ∀ f ∈ cmd.flags, f.name = s.name → f.kind = s.kind := by
  cases cmd with
  | script shell => cases shell <;> cases s <;> decide
  | request described => cases described <;> cases s <;> decide
  | _ => cases s <;> decide

/-- What the texts that flags are given say of the setting: the last text, and of lists all records, one
behind the other, unless there is nothing in them but one empty text. -/
def Says (gs : List (Flag × Bytes)) : (s : Setting) → s.Value → Prop
  | exclude, ts => ∃ rs, List.Forall₂ (fun v r => Csv.read v = .ok r) (Flag.texts gs "exclude") rs ∧
      ts = if rs.flatten = [[]] then [] else rs.flatten.map Csv.plainLineEnds
  | color, t => (Flag.texts gs "color").getLast? = some t
  | logLevel, t => (Flag.texts gs "log-level").getLast? = some t
  | logFormat, t => (Flag.texts gs "log-format").getLast? = some t
  | source, t => (Flag.texts gs "source").getLast? = some t

variable {cmd : Command} {argv ws : List Bytes} {gs : List (Flag × Bytes)}

/-- The value of a flag that takes a text. -/
theorem get?_text (hparse : Flag.parse cmd.flags argv = .ok args) (hr : Flag.Reads cmd.flags argv gs ws)
    (hkind : s.kind = .text) : args.get? s.name = (Flag.texts gs s.name).getLast?.map .text := by
  obtain ⟨b, hb, hget⟩ := Flag.assignAll_of_reads hparse hr
  rw [hget, Flag.text_assignAll hb]
  · exact Option.or_none
  · intro g hg hname
    rw [kind_of_flags cmd s g.1 (hr.mem g hg) hname, hkind]

/-- The value of a flag that takes lists. -/
theorem get?_list (hparse : Flag.parse cmd.flags argv = .ok args) (hr : Flag.Reads cmd.flags argv gs ws)
    (hkind : s.kind = .list) (hne : Flag.texts gs s.name ≠ []) :
    ∃ rs, List.Forall₂ (fun v r => Csv.read v = .ok r) (Flag.texts gs s.name) rs ∧
      args.get? s.name = some (.list rs.flatten) := by
  obtain ⟨b, hb, hget⟩ := Flag.assignAll_of_reads hparse hr
  rw [hget]
  refine Flag.list_assignAll hb ?_ rfl hne
  intro g hg hname
  rw [kind_of_flags cmd s g.1 (hr.mem g hg) hname, hkind]

theorem textsFrom_texts (name : Bytes) (k : Nat) (ts : List Bytes) :
    Config.textsFrom name k (ts.map .text) = .ok ts := by
  induction ts generalizing k with
  | nil => rfl
  | cons t ts ih => simp [Config.textsFrom, Config.textOf, ih (k + 1)]

theorem read_list (ts : List Bytes) :
    read exclude (Config.flagValue (.list ts)) =
      .ok (if ts = [[]] then [] else ts.map Csv.plainLineEnds) := by
  have hmap : ts.map (fun t => Yaml.Value.text (Csv.plainLineEnds t)) =
      (ts.map Csv.plainLineEnds).map .text := by
    rw [List.map_map]
    rfl
  rw [read, Config.flagValue, hmap]
  by_cases h : ts = [[]]
  · rw [if_pos h, if_pos h]
    rfl
  · rw [if_neg h, if_neg h, Config.textsOf, textsFrom_texts]

/-- With its flag a setting is what the flag's value says. -/
theorem value_of_flag {x : FlagValue} (h : args.get? s.name = some x) (entries : List (Bytes × Yaml.Value)) :
    value args entries s = s.read (Config.flagValue x) := by
  rw [value, Config.valueOf, h]

/-- Without its flag a setting is what the file says. -/
theorem value_of_file (h : args.get? s.name = none) : value args entries s = value {} entries s := by
  rw [value, value, Config.valueOf, Config.valueOf, h]
  rfl

/-- **A flag that is given says what its texts say.** -/
theorem says_of_value {x : s.Value} (hparse : Flag.parse cmd.flags argv = .ok args)
    (hr : Flag.Reads cmd.flags argv gs ws) (hne : Flag.texts gs s.name ≠ [])
    (hx : value args entries s = .ok x) : s.Says gs x := by
  have htext : ∀ (hkind : s.kind = .text), ∃ t, (Flag.texts gs s.name).getLast? = some t ∧
      value args entries s = s.read (.text t) := by
    intro hkind
    have hget := get?_text hparse hr hkind
    obtain ⟨t, ht⟩ := Option.isSome_iff_exists.mp (List.getLast?_isSome.mpr hne)
    rw [ht] at hget
    exact ⟨t, ht, value_of_flag hget entries⟩
  -- The list is read from all texts, and each of the others from the last.
  cases s with
  | exclude =>
    obtain ⟨rs, hrs, hget⟩ := get?_list hparse hr rfl hne
    rw [value_of_flag hget, read_list] at hx
    cases hx
    exact ⟨rs, hrs, rfl⟩
  | color | logLevel | logFormat | source =>
    obtain ⟨t, ht, hvalue⟩ := htext rfl
    rw [hvalue] at hx
    cases hx
    exact ht

/-! ## 3. What a file says

The keys of a file are compared without regard to case, so several of them may be one name.  Which of them counts
then is left open; it is one of them. -/

/-- The file has an entry under the name, in whatever case it is written. -/
def Mentions (file : Option Config.File) (name : Bytes) (v : Yaml.Value) : Prop :=
  ∃ f t entries, file = some f ∧ f.content = .ok t ∧ Yaml.readMap t = .ok entries ∧
    ∃ key, (key, v) ∈ entries ∧ Bytes.lower key = name

theorem lookup_isSome_of_mem {α β : Type} [BEq α] [LawfulBEq α] {a : α} {b : β} {l : List (α × β)}
    (h : (a, b) ∈ l) : (l.lookup a).isSome = true := by
  rw [List.lookup_isSome_iff]
  exact ⟨_, h, by simp⟩

/-- What is found under a name stands in the file under some key that is this name. -/
theorem lookup_lowerNames {name : Bytes} {v : Yaml.Value} (h : (Config.lowerNames entries).lookup name = some v) :
    ∃ key, (key, v) ∈ entries ∧ Bytes.lower key = name := by
  have hmem := mem_of_lookup h
  rw [Config.lowerNames, List.mem_append] at hmem
  rcases hmem with hmem | hmem
  · obtain ⟨e, he, heq⟩ := List.mem_map.mp hmem
    cases heq
    exact ⟨e.1, List.mem_of_mem_filter he, rfl⟩
  · have hprop := List.mem_filter.mp hmem
    simp only [decide_eq_true_eq] at hprop
    exact ⟨name, hprop.1, hprop.2.1⟩

/-- What stands in the file under a key is found, or something else is under the same name. -/
theorem lookup_lowerNames_isSome {key : Bytes} {v : Yaml.Value} (h : (key, v) ∈ entries) :
    ((Config.lowerNames entries).lookup (Bytes.lower key)).isSome = true := by
  unfold Config.lowerNames
  extract_lets capitals
  rw [List.lookup_append, Option.isSome_or, Bool.or_eq_true]
  by_cases hlower : Bytes.lower key = key
  · rw [hlower]
    cases hcap : capitals.lookup key with
    | some w => exact Or.inl rfl
    | none =>
      -- no key in capitals stands for this one, so it is kept
      refine Or.inr (lookup_isSome_of_mem (List.mem_filter.mpr ⟨h, ?_⟩))
      simp [hlower, hcap]
  · refine Or.inl (lookup_isSome_of_mem (List.mem_map.mpr ⟨(key, v), List.mem_filter.mpr ⟨h, ?_⟩, rfl⟩))
    simpa using hlower

theorem lowerValues_eq (entries : List (Bytes × Yaml.Value)) :
    Config.lowerValues entries = entries.map fun e => (e.1, Config.lowerKeys e.2) := by
  induction entries with
  | nil => rw [Config.lowerValues, List.map_nil]
  | cons e entries ih => rw [Config.lowerValues, ih, List.map_cons]

/-- An entry of a file is one that the file mentions. -/
theorem lookup_lowerEntries {name : Bytes} {v : Yaml.Value}
    (h : (Config.lowerEntries entries).lookup name = some v) :
    ∃ key u, (key, u) ∈ entries ∧ Bytes.lower key = name ∧ v = Config.lowerKeys u := by
  obtain ⟨key, hmem, hkey⟩ := lookup_lowerNames h
  rw [lowerValues_eq, List.mem_map] at hmem
  obtain ⟨e, he, heq⟩ := hmem
  cases heq
  exact ⟨e.1, e.2, he, hkey, rfl⟩

theorem lookup_lowerEntries_isSome {key : Bytes} {u : Yaml.Value} (h : (key, u) ∈ entries) :
    ((Config.lowerEntries entries).lookup (Bytes.lower key)).isSome = true := by
  refine @lookup_lowerNames_isSome _ key (Config.lowerKeys u) ?_
  rw [lowerValues_eq]
  exact List.mem_map.mpr ⟨(key, u), h, rfl⟩

theorem lowerKeys_eq_null {v : Yaml.Value} : Config.lowerKeys v = .null ↔ v = .null := by
  cases v <;> simp [Config.lowerKeys]

variable {file : Option Config.File} {name : Bytes} {v : Yaml.Value}

/-- The entries of a file are those of its text, with their names in lower case. -/
theorem entriesOf_ok {f : Config.File} (h : entriesOf (some f) = .ok entries) :
    ∃ t es, f.content = .ok t ∧ Yaml.readMap t = .ok es ∧ entries = Config.lowerEntries es := by
  rw [entriesOf, Config.File.entries] at h
  cases ht : f.content with
  | error e =>
    rw [ht] at h
    cases h
  | ok t =>
    rw [ht] at h
    dsimp only at h
    cases hes : Yaml.readMap t with
    | error e =>
      rw [hes] at h
      cases h
    | ok es =>
      rw [hes] at h
      cases h
      exact ⟨t, es, rfl, hes, rfl⟩

theorem mentions_of_lookup (h : entriesOf file = .ok entries) (hv : entries.lookup name = some v) :
    ∃ u, Mentions file name u ∧ v = Config.lowerKeys u := by
  cases file with
  | none =>
    cases h
    cases hv
  | some f =>
    obtain ⟨t, es, ht, hes, rfl⟩ := entriesOf_ok h
    obtain ⟨key, u, hmem, hkey, rfl⟩ := lookup_lowerEntries hv
    exact ⟨u, ⟨f, t, es, rfl, ht, hes, key, hmem, hkey⟩, rfl⟩

/-- If a name is mentioned then something is found under it. -/
theorem lookup_of_mentions (h : entriesOf file = .ok entries) (hv : Mentions file name v) :
    (entries.lookup name).isSome = true := by
  obtain ⟨f, t, es, rfl, ht, hes, key, hmem, rfl⟩ := hv
  obtain ⟨t', es', ht', hes', rfl⟩ := entriesOf_ok h
  cases ht.symm.trans ht'
  cases hes.symm.trans hes'
  exact lookup_lowerEntries_isSome hmem

/-- A name that has no value in the file is not set by it. -/
theorem fileValue?_eq_none (h : entriesOf file = .ok entries) (hnull : ∀ u, Mentions file name u → u = .null) :
    Config.fileValue? entries name = none := by
  rw [Config.fileValue?]
  cases hv : entries.lookup name with
  | none => rfl
  | some v =>
    obtain ⟨u, hu, rfl⟩ := mentions_of_lookup h hv
    rw [hnull u hu, lowerKeys_eq_null.mpr rfl]

/-- A name that stands in the file once is set by what stands there. -/
theorem fileValue?_eq_some (h : entriesOf file = .ok entries) (hv : Mentions file name v)
    (honly : ∀ u, Mentions file name u → u = v) (hnull : v ≠ .null) :
    Config.fileValue? entries name = some (Config.lowerKeys v) := by
  obtain ⟨w, hw⟩ := Option.isSome_iff_exists.mp (lookup_of_mentions h hv)
  obtain ⟨u, hu, rfl⟩ := mentions_of_lookup h hw
  rw [honly u hu] at hw
  rw [Config.fileValue?, hw]
  split
  · rename_i heq
    exact absurd (lowerKeys_eq_null.mp (Option.some.inj heq)) hnull
  · rename_i heq
    cases heq
  · rename_i heq
    exact heq.symm

/-! ## 4. Precedence

Loading with the file is compared to loading without it, and to loading with other files. -/

theorem validate_ok : c.validate = .ok () ↔ c.color ∈ (["auto", "always", "never"] : List Bytes) ∧
    c.logFormat ∈ (["text", "json"] : List Bytes) ∧ Exclusion.firstMalformed? c.exclude = none := by
  unfold Config.validate
  by_cases hcolor : c.color ∈ (["auto", "always", "never"] : List Bytes)
  · by_cases hformat : c.logFormat ∈ (["text", "json"] : List Bytes)
    · rw [if_neg (not_not_intro hcolor), if_neg (not_not_intro hformat)]
      cases Exclusion.firstMalformed? c.exclude <;> simp [hcolor, hformat]
    · rw [if_neg (not_not_intro hcolor), if_pos hformat]
      simp [hformat]
  · rw [if_pos hcolor]
    simp [hcolor]

/-- Settings with those that flags gave, and the default of all others. -/
def flagged (args : Arguments) (c : Config) : Config where
  exclude := if args.has "exclude" then c.exclude else []
  color := if args.has "color" then c.color else "auto"
  logLevel := if args.has "log-level" then c.logLevel else "warn"
  logFormat := if args.has "log-format" then c.logFormat else "text"
  source := if args.has "source" then c.source else []

theorem get_flagged (args : Arguments) (c : Config) (s : Setting) :
    get (flagged args c) s = if args.has s.name then get c s else get {} s := by
  cases s <;> rfl

/-- Defaults are accepted, and so is what was accepted before. -/
theorem validate_flagged (h : c.validate = .ok ()) : (flagged args c).validate = .ok () := by
  rw [validate_ok] at h ⊢
  obtain ⟨hcolor, hformat, hexclude⟩ := h
  refine ⟨?_, ?_, ?_⟩
  · by_cases h : args.has "color" = true
    · rwa [flagged, if_pos h]
    · rw [flagged, if_neg h]
      exact List.mem_cons_self
  · by_cases h : args.has "log-format" = true
    · rwa [flagged, if_pos h]
    · rw [flagged, if_neg h]
      exact List.mem_cons_self
  · by_cases h : args.has "exclude" = true
    · rwa [flagged, if_pos h]
    · rw [flagged, if_neg h]
      rfl

/-- Without a file the settings are those of the flags. -/
theorem load_flags (h : Config.load args file = .ok c) : Config.load args none = .ok (flagged args c) := by
  obtain ⟨entries, _, hvalues, hvalid⟩ := load_iff.mp h
  refine load_iff.mpr ⟨[], rfl, ?_, validate_flagged hvalid⟩
  intro s
  rw [get_flagged, Arguments.has]
  cases hget : args.get? s.name with
  | none =>
    rw [value_of_file hget]
    rfl
  | some x =>
    rw [value_of_flag hget, ← value_of_flag hget entries]
    exact hvalues s

/-- A setting of two files is the same if its flag is given. -/
theorem get_of_flag {file' : Option Config.File} {c' : Config} (hhas : args.has s.name = true)
    (h : Config.load args file = .ok c) (h' : Config.load args file' = .ok c') : get c s = get c' s := by
  obtain ⟨entries, _, hvalues, _⟩ := load_iff.mp h
  obtain ⟨entries', _, hvalues', _⟩ := load_iff.mp h'
  obtain ⟨x, hx⟩ := Option.isSome_iff_exists.mp hhas
  have hc := hvalues s
  have hc' := hvalues' s
  rw [value_of_flag hx] at hc hc'
  exact Except.ok.inj (hc.symm.trans hc')

/-- A setting is what the file says if its flag is not given. -/
theorem get_of_file {c' : Config} (hhas : args.get? s.name = none) (h : Config.load args file = .ok c)
    (h' : Config.load {} file = .ok c') : get c s = get c' s := by
  obtain ⟨entries, hentries, hvalues, _⟩ := load_iff.mp h
  obtain ⟨entries', hentries', hvalues', _⟩ := load_iff.mp h'
  cases hentries.symm.trans hentries'
  have hc := hvalues s
  rw [value_of_file hhas, hvalues' s] at hc
  exact (Except.ok.inj hc).symm

/-- **Precedence, setting by setting.**  With its flag on the command line a setting is what the texts of that
flag say, whatever the file has, and so what it is without a file.  Without its flag it is what the file makes
of it alone: what stands under its name there, and the default if nothing does or only a name without a
value. -/
theorem load_precedence (cmd : Command) (s : Setting) (hparse : Flag.parse cmd.flags argv = .ok args)
    (hload : Config.load args file = .ok c) :
    (Flag.Occurs cmd.flags argv s.name →
      (∃ c₀, Config.load args none = .ok c₀ ∧ get c s = get c₀ s) ∧
      (∀ file' c', Config.load args file' = .ok c' → get c s = get c' s) ∧
      ∀ gs ws, Flag.Reads cmd.flags argv gs ws → s.Says gs (get c s)) ∧
    (¬ Flag.Occurs cmd.flags argv s.name →
      (∀ c₁, Config.load {} file = .ok c₁ → get c s = get c₁ s) ∧
      (∀ v, Mentions file s.name v → (∀ u, Mentions file s.name u → u = v) → v ≠ .null →
        s.read (Config.lowerKeys v) = .ok (get c s)) ∧
      ((∀ u, Mentions file s.name u → u = .null) → get c s = get {} s)) := by
  obtain ⟨entries, hentries, hvalues, _⟩ := load_iff.mp hload
  rw [← Flag.has_iff_occurs hparse]
  constructor
  · intro hhas
    refine ⟨⟨_, load_flags hload, get_of_flag hhas hload (load_flags hload)⟩, ?_, ?_⟩
    · intro file' c' h'
      exact get_of_flag hhas hload h'
    · intro gs ws hr
      have hne : Flag.texts gs s.name ≠ [] := by
        rw [Flag.texts_ne_nil_iff]
        exact (Flag.has_iff_of_reads hparse hr).mp hhas
      exact says_of_value hparse hr hne (hvalues s)
  · intro hhas
    have hnone : args.get? s.name = none := by simpa [Arguments.has] using hhas
    have hvalue := hvalues s
    rw [value, Config.valueOf, hnone] at hvalue
    refine ⟨fun c₁ h₁ => get_of_file hnone hload h₁, ?_, ?_⟩
    · intro v hv honly hnull
      rw [fileValue?_eq_some hentries hv honly hnull] at hvalue
      exact hvalue
    · intro hnull
      rw [fileValue?_eq_none hentries hnull] at hvalue
      exact (Except.ok.inj hvalue).symm

/-! A file that sets four of them, one only in name, and a command line that sets two. -/

def mixedLine : List Bytes := ["--source=", "--exclude", "a,b", "--exclude=c"]

def mixedFile : Config.File where
  name := "kit.yaml"
  content := .ok "SOURCE: attic\nexclude: [d]\ncolor: always\nlog-level:\n"

def mixedArguments : Arguments where
  given := [("exclude", .list ["a", "b", "c"]), ("source", .text [])]

def mixed : Config where
  exclude := ["a", "b", "c"]
  color := "always"

/-- The list comes from two flags and not from the file, and the color from the file. -/
theorem load_precedence_mixed :
    Flag.parse Command.config.flags mixedLine = .ok mixedArguments ∧
      Config.load mixedArguments (some mixedFile) = .ok mixed ∧
      (∀ file' c', Config.load mixedArguments file' = .ok c' → c'.exclude = ["a", "b", "c"]) ∧
      (∀ c₁, Config.load {} (some mixedFile) = .ok c₁ → c₁.color = "always") := by
  have hparse : Flag.parse Command.config.flags mixedLine = .ok mixedArguments := by decide +kernel
  have hload : Config.load mixedArguments (some mixedFile) = .ok mixed := by
    have h : (Config.load mixedArguments (some mixedFile)).toOption = some mixed := by decide +kernel
    cases hl : Config.load mixedArguments (some mixedFile) with
    | error e =>
      rw [hl] at h
      cases h
    | ok c =>
      rw [hl] at h
      rw [Option.some.inj h]
  refine ⟨hparse, hload, ?_, ?_⟩
  · intro file' c' h'
    have hoccurs : Flag.Occurs Command.config.flags mixedLine "exclude" :=
      (Flag.has_iff_occurs hparse).mp (by decide)
    exact (((load_precedence .config exclude hparse hload).1 hoccurs).2.1 file' c' h').symm
  · intro c₁ h₁
    have hoccurs : ¬ Flag.Occurs Command.config.flags mixedLine "color" :=
      (Flag.has_iff_occurs hparse).not.mp (by decide)
    exact (((load_precedence .config color hparse hload).2 hoccurs).1 c₁ h₁).symm

end Setting

end AgentKit
