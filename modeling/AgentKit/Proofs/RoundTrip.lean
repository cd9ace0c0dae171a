import AgentKit.Proofs.Settings
import AgentKit.Proofs.Yaml.Tree
import Mathlib.Tactic
/-!
# Printed settings are settings

The settings of a run are printed as a document, and a document is what settings are read from.  So the printed
settings can be put in a file and used again, and this module is about what they are then.

What is printed is a sheet: one field for each setting, the texts written as they have to be.  A sheet is read back
as a whole, so all that is left is to put the printed one together from its fields (`Sheet`) and to look up each
setting in what was read.

The settings are the same unless a text of several lines starts in a way that a block cannot show.  Such a text is
written as a block that is read as something else: behind the name of a setting a line end at the start is lost.

1. Sheets (`sheet_text`, `sheet_list`, `readMap_sheet_entries`).
2. Entries in lower case (`lowerEntries_of_lower`).
3. **Settings that are printed and read are the same, up to line ends at the start** (`load_yaml`).
-/

namespace AgentKit.Setting

open Yaml Yaml.Print Yaml.TokenStream

/-! ## 1. Sheets

A sheet is given here by its bytes and its entries.  Between the two stand the fields and the characters, which
`Sheet` hides, so that the printed settings can be put together one setting after the other. -/

/-- The bytes are those of a sheet with these entries. -/
def Sheet (bytes : Bytes) (entries : List (Bytes × Yaml.Value)) : Prop :=
  ∃ fields outs, bytes = Utf8.encodeAll (List.flatten outs) ∧ List.Forall₂ Field.Written fields outs ∧
    Allowed (List.flatten outs) ∧ List.Forall₂ Decoding.Stands fields entries

variable {a b : Bytes} {es fs : List (Bytes × Yaml.Value)}

theorem sheet_nil : Sheet [] [] := ⟨[], [], rfl, .nil, allowed_nil, .nil⟩

/-- Sheets are put one behind the other. -/
theorem Sheet.append (ha : Sheet a es) (hb : Sheet b fs) : Sheet (a ++ b) (es ++ fs) := by
  obtain ⟨fields, outs, rfl, hwritten, hallowed, hstands⟩ := ha
  obtain ⟨fields', outs', rfl, hwritten', hallowed', hstands'⟩ := hb
  refine ⟨fields ++ fields', outs ++ outs', ?_, List.rel_append hwritten hwritten', ?_,
    List.rel_append hstands hstands'⟩
  · rw [List.flatten_append, Utf8.encodeAll_append]
  · rw [List.flatten_append]
    exact allowed_append.mpr ⟨hallowed, hallowed'⟩

/-- **A sheet is read as its entries.** -/
theorem readMap_sheet_entries (h : Sheet a es) (hne : es ≠ []) (hnodup : (es.map (·.1)).Nodup) :
    readMap a = .ok es := by
  obtain ⟨fields, outs, rfl, hwritten, hallowed, hstands⟩ := h
  cases hstands with
  | nil => exact absurd rfl hne
  | cons hf hstands =>
    cases hwritten with
    | cons hout hwritten => exact readMap_sheet (.cons hout hwritten) hallowed (.cons hf hstands) hnodup

/-- The name in the file, in characters. -/
def word (s : Setting) : List Char := Utf8.chars s.name

theorem encodeAll_word (s : Setting) : Utf8.encodeAll s.word = s.name := by
  cases s <;> decide +kernel

theorem name_word (s : Setting) : Name s.word := by
  have hchars : s.word.all (fun x => isInk x && x ≠ ':') = true := by
    cases s <;> decide +kernel
  have hhead : s.word.head?.any (fun x => !isStartIndicator x true && x ≠ '.' && x.toNat < 0x80) = true := by
    cases s <;> decide +kernel
  have hshort : s.word.length ≤ 1024 := by
    cases s <;> decide +kernel
  refine ⟨fun x hx => by simpa using List.all_eq_true.mp hchars x hx, ?_, hshort⟩
  cases hw : s.word with
  | nil => simp [hw] at hhead
  | cons x t => exact ⟨x, t, rfl, by simpa [hw, and_assoc] using hhead⟩

theorem allowed_word (s : Setting) : Allowed s.word := by
  refine allowed_of_all ?_
  cases s <;> decide +kernel

/-- A field of a setting is a sheet. -/
theorem sheet_field {content : Content} {out : List Char} {v : Yaml.Value} (s : Setting) (h : content.Written out)
    (hallowed : Allowed out) (hv : Decoding.Means content v) :
    Sheet (s.name ++ byte ':' :: Utf8.encodeAll out) [(s.name, v)] := by
  -- a name is not taken for a number or the like when it is read
  have htext : scalarValue [] s.name .plain = .ok (.text s.name) := by
    cases s <;> rfl
  have hmerge : s.name ≠ "<<" := by
    cases s <;> decide
  refine ⟨[(s.word, content)], [s.word ++ ':' :: out], ?_, .cons (.mk s.name_word h) .nil, ?_,
    .cons ⟨s.encodeAll_word.symm, htext, hmerge, hv⟩ .nil⟩
  · rw [List.flatten_singleton, Utf8.encodeAll_append, encodeAll_word, Utf8.encodeAll_cons]
    rfl
  · rw [List.flatten_singleton]
    exact allowed_append.mpr ⟨s.allowed_word, allowed_cons.mpr ⟨by decide, hallowed⟩⟩

/-- A setting that is a text. -/
theorem sheet_text {t : Bytes} (s : Setting) (h : recallable t = true) :
    Sheet (s.name ++ ": " ++ scalar 4 t) [(s.name, .text (recalled t))] := by
  obtain ⟨i, out, hbytes, hwritten, hallowed, hmean⟩ := scalar_recalled h
  have hsheet := sheet_field s (.one hwritten) (allowed_cons.mpr ⟨by decide, hallowed⟩) (.one hmean)
  rw [hbytes, List.append_assoc]
  rwa [Utf8.encodeAll_cons] at hsheet

/-- Items, each of which says its text. -/
theorem items_written {ts : List Bytes} (h : ∀ t ∈ ts, legible 6 t = true) :
    ∃ items outs, List.Forall₂ (Written 6) items outs ∧ List.Forall₂ Item.Says items ts ∧
      (ts.flatMap fun t => ("    - " : Bytes) ++ scalar 6 t) = Utf8.encodeAll (entryLines outs) ∧
      Allowed (entryLines outs) := by
  induction ts with
  | nil => exact ⟨[], [], .nil, .nil, rfl, allowed_nil⟩
  | cons t ts ih =>
    obtain ⟨ht, hts⟩ := List.forall_mem_cons.mp h
    obtain ⟨i, out, hbytes, hwritten, hallowed, hmean⟩ := scalar_written ht
    obtain ⟨items, outs, hwrittens, hmeans, hlines, hallowed'⟩ := ih hts
    have hfirst : entryLines (out :: outs) = List.replicate 4 ' ' ++ '-' :: ' ' :: out ++ entryLines outs :=
      List.flatMap_cons
    refine ⟨i :: items, out :: outs, .cons hwritten hwrittens, .cons hmean hmeans, ?_, ?_⟩
    · rw [List.flatMap_cons, hlines, hbytes, hfirst, Utf8.encodeAll_append]
      rfl
    · rw [hfirst]
      simp only [allowed_append, allowed_cons]
      exact ⟨⟨allowed_spaces 4, by decide, by decide, hallowed⟩, hallowed'⟩

/-- A setting that is a list. -/
theorem sheet_list {ts : List Bytes} (s : Setting) (h : ∀ t ∈ ts, legible 6 t = true) :
    Sheet (s.name ++ ":" ++ items ts) [(s.name, .list (ts.map .text))] := by
  cases ts with
  -- the empty list is written in brackets
  | nil =>
    have hempty : Allowed [' ', '[', ']', '\n'] := allowed_of_all (by decide)
    have hsheet := sheet_field s .none hempty (.many .nil)
    rw [List.append_assoc]
    exact hsheet
  | cons t ts =>
    obtain ⟨is, outs, hwritten, hmean, hlines, hallowed⟩ := items_written h
    rw [items, if_neg (by simp), hlines, List.append_assoc]
    cases hmean with
    | cons hfirst hmean =>
      cases hwritten with
      | cons hout hwritten =>
        exact sheet_field s (.many (.cons hout hwritten)) (allowed_cons.mpr ⟨by decide, hallowed⟩)
          (.many (.cons hfirst hmean))

/-! ## 2. Entries in lower case

The names in a file are turned into lower case before a setting is looked up.  The printed names are in lower
case, and lists and texts have no names inside. -/

theorem lowerNames_of_lower (h : ∀ e ∈ es, Bytes.lower e.1 = e.1) : Config.lowerNames es = es := by
  have hnone : es.filter (fun e => Bytes.lower e.1 ≠ e.1) = [] := by
    rw [List.filter_eq_nil_iff]
    intro e he
    simp [h e he]
  have hall : es.filter (fun e => Bytes.lower e.1 = e.1) = es := by
    rw [List.filter_eq_self]
    intro e he
    simp [h e he]
  unfold Config.lowerNames
  dsimp only
  rw [hnone]
  simpa using hall

theorem lowerItems_texts (ts : List Bytes) : Config.lowerItems (ts.map .text) = ts.map .text := by
  induction ts with
  | nil => rw [List.map_nil, Config.lowerItems]
  | cons t ts ih => simp [Config.lowerItems, Config.lowerKeys, ih]

/-- Names in lower case are as they are read. -/
theorem lowerEntries_of_lower (h : ∀ e ∈ es, Bytes.lower e.1 = e.1 ∧ Config.lowerKeys e.2 = e.2) :
    Config.lowerEntries es = es := by
  have hvalues : Config.lowerValues es = es := by
    rw [lowerValues_eq]
    conv_rhs => rw [← List.map_id es]
    refine List.map_congr_left fun e he => ?_
    rw [(h e he).2]
    rfl
  rw [Config.lowerEntries, hvalues, lowerNames_of_lower fun e he => (h e he).1]

end AgentKit.Setting

namespace AgentKit.Config

open Yaml Yaml.Print Setting

/-! ## 3. Settings

A setting is printed at the left edge, with further lines at column four, and an entry of the list at column
six.  So for the single settings a space at the start of a block is read back, and a line end is lost; for the
entries of the list both go wrong.  Color and log format are words out of a list, and are never written as
a block. -/

/-- The settings that are read where `c` was printed. -/
def reread (c : Config) : Config := { c with logLevel := recalled c.logLevel, source := recalled c.source }

/-- What a file has in it in which `c` was printed. -/
def printed (c : Config) : List (Bytes × Yaml.Value) :=
  let source : List (Bytes × Yaml.Value) := if c.source.isEmpty then [] else [("source", .text (recalled c.source))]
  ("exclude", .list (c.exclude.map .text)) :: ("color", .text c.color) :: ("log-level", .text (recalled c.logLevel)) ::
    ("log-format", .text c.logFormat) :: source

variable {c : Config}

/-- The two settings that may change are free texts. -/
theorem validate_reread : c.reread.validate = c.validate := rfl

/-- The words that are known for a setting are read back. -/
theorem words_recalled : ∀ t ∈ (["auto", "always", "never"] : List Bytes) ++ (["text", "json"] : List Bytes),
    recallable t = true ∧ recalled t = t := by
  decide +kernel

/-- **The printed settings are a sheet.** -/
theorem sheet_yaml (hvalid : c.validate = .ok ()) (hexclude : ∀ t ∈ c.exclude, legible 6 t = true)
    (hlevel : recallable c.logLevel = true) (hsource : recallable c.source = true) : Sheet c.yaml c.printed := by
  obtain ⟨hcolor, hformat, _⟩ := validate_ok.mp hvalid
  obtain ⟨hcolor, hsame⟩ := words_recalled c.color (List.mem_append_left _ hcolor)
  obtain ⟨hformat, hsame'⟩ := words_recalled c.logFormat (List.mem_append_right _ hformat)
  have hfirst : Sheet ("exclude:" ++ items c.exclude) [("exclude", .list (c.exclude.map .text))] :=
    sheet_list .exclude hexclude
  have hsecond : Sheet ("color: " ++ scalar 4 c.color) [("color", .text (recalled c.color))] := sheet_text .color hcolor
  have hthird : Sheet ("log-level: " ++ scalar 4 c.logLevel) [("log-level", .text (recalled c.logLevel))] :=
    sheet_text .logLevel hlevel
  have hfourth : Sheet ("log-format: " ++ scalar 4 c.logFormat) [("log-format", .text (recalled c.logFormat))] :=
    sheet_text .logFormat hformat
  -- an empty source is not printed
  have hlast : Sheet (if c.source.isEmpty then ([] : Bytes) else ("source: " : Bytes) ++ scalar 4 c.source)
      (if c.source.isEmpty then [] else [("source", .text (recalled c.source))]) := by
    split
    · exact sheet_nil
    · exact sheet_text .source hsource
  rw [hsame] at hsecond
  rw [hsame'] at hfourth
  have hall := (((hfirst.append hsecond).append hthird).append hfourth).append hlast
  simpa only [yaml, printed, List.append_assoc, List.cons_append, List.nil_append] using hall

/-- Nothing is changed in the printed entries when they are read. -/
theorem lowerEntries_printed (c : Config) : lowerEntries c.printed = c.printed := by
  refine lowerEntries_of_lower ?_
  have htext : ∀ t : Bytes, lowerKeys (.text t) = .text t := fun t => by simp [lowerKeys]
  have hlist : lowerKeys (.list (c.exclude.map .text)) = .list (c.exclude.map .text) := by
    rw [lowerKeys, lowerItems_texts]
  unfold printed
  simp only [List.forall_mem_cons, htext, hlist, and_true]
  refine ⟨by decide, by decide, by decide, by decide, ?_⟩
  split
  · simp
  · rw [List.forall_mem_singleton]
    exact ⟨(by decide : Bytes.lower "source" = "source"), htext _⟩

theorem nodup_printed (c : Config) : (c.printed.map (·.1)).Nodup := by
  have hnames : c.printed.map (·.1) =
      ["exclude", "color", "log-level", "log-format"] ++ if c.source.isEmpty then [] else ["source"] := by
    unfold printed
    split <;> rfl
  rw [hnames]
  split <;> decide

/-- **Each setting is looked up where it was printed.** -/
theorem value_printed (c : Config) (s : Setting) : value {} c.printed s = .ok (get c.reread s) := by
  cases s with
  | exclude => exact textsFrom_texts "exclude" 0 c.exclude
  | color => rfl
  | logLevel => rfl
  | logFormat => rfl
  | source =>
    have hlook : valueOf {} c.printed Setting.source.name =
        if c.source.isEmpty then none else some (.text (recalled c.source)) := by
      unfold printed
      split <;> rfl
    rw [value, hlook]
    by_cases h : c.source.isEmpty = true
    · -- a setting that was not printed is the default
      rw [if_pos h]
      show _ = Except.ok (recalled c.source)
      rw [List.isEmpty_iff.mp h]
      rfl
    · rw [if_neg h]
      rfl

/-- **Printed settings are settings.**  Say that no text that is written as a block starts with a tab, and none in the
list with a space or a line end.  Then a file in which settings were printed can be read, and gives them back but for
a line end at the start of a block, which is lost; so they are the same if and only if there is no such line end. -/
theorem load_yaml {args : Arguments} {file : Option File} (name : Bytes) (hload : load args file = .ok c)
    (hexclude : ∀ t ∈ c.exclude, legible 6 t = true) (hlevel : recallable c.logLevel = true)
    (hsource : recallable c.source = true) :
    load {} (some ⟨name, .ok c.yaml⟩) = .ok c.reread ∧
      (c.reread = c ↔ legible 4 c.logLevel = true ∧ legible 4 c.source = true) := by
  obtain ⟨_, _, _, hvalid⟩ := load_iff.mp hload
  have hread := readMap_sheet_entries (sheet_yaml hvalid hexclude hlevel hsource) (by simp [printed]) c.nodup_printed
  refine ⟨load_iff.mpr ⟨c.printed, ?_, c.value_printed, validate_reread.trans hvalid⟩, ?_⟩
  · rw [entriesOf, File.entries]
    dsimp only
    rw [hread]
    dsimp only
    rw [lowerEntries_printed]
  · -- the settings are the same if and only if the two free texts are
    rw [legible_iff, legible_iff]
    constructor
    · intro h
      exact ⟨⟨hlevel, congrArg Config.logLevel h⟩, ⟨hsource, congrArg Config.source h⟩⟩
    · rintro ⟨⟨_, hlevel⟩, ⟨_, hsource⟩⟩
      rw [reread, hlevel, hsource]

/-- Settings with texts of several lines, texts that look like something else and a byte that is no character. -/
def awkwardTexts : Config :=
  { exclude := ["~", "a\n b\n", [0xff], "- 'x': #"], logLevel := "1e3", source := " x\n\n\ty\n\n" }

/-- The flags that give them. -/
def awkwardFlags : Arguments where
  given := [("exclude", .list awkwardTexts.exclude), ("log-level", .text awkwardTexts.logLevel),
    ("source", .text awkwardTexts.source)]

theorem load_yaml_awkwardTexts :
    load awkwardFlags none = .ok awkwardTexts ∧
      load {} (some ⟨"f.yaml", .ok awkwardTexts.yaml⟩) = .ok awkwardTexts := by
  have hload : load awkwardFlags none = .ok awkwardTexts := rfl
  obtain ⟨hfile, hsame⟩ := load_yaml "f.yaml" hload (by decide +kernel) (by decide +kernel) (by decide +kernel)
  rw [hsame.mpr (by decide +kernel)] at hfile
  exact ⟨hload, hfile⟩

/-- Settings that flags give and that are not read back.  A line end is lost, and so are spaces in the list; the file is
refused for a line end in the list and for tabs. -/
theorem load_yaml_misread :
    load { given := [("source", .text "\nx")] } none = .ok { source := "\nx" } ∧
      (load {} (some ⟨"f.yaml", .ok (yaml { source := "\nx" })⟩)).toOption = some { source := "x" } ∧
      load { given := [("exclude", .list ["  x\n"])] } none = .ok { exclude := ["  x\n"] } ∧
      (load {} (some ⟨"f.yaml", .ok (yaml { exclude := ["  x\n"] })⟩)).toOption = some { exclude := ["x\n"] } ∧
      (load {} (some ⟨"f.yaml", .ok (yaml { exclude := ["\nx"] })⟩)).toOption = none ∧
      (load {} (some ⟨"f.yaml", .ok (yaml { exclude := ["\tx\ny"] })⟩)).toOption = none ∧
      (load {} (some ⟨"f.yaml", .ok (yaml { source := "\tx\ny" })⟩)).toOption = none :=
  ⟨rfl, by decide +kernel, rfl, by decide +kernel, by decide +kernel, by decide +kernel, by decide +kernel⟩

end AgentKit.Config
