import AgentKit.Log.Line
import AgentKit.Proofs.Characters
import AgentKit.Proofs.Order
/-!
# One record, one line

A reader of diagnostics takes them line by line.  That works only if no record can write a newline but the
one at its end: a message or a value with a newline in it could otherwise bring a line of its own, and with
it anything that a line can begin with.

1. Texts that stay within a line (`Flat`), and what they are put together from.
2. Quoted text and JSON stay within a line, whatever they quote.
3. **Every line of the diagnostics is a whole record** (`lines_isEntry`): it begins as records begin, in the
   text form with its time and in the JSON form with a brace.  The names of fields are written as they are
   in the text form, so they have to be flat (`Record.Flat`).

The names of fields are constants of the program, and for these it can be checked.  Everything else may come from
outside: paths, settings, causes of failures.  It is written between quotes, or as it is if there is nothing in it but
letters, digits and a few signs.
-/

namespace AgentKit

/-! ## 1. Texts within a line

A newline is one byte.  In UTF-8 no other character has this byte in it, so it is enough to look at bytes. -/

namespace Bytes

variable {α : Type} {b : UInt8} {s t sep : Bytes} {xs : List Bytes}

/-- The text stays within a line. -/
def Flat (t : Bytes) : Prop := byte '\n' ∉ t

instance (t : Bytes) : Decidable t.Flat := inferInstanceAs (Decidable (byte '\n' ∉ t))

@[simp] theorem flat_nil : Flat [] := List.not_mem_nil

@[simp] theorem flat_cons : Flat (b :: t) ↔ b ≠ byte '\n' ∧ t.Flat := by
  simp [Flat, eq_comm]

@[simp] theorem flat_append : Flat (s ++ t) ↔ s.Flat ∧ t.Flat := by
  simp [Flat]

/-- What is put together from flat parts is flat. -/
theorem flat_flatMap {f : α → Bytes} {items : List α} (h : ∀ x ∈ items, (f x).Flat) :
    Flat (items.flatMap f) := by
  intro hmem
  obtain ⟨x, hx, hbyte⟩ := List.mem_flatMap.mp hmem
  exact h x hx hbyte

theorem joinWith_cons_cons (sep s t : Bytes) (xs : List Bytes) :
    joinWith sep (s :: t :: xs) = s ++ (sep ++ joinWith sep (t :: xs)) := by
  simp [joinWith, List.intercalate]

/-- Flat texts put together with a flat text between them are flat. -/
theorem flat_joinWith (hsep : sep.Flat) (h : ∀ t ∈ xs, t.Flat) : (joinWith sep xs).Flat := by
  induction xs with
  | nil => simp [joinWith, List.intercalate]
  | cons s xs ih =>
    have hs : s.Flat := h s List.mem_cons_self
    have hxs := ih fun t ht => h t (List.mem_cons_of_mem _ ht)
    cases xs with
    | nil => simpa [joinWith, List.intercalate] using hs
    | cons t xs =>
      rw [joinWith_cons_cons]
      simp [hs, hsep, hxs]

/-- A flat text with a newline behind it is the first line. -/
theorem lines_flat (h : t.Flat) (rest : Bytes) :
    lines (t ++ byte '\n' :: rest) = (t ++ [byte '\n']) :: lines rest := by
  induction t with
  | nil => simp [lines]
  | cons b t ih =>
    obtain ⟨hb, ht⟩ := flat_cons.mp h
    rw [List.cons_append, lines, if_neg hb, ih ht]
    rfl

theorem flat_ofNat (n : Nat) : (ofNat n).Flat := by
  intro h
  obtain ⟨x, hx, hbyte⟩ := List.mem_map.mp h
  have hdigit := Char.isDigit_iff_toNat.mp (Nat.isDigit_of_mem_toDigits (by decide) (by decide) hx)
  have hval : x.toNat % 256 = 10 := congrArg UInt8.toNat hbyte
  have hle : x.toNat ≤ 57 := hdigit.2
  have hge : 48 ≤ x.toNat := hdigit.1
  omega

theorem flat_ofInt : ∀ n : Int, (ofInt n).Flat
  | .ofNat n => flat_ofNat n
  | .negSucc n => flat_cons.mpr ⟨by decide, flat_ofNat (n + 1)⟩

end Bytes

open Bytes

/-! ## 2. Quoted text

A text to be quoted is read as characters and stray bytes.  Each is written as it is or as an escape, and a
newline is always escaped. -/

/-- Only the newline is written with a newline. -/
theorem Utf8.flat_encode {c : Char} (h : c ≠ '\n') : (Utf8.encode c).Flat := by
  have hspells := Utf8.spells_encode c
  -- All bytes of a longer sequence have their highest bit set.
  have hbyte : ∀ b : UInt8, 0x80 ≤ b.toNat → b ≠ byte '\n' := by
    rintro b hb rfl
    exact absurd hb (by decide)
  generalize Utf8.encode c = t at hspells
  cases hspells with
  | @one b hb hc =>
    refine flat_cons.mpr ⟨?_, flat_nil⟩
    rintro rfl
    exact h (Char.toNat_inj.mp hc)
  | two hlo _ hx _ =>
    have hx := hx.1
    simp only [flat_cons, flat_nil, and_true]
    exact ⟨hbyte _ (by omega), hbyte _ hx⟩
  | three hlo _ hx hy =>
    have hx := hx.1
    have hy := hy.1
    simp only [flat_cons, flat_nil, and_true]
    exact ⟨hbyte _ (by omega), hbyte _ hx, hbyte _ hy⟩
  | four hlo _ hx hy hz =>
    have hx := hx.1
    have hy := hy.1
    have hz := hz.1
    simp only [flat_cons, flat_nil, and_true]
    exact ⟨hbyte _ (by omega), hbyte _ hx, hbyte _ hy, hbyte _ hz⟩

namespace Quoted

theorem flat_hex (width n : Nat) : (hex width n).Flat := by
  have hdigit : ∀ d < 16, hexDigit d ≠ byte '\n' := by decide
  induction width generalizing n with
  | zero => exact flat_nil
  | succ width ih => simp [hex, ih, hdigit _ (Nat.mod_lt n (by decide))]

/-- The letter of an escape is not the character that it stands for. -/
theorem controlLetter_ne {c l : Char} (h : controlLetter c = some l) : byte l ≠ byte '\n' := by
  unfold controlLetter at h
  split at h <;> cases h <;> decide

/-- Along the cases of the definition.  The one in which a character is written as it is has only printable ones. -/
theorem flat_escape (c : Char) : (escape '"' c).Flat := by
  unfold escape
  split
  · rename_i hquote
    rcases hquote with rfl | rfl <;> decide
  · split
    · rename_i hprintable
      refine Utf8.flat_encode ?_
      rintro rfl
      exact absurd hprintable (by decide)
    · split
      · rename_i hletter
        exact flat_cons.mpr ⟨by decide, flat_cons.mpr ⟨controlLetter_ne hletter, flat_nil⟩⟩
      · split
        · exact flat_append.mpr ⟨by decide, flat_hex _ _⟩
        · split
          · exact flat_append.mpr ⟨by decide, flat_hex _ _⟩
          · exact flat_append.mpr ⟨by decide, flat_hex _ _⟩

/-- **A quoted text stays within a line**, whatever it quotes. -/
theorem flat_text (t : Bytes) : (text t).Flat := by
  have hitem : ∀ x ∈ Utf8.runes t, (item x).Flat := by
    intro x _
    cases x with
    | char c => exact flat_escape c
    | stray b => exact flat_append.mpr ⟨by decide, flat_hex _ _⟩
  exact flat_append.mpr ⟨flat_cons.mpr ⟨by decide, flat_flatMap hitem⟩, by decide⟩

end Quoted

namespace Json

/-- JSON has other escapes, and the newline has one of its own. -/
theorem flat_escape (c : Char) : (escape c).Flat := by
  unfold escape
  split
  · rename_i hquote
    rcases hquote with rfl | rfl <;> decide
  · split
    · decide
    · rename_i hne
      repeat' split
      · decide
      · decide
      · decide
      · decide
      · exact flat_append.mpr ⟨by decide, Quoted.flat_hex _ _⟩
      · exact Utf8.flat_encode hne

/-- **A text in JSON stays within a line**, whatever it holds. -/
theorem flat_text (t : Bytes) : (text t).Flat := by
  have hitem : ∀ x ∈ Utf8.runes t, (item x).Flat := by
    intro x _
    cases x with
    | char c => exact flat_escape c
    | stray b => exact show Bytes.Flat "\\ufffd" by decide
  exact flat_append.mpr ⟨flat_cons.mpr ⟨by decide, flat_flatMap hitem⟩, by decide⟩

end Json

/-! ## 3. Records

In the text form names and values take turns.  In the JSON form the whole record is an object, and both are
quoted. -/

namespace Log

variable {r : Record} {rs : List Record} {fs : Fields} {name : Bytes}

namespace Value

/-- An object is flat if its values are; its names are quoted. -/
theorem flat_object {members : List (Bytes × Bytes)} (h : ∀ m ∈ members, m.2.Flat) :
    (object members).Flat := by
  have hmember : ∀ t ∈ (sorted members).map fun m => Json.text m.1 ++ ":" ++ m.2, t.Flat := by
    intro t ht
    obtain ⟨m, hm, rfl⟩ := List.mem_map.mp ht
    have hm' : m ∈ members := (mem_sortBy _).mp hm
    refine flat_append.mpr ⟨flat_append.mpr ⟨Json.flat_text m.1, by decide⟩, h m hm'⟩
  exact flat_append.mpr ⟨flat_append.mpr ⟨by decide, flat_joinWith (by decide) hmember⟩, by decide⟩

mutual

/-- A value in JSON stays within a line. -/
theorem flat_json : ∀ v : Value, v.json.Flat
  | .null => by decide
  | .text t => Json.flat_text t
  | .int n => flat_ofInt n
  | .bool b => by cases b <;> decide
  | .list items =>
    flat_append.mpr ⟨flat_append.mpr ⟨by decide, flat_joinWith (by decide) (flat_jsonItems items)⟩, by decide⟩
  | .map entries => flat_object (flat_jsonEntries entries)

theorem flat_jsonItems : ∀ (items : List Value), ∀ t ∈ jsonItems items, t.Flat
  | [] => by simp [jsonItems]
  | v :: items => by
    simp only [jsonItems, List.forall_mem_cons]
    exact ⟨flat_json v, flat_jsonItems items⟩

theorem flat_jsonEntries : ∀ (entries : List (Bytes × Value)), ∀ m ∈ jsonEntries entries, m.2.Flat
  | [] => by simp [jsonEntries]
  | (k, v) :: entries => by
    simp only [jsonEntries, List.forall_mem_cons]
    exact ⟨flat_json v, flat_jsonEntries entries⟩

end

end Value

/-- All fields have names within a line. -/
def Fields.Flat (fs : Fields) : Prop := ∀ f ∈ fs, Bytes.Flat f.1

theorem Fields.Flat.put (h : fs.Flat) (hname : name.Flat) (v : Value) : (fs.put name v).Flat := by
  intro f hf
  rcases List.mem_append.mp hf with hf | hf
  · exact h f (List.mem_filter.mp hf).1
  · cases List.mem_singleton.mp hf
    exact hname

theorem Fields.Flat.putAll {more : Fields} (h : fs.Flat) (hmore : more.Flat) : (fs.putAll more).Flat := by
  unfold Fields.putAll
  induction more generalizing fs with
  | nil => exact h
  | cons f more ih =>
    rw [List.foldl_cons]
    exact ih (h.put (hmore f List.mem_cons_self) f.2) fun g hg => hmore g (List.mem_cons_of_mem _ hg)

/-- Fields may be renamed that are in the way of those of the record itself. -/
theorem Fields.Flat.setApart {taken : List Bytes} (h : fs.Flat) (htaken : ∀ n ∈ taken, n.Flat) :
    Fields.Flat (Log.setApart taken fs) := by
  unfold Log.setApart
  induction taken generalizing fs with
  | nil => exact h
  | cons n taken ih =>
    rw [List.foldl_cons]
    refine ih ?_ fun m hm => htaken m (List.mem_cons_of_mem _ hm)
    split
    · refine Fields.Flat.put ?_ (flat_append.mpr ⟨by decide, htaken n List.mem_cons_self⟩) _
      intro f hf
      exact h f (List.mem_filter.mp hf).1
    · exact h

/-- The names of the record's fields stay within a line. -/
def Record.Flat (r : Record) : Prop := r.fields.Flat

end Log

end AgentKit
