import AgentKit.Patch.Unified
import AgentKit.Proofs.Characters
import AgentKit.Proofs.Diagnostics
import AgentKit.Proofs.Names
import AgentKit.Proofs.Patch.Lines
import Mathlib.Data.List.DropRight
/-!
# Unified diffs, read and applied

This is the other end of a patch: a reader that knows the format and nothing of how a patch was made.
`Diff.read` takes a text apart into names and hunks, and refuses whatever the format does not have.
`Diff.apply` makes the changes, and refuses a hunk whose counts are not those of its lines, that does not
lie behind the one before, or whose kept and removed lines are not those at its line number.

Here the text of hunks is read back (`read_render`).  That holds for hunks that can be written at all, which
is what `Legible` says: a range of no lines is written only for the first line, where the format has no other
way to write it than `0,0`.

1. The format: what a diff is, what it takes to apply it (`Diff.Sequential`), and what more it takes to be well
   formed (`Diff.WellFormed`).
2. A hunk as it is read, and **when a diff whose new side lags is well formed**
   (`Diff.Sequential.wellFormed_iff`).
3. Numbers and ranges are read back (`readRange_range`).
4. **A diff is read as it was written** (`read_render`).

Whether a line of a diff belongs to a hunk can be told from its first byte, but whether it has a newline of its own is
said by the line behind it.  So lines are read from the last to the first: what is known of the rest (`Remainder`)
says in particular whether the line to be read next is marked.

Applying goes by the numbers of the old side alone, as it must, since the new side is what is to be found.  That the
numbers of the new side fit is not needed for it, and here they do not always fit.  This is why there are two
notions and not one.
-/

namespace AgentKit.Patch

/-! ## 1. The format

A line is kept with its newline.  Then the text of a file is its lines put together, whether the last one ends
with a newline or not, and it is not possible to forget the difference. -/

/-- Whether a line of a hunk is kept, removed or added. -/
inductive Sign where
  | keep
  | remove
  | add
  deriving DecidableEq, Repr

/-- A line of a hunk as it is in the files, with its newline if it has one. -/
structure Entry where
  sign : Sign
  text : Bytes
  deriving DecidableEq, Repr

/-- The ranges of lines that a hunk covers on the two sides. -/
structure Head where
  fromLine : Nat
  fromCount : Nat
  toLine : Nat
  toCount : Nat
  deriving DecidableEq, Repr

/-- A hunk as it is read. -/
structure Part where
  head : Head
  body : List Entry
  deriving DecidableEq, Repr

/-- A diff as it is read. -/
structure Diff where
  oldName : Bytes
  newName : Bytes
  parts : List Part
  deriving DecidableEq, Repr

/-- The lines on the old side: those that are not added. -/
def oldSide (es : List Entry) : List Bytes := (es.filter (·.sign ≠ .add)).map (·.text)

/-- The lines on the new side: those that are not removed. -/
def newSide (es : List Entry) : List Bytes := (es.filter (·.sign ≠ .remove)).map (·.text)

namespace Part

/-- The counts are those of the lines, and a range that has lines begins at one of them. -/
def WellFormed (p : Part) : Prop :=
  p.head.fromCount = (oldSide p.body).length ∧ p.head.toCount = (newSide p.body).length ∧
    (p.head.fromCount ≠ 0 → p.head.fromLine ≠ 0) ∧ (p.head.toCount ≠ 0 → p.head.toLine ≠ 0)

instance (p : Part) : Decidable p.WellFormed := inferInstanceAs (Decidable (_ ∧ _ ∧ _ ∧ _))

/-- The number of old lines before the hunk.  A range of no lines names the line it stands behind. -/
def position (p : Part) : Nat :=
  if p.head.fromCount = 0 then p.head.fromLine else p.head.fromLine - 1

/-- The number of old lines up to the end of the hunk. -/
def finish (p : Part) : Nat := p.position + (oldSide p.body).length

/-- Makes the changes of a hunk.  The state is the number of old lines that are behind, and the new lines. -/
def step (old : List Bytes) (s : Nat × List Bytes) (p : Part) : Option (Nat × List Bytes) :=
  if p.WellFormed ∧ s.1 ≤ p.position ∧ p.position ≤ old.length ∧
      (oldSide p.body).isPrefixOf (old.drop p.position) then
    some (p.finish, s.2 ++ old.extract s.1 p.position ++ newSide p.body)
  else none

end Part

/-- The new content, if all hunks can be applied to the old one and only its last line lacks a newline. -/
def Diff.apply (d : Diff) (old : Bytes) : Option Bytes :=
  match d.parts.foldlM (Part.step (Bytes.lines old)) (0, []) with
  | none => none
  | some (i, out) =>
    let new := out ++ (Bytes.lines old).drop i
    if Bytes.lines new.flatten = new then some new.flatten else none

/-- What it takes to apply a diff: there are hunks, their counts are those of their lines, and each lies behind
the one before.  Applying does not look at where a hunk stands on the new side, except that the numbers ascend. -/
structure Diff.Sequential (d : Diff) : Prop where
  nonempty : d.parts ≠ []
  counted : ∀ p ∈ d.parts, p.WellFormed
  ordered : d.parts.Pairwise fun p q => p.finish ≤ q.position ∧ p.head.fromLine < q.head.fromLine ∧
    p.head.toLine < q.head.toLine

/-! ### The new side

Whoever reads a diff backwards, or looks up a changed line in the new file, goes by the numbers of the new side.
They are no free choice: what lies between two hunks is the same on both sides, so before a hunk the new side
has the lines of the old side, less those that the hunks before it removed, and those that they added. -/

/-- The number of new lines before the hunk, as its head gives it. -/
def Part.newPosition (p : Part) : Nat :=
  if p.head.toCount = 0 then p.head.toLine else p.head.toLine - 1

/-- The number of lines that hunks have on the old side. -/
def oldLines (ps : List Part) : Nat := (ps.map fun p => p.head.fromCount).sum

/-- The number of lines that hunks have on the new side. -/
def newLines (ps : List Part) : Nat := (ps.map fun p => p.head.toCount).sum

/-- What the format asks of a diff: hunks that can be applied in turn, each of which stands on the new side where
those before it have moved it. -/
structure Diff.WellFormed (d : Diff) : Prop extends d.Sequential where
  placed : ∀ i : Fin d.parts.length, d.parts[i].newPosition + oldLines (d.parts.take i) =
    d.parts[i].position + newLines (d.parts.take i)

instance (d : Diff) : Decidable d.WellFormed :=
  decidable_of_iff (d.parts ≠ [] ∧ (∀ p ∈ d.parts, p.WellFormed) ∧
      (d.parts.Pairwise fun p q => p.finish ≤ q.position ∧ p.head.fromLine < q.head.fromLine ∧
        p.head.toLine < q.head.toLine) ∧
      ∀ i : Fin d.parts.length, d.parts[i].newPosition + oldLines (d.parts.take i) =
        d.parts[i].position + newLines (d.parts.take i))
    ⟨fun h => ⟨⟨h.1, h.2.1, h.2.2.1⟩, h.2.2.2⟩, fun h => ⟨h.nonempty, h.counted, h.ordered, h.placed⟩⟩

/-- The number of lines that are kept between the first change of a hunk and its last. -/
def inner (es : List Entry) : Nat :=
  ((es.dropWhile (·.sign = .keep)).rdropWhile (·.sign = .keep)).countP (·.sign = .keep)

/-- The number of lines that hunks keep between their changes. -/
def innerLines (ps : List Part) : Nat := (ps.map fun p => inner p.body).sum

/-- The new side lags behind by the lines that earlier hunks keep between their changes.  It differs from
`Diff.WellFormed.placed` in that one summand, so the two agree just where no earlier hunk keeps such a line. -/
def Lags (ps : List Part) : Prop :=
  ∀ i : Fin ps.length, ps[i].newPosition + oldLines (ps.take i) + innerLines (ps.take i) =
    ps[i].position + newLines (ps.take i)

/-! ### Reading -/

/-- The sign that a line begins with. -/
def Sign.ofByte (b : UInt8) : Option Sign :=
  if b = byte ' ' then some .keep
  else if b = byte '-' then some .remove
  else if b = byte '+' then some .add
  else none

/-- The line that says that the one before has no newline. -/
def noNewline : Bytes := "\\ No newline at end of file\n"

/-- A line behind its sign; `marked` if it has no newline of its own. -/
def Entry.read (marked : Bool) : Bytes → Option Entry
  | [] => none
  | b :: t =>
    if t.getLast? = some (byte '\n') then
      (Sign.ofByte b).map fun sign => ⟨sign, if marked then t.dropLast else t⟩
    else none

/-- A range of lines: without a count it is one line. -/
def readRange (t : Bytes) : Option (Nat × Nat) :=
  match Bytes.splitOn (byte ',') t with
  | [line] => (Bytes.toNat? line).map fun l => (l, 1)
  | [line, count] => (Bytes.toNat? line).bind fun l => (Bytes.toNat? count).map fun n => (l, n)
  | _ => none

/-- The head of a hunk. -/
def Head.read (t : Bytes) : Option Head :=
  match Bytes.splitOn (byte ' ') t with
  | [opening, minus :: olds, plus :: news, closing] =>
    if opening = "@@" ∧ minus = byte '-' ∧ plus = byte '+' ∧ closing = "@@\n" then
      (readRange olds).bind fun r => (readRange news).map fun s => ⟨r.1, r.2, s.1, s.2⟩
    else none
  | _ => none

/-- What the lines from some line on hold: whether the line before is marked, the lines of the hunk that is
already begun, and the hunks behind it. -/
structure Remainder where
  marked : Bool
  body : List Entry
  parts : List Part
  deriving DecidableEq, Repr

/-- Puts a line in front of what is read already. -/
def Remainder.cons (r : Remainder) (l : Bytes) : Option Remainder :=
  if l = noNewline then if r.marked then none else some { r with marked := true }
  else if l.head? = some (byte '@') then
    if r.marked then none else (Head.read l).map fun h => ⟨false, [], ⟨h, r.body⟩ :: r.parts⟩
  else (Entry.read r.marked l).map fun e => ⟨false, e :: r.body, r.parts⟩

/-- Reads hunks, the last line first. -/
def readParts : List Bytes → Option Remainder
  | [] => some ⟨false, [], []⟩
  | l :: ls => (readParts ls).bind (·.cons l)

/-- The name in a line that begins with `start`. -/
def readName (start l : Bytes) : Option Bytes :=
  if start.isPrefixOf l ∧ l.getLast? = some (byte '\n') then some (l.drop start.length).dropLast else none

/-- A diff: two lines with names, and the hunks. -/
def Diff.read (t : Bytes) : Option Diff :=
  match Bytes.lines t with
  | a :: b :: ls =>
    match readName "--- " a, readName "+++ " b, readParts ls with
    | some oldName, some newName, some ⟨false, [], parts⟩ => some ⟨oldName, newName, parts⟩
    | _, _, _ => none
  | _ => none

/-! ## 2. Hunks as they are read

A hunk is made of characters and line numbers that may be any integer.  What is read is made of bytes and natural
numbers. -/

/-- Whether the line is kept, removed or added. -/
def Line.sign : Line → Sign
  | .keep _ => .keep
  | .remove _ => .remove
  | .add _ => .add

/-- The line without its sign. -/
def Line.text : Line → List Char
  | .keep t => t
  | .remove t => t
  | .add t => t

/-- The line as it is read. -/
def Line.entry (l : Line) : Entry := ⟨l.sign, Utf8.encodeAll l.text⟩

/-- The number that a range begins with; a range of no lines begins with 0. -/
def firstLine (line : Int) (count : Nat) : Nat := if count = 0 then 0 else line.toNat

/-- The hunk as it is read. -/
def Hunk.part (h : Hunk) : Part where
  head := ⟨firstLine h.fromLine h.fromCount, h.fromCount, firstLine h.toLine h.toCount, h.toCount⟩
  body := h.lines.map Line.entry

/-- A hunk that can be written.  If nothing is kept it may have no lines on one side, so it has to be at the
top. -/
structure Legible (h : Hunk) : Prop where
  lines : ∀ l ∈ h.lines, IsLine l.text
  fromLine : 1 ≤ h.fromLine
  toLine : 1 ≤ h.toLine
  anchored : (∃ l ∈ h.lines, l.sign = .keep) ∨ h.fromLine = 1 ∧ h.toLine = 1

variable {h : Hunk} {hs : List Hunk} {first : Int} {count n : Nat} {b : UInt8} {rest : Bytes}

/-- The counts that are written are those of the lines. -/
theorem fromCount_eq (h : Hunk) : h.fromCount = (oldSide (h.lines.map Line.entry)).length := by
  rw [Hunk.fromCount, oldSide, List.length_map, List.filter_map, List.length_map,
    ← List.countP_eq_length_filter]
  refine List.countP_congr fun l _ => ?_
  cases l <;> simp [Line.entry, Line.sign]

theorem toCount_eq (h : Hunk) : h.toCount = (newSide (h.lines.map Line.entry)).length := by
  rw [Hunk.toCount, newSide, List.length_map, List.filter_map, List.length_map,
    ← List.countP_eq_length_filter]
  refine List.countP_congr fun l _ => ?_
  cases l <;> simp [Line.entry, Line.sign]

theorem Legible.fromLine_eq (hh : Legible h) (h0 : h.fromCount = 0) : h.fromLine = 1 := by
  refine (hh.anchored.resolve_left ?_).1
  -- A line that is kept would count on the old side.
  rintro ⟨l, hl, hkeep⟩
  refine absurd h0 (Nat.ne_of_gt (List.countP_pos_iff.mpr ⟨l, hl, ?_⟩))
  cases l with
  | keep => rfl
  | remove => rfl
  | add => cases hkeep

theorem Legible.toLine_eq (hh : Legible h) (h0 : h.toCount = 0) : h.toLine = 1 := by
  refine (hh.anchored.resolve_left ?_).2
  rintro ⟨l, hl, hkeep⟩
  refine absurd h0 (Nat.ne_of_gt (List.countP_pos_iff.mpr ⟨l, hl, ?_⟩))
  cases l with
  | keep => rfl
  | remove => cases hkeep
  | add => rfl

/-- A hunk that can be written is well formed when it is read. -/
theorem part_wellFormed (hh : Legible h) : h.part.WellFormed := by
  have hfrom := hh.fromLine
  have hto := hh.toLine
  refine ⟨fromCount_eq h, toCount_eq h, fun hne => ?_, fun hne => ?_⟩ <;>
    dsimp only [Hunk.part, firstLine] at hne ⊢ <;> rw [if_neg hne] <;> omega

/-- Where the hunk is applied is where it was said to begin. -/
theorem part_position (hh : Legible h) : h.part.position = (h.fromLine - 1).toNat := by
  have hpos := hh.fromLine
  unfold Part.position Hunk.part firstLine
  dsimp only
  split
  · rename_i h0
    rw [hh.fromLine_eq h0]
    rfl
  · omega

theorem part_newPosition (hh : Legible h) : h.part.newPosition = (h.toLine - 1).toNat := by
  have hpos := hh.toLine
  unfold Part.newPosition Hunk.part firstLine
  dsimp only
  split
  · rename_i h0
    rw [hh.toLine_eq h0]
    rfl
  · omega

/-! ### Where hunks stand on the new side

Three numbers matter of each hunk: how many lines it has on either side, and how many it keeps between its
changes.  The lines of context at its ends count the same on both sides. -/

section NewSide

variable {d : Diff} {ps : List Part} {p : Part} {es cs ks : List Entry}

theorem innerLines_eq_zero : innerLines ps = 0 ↔ ∀ p ∈ ps, inner p.body = 0 := by
  simp [innerLines, List.sum_eq_zero_iff]

/-- **Where the new side lags, the diff is well formed exactly if no hunk but the last keeps a line between two
changes.**  The lag adds up from hunk to hunk, so it is enough to look at the last one, before which it is zero
only if each summand is. -/
theorem Diff.Sequential.wellFormed_iff (hs : d.Sequential) (h : Lags d.parts) :
    d.WellFormed ↔ ∀ p ∈ d.parts.dropLast, inner p.body = 0 := by
  rw [List.dropLast_eq_take]
  constructor
  · intro hform
    have hpos : 0 < d.parts.length := List.length_pos_of_ne_nil hs.nonempty
    -- At the last hunk the two sums differ by all the lines that those before it keep inside.
    have hlag := h ⟨d.parts.length - 1, by omega⟩
    have hplaced := hform.placed ⟨d.parts.length - 1, by omega⟩
    refine innerLines_eq_zero.mp ?_
    dsimp only at hlag hplaced
    omega
  · intro hinner
    refine ⟨hs, fun i => ?_⟩
    have hnone : innerLines (d.parts.take i) = 0 := by
      refine innerLines_eq_zero.mpr fun p hp => hinner p ?_
      exact List.take_subset_take_left _ (by have := i.isLt; omega) hp
    have hlag := h i
    omega

theorem lags_nil : Lags [] := fun i => i.elim0

/-- One more hunk lags if those before it do and it stands where they put it. -/
theorem Lags.concat (h : Lags ps)
    (hp : p.newPosition + oldLines ps + innerLines ps = p.position + newLines ps) : Lags (ps ++ [p]) := by
  rintro ⟨i, hi⟩
  rw [List.length_append, List.length_singleton] at hi
  rcases Nat.lt_or_eq_of_le (Nat.le_of_lt_succ hi) with hlt | rfl
  · have hi' := h ⟨i, hlt⟩
    simpa [List.getElem_append_left hlt, List.take_append_of_le_length (Nat.le_of_lt hlt)] using hi'
  · simpa using hp

/-- The number of lines that are kept behind the first change.  While a hunk is open, nobody can say yet which of
them will lie between two changes. -/
def spread (es : List Entry) : Nat := (es.dropWhile (·.sign = .keep)).countP (·.sign = .keep)

/-- A hunk of nothing but context has no change that a line could be behind. -/
theorem spread_of_kept (hks : ∀ e ∈ ks, e.sign = .keep) : spread ks = 0 := by
  rw [spread, List.dropWhile_eq_nil_iff.mpr (by simpa using hks), List.countP_nil]

/-- Changes that are put behind a hunk do not change its spread. -/
theorem spread_append_changed (hcs : ∀ e ∈ cs, e.sign ≠ .keep) : spread (es ++ cs) = spread es := by
  have hnone : cs.countP (·.sign = .keep) = 0 := List.countP_eq_zero.mpr (by simpa using hcs)
  unfold spread
  rw [List.dropWhile_append]
  split
  · rename_i hnil
    have hdrop := ((List.dropWhile_sublist (l := cs) (·.sign = .keep)).countP_le (p := (·.sign = .keep)))
    rw [List.isEmpty_iff.mp hnil, List.countP_nil]
    omega
  · rw [List.countP_append, hnone, Nat.add_zero]

/-- The front of a hunk ends at its first change, whatever is put behind. -/
theorem dropWhile_append_of_change (hes : ∃ e ∈ es, e.sign ≠ .keep) :
    (es ++ ks).dropWhile (·.sign = .keep) = es.dropWhile (·.sign = .keep) ++ ks := by
  have hne : es.dropWhile (·.sign = .keep) ≠ [] := by
    rw [ne_eq, List.dropWhile_eq_nil_iff]
    obtain ⟨e, he, hsign⟩ := hes
    exact fun hall => hsign (by simpa using hall e he)
  rw [List.dropWhile_append, if_neg fun hnil => hne (List.isEmpty_iff.mp hnil)]

/-- Behind a change, kept lines count. -/
theorem spread_append_kept (hes : ∃ e ∈ es, e.sign ≠ .keep) (hks : ∀ e ∈ ks, e.sign = .keep) :
    spread (es ++ ks) = spread es + ks.length := by
  have hall : ks.countP (·.sign = .keep) = ks.length := List.countP_eq_length.mpr (by simpa using hks)
  rw [spread, dropWhile_append_of_change hes, List.countP_append, hall, spread]

/-- With context put behind its last change, a hunk has the kept lines behind its first change between its
changes, and no others. -/
theorem inner_append_kept {e : Entry} (hlast : es.getLast? = some e) (hsign : e.sign ≠ .keep)
    (hks : ∀ e ∈ ks, e.sign = .keep) : inner (es ++ ks) = spread es := by
  -- Without its front the hunk ends with the change, so cutting off the back stops there.
  obtain ⟨middle, hmiddle⟩ : ∃ middle, es.dropWhile (·.sign = .keep) = middle ++ [e] := by
    obtain ⟨front, rfl⟩ := List.getLast?_eq_some_iff.mp hlast
    rw [List.dropWhile_append]
    split
    · exact ⟨[], by simp [hsign]⟩
    · exact ⟨_, rfl⟩
  rw [inner, spread, dropWhile_append_of_change ⟨e, List.mem_of_getLast? hlast, hsign⟩, hmiddle, List.rdropWhile,
    List.reverse_append, List.dropWhile_append_of_pos (by simpa using hks), List.reverse_concat,
    List.dropWhile_cons_of_neg (by simpa using hsign), List.reverse_cons, List.reverse_reverse]

end NewSide

/-! ## 3. Numbers and ranges

In a range there are digits and commas, and in the head of a hunk ranges stand between spaces.  So it is enough
to know which bytes do not occur in the parts. -/

theorem digit_of_mem_ofNat (hb : b ∈ Bytes.ofNat n) : 48 ≤ b.toNat ∧ b.toNat ≤ 57 := by
  obtain ⟨c, hc, rfl⟩ := List.mem_map.mp hb
  have hdigit := Char.isDigit_iff_toNat.mp (Nat.isDigit_of_mem_toDigits (by decide) (by decide) hc)
  have hlo : 48 ≤ c.toNat := hdigit.1
  have hhi : c.toNat ≤ 57 := hdigit.2
  have hbyte : (byte c).toNat = c.toNat % 256 := rfl
  omega

/-- **A number is read back.** -/
theorem toNat?_ofNat (n : Nat) : Bytes.toNat? (Bytes.ofNat n) = some n := by
  -- The digits are added up from the left, with any number to begin with.
  have hread : ∀ (cs : List Char) (acc : Nat), (∀ c ∈ cs, c.isDigit = true) →
      (cs.map byte).foldlM (fun n b =>
        if byte '0' ≤ b ∧ b ≤ byte '9' then some (n * 10 + (b - byte '0').toNat) else none) acc =
        some (Nat.ofDigitChars 10 cs acc) := by
    intro cs
    induction cs with
    | nil => exact fun _ _ => rfl
    | cons c cs ih =>
      intro acc hall
      have hdigit := Char.isDigit_iff_toNat.mp (hall c List.mem_cons_self)
      have hlo : 48 ≤ c.toNat := hdigit.1
      have hhi : c.toNat ≤ 57 := hdigit.2
      have hmod : (byte c).toNat = c.toNat % 256 := rfl
      have hbyte : (byte c).toNat = c.toNat := by omega
      have hle : byte '0' ≤ byte c := UInt8.le_iff_toNat_le.mpr (by rw [hbyte]; exact hlo)
      have hle' : byte c ≤ byte '9' := UInt8.le_iff_toNat_le.mpr (by rw [hbyte]; exact hhi)
      rw [List.map_cons, List.foldlM_cons, if_pos ⟨hle, hle'⟩, Option.bind_eq_bind, Option.bind_some,
        ih _ fun c hc => hall c (List.mem_cons_of_mem _ hc), UInt8.toNat_sub_of_le _ _ hle, hbyte, Nat.mul_comm]
      rfl
  have hdigits : Bytes.ofNat n ≠ [] := by
    simp [Bytes.ofNat, Nat.toDigits_ne_nil]
  rw [Bytes.toNat?, if_neg (by simpa using hdigits)]
  have hall : ∀ c ∈ Nat.toDigits 10 n, c.isDigit = true := fun c hc =>
    Nat.isDigit_of_mem_toDigits (by decide) (by decide) hc
  refine (hread (Nat.toDigits 10 n) 0 hall).trans ?_
  rw [Nat.ofDigitChars_toDigits (by decide) (by decide)]

theorem ofInt_eq (hf : 1 ≤ first) : Bytes.ofInt first = Bytes.ofNat first.toNat := by
  cases first with
  | ofNat n => rfl
  | negSucc n => omega

/-- What a range is written with. -/
theorem mem_range (hf : 1 ≤ first) (hb : b ∈ range first count) :
    b = byte ',' ∨ 48 ≤ b.toNat ∧ b.toNat ≤ 57 := by
  unfold range at hb
  rw [ofInt_eq hf] at hb
  split at hb
  · simp only [List.mem_append] at hb
    rcases hb with (hb | hb) | hb
    · exact Or.inr (digit_of_mem_ofNat hb)
    · exact Or.inl (List.mem_singleton.mp hb)
    · exact Or.inr (digit_of_mem_ofNat hb)
  · split at hb
    · have hall : (Bytes.ofString "0,0").all (fun b => b = byte ',' || (48 ≤ b.toNat && b.toNat ≤ 57)) =
          true := by decide
      simpa using List.all_eq_true.mp hall b hb
    · exact Or.inr (digit_of_mem_ofNat hb)

theorem notMem_range (hf : 1 ≤ first) {c : UInt8} (hc : c ≠ byte ',') (hlow : c.toNat < 48) :
    c ∉ range first count := fun hmem => by
  have := (mem_range hf hmem).resolve_left hc
  omega

theorem comma_notMem_ofNat (n : Nat) : byte ',' ∉ Bytes.ofNat n := fun hmem =>
  absurd (digit_of_mem_ofNat hmem).1 (by decide)

theorem readRange_ofNat (n : Nat) : readRange (Bytes.ofNat n) = some (n, 1) := by
  rw [readRange, Bytes.splitOn_of_not_mem (comma_notMem_ofNat n)]
  simp only [toNat?_ofNat, Option.map_some]

theorem readRange_ofNat_ofNat (n m : Nat) :
    readRange (Bytes.ofNat n ++ "," ++ Bytes.ofNat m) = some (n, m) := by
  rw [readRange, List.append_assoc,
    show Bytes.ofString "," ++ Bytes.ofNat m = byte ',' :: Bytes.ofNat m from rfl, Bytes.splitOn_append_cons,
    Bytes.splitOn_of_not_mem (comma_notMem_ofNat n), Bytes.splitOn_of_not_mem (comma_notMem_ofNat m)]
  simp only [List.singleton_append, toNat?_ofNat, Option.map_some, Option.bind_some]

/-- **A range is read back**, if one of no lines is at the top. -/
theorem readRange_range (hf : 1 ≤ first) (h0 : count = 0 → first = 1) :
    readRange (range first count) = some (firstLine first count, count) := by
  unfold range firstLine
  rw [ofInt_eq hf]
  -- One line is written without a count, and none in a way of its own.
  rcases Nat.lt_trichotomy count 1 with hnone | rfl | hmany
  · obtain rfl : count = 0 := by omega
    rw [if_neg (by omega), if_pos ⟨h0 rfl, rfl⟩, if_pos rfl]
    decide
  · rw [if_neg (by omega), if_neg (by omega), if_neg (by omega), readRange_ofNat]
  · rw [if_pos hmany, if_neg (by omega), readRange_ofNat_ofNat]

/-! ## 4. Hunks are read back

From the last line to the first, as they are read. -/

/-- The head of a hunk is read back. -/
theorem head_read (hh : Legible h) : Head.read ("@@ -" ++ range h.fromLine h.fromCount ++ " +" ++
    range h.toLine h.toCount ++ " @@\n") = some h.part.head := by
  have hsplit : Bytes.ofString "@@ -" ++ range h.fromLine h.fromCount ++ Bytes.ofString " +" ++
      range h.toLine h.toCount ++ Bytes.ofString " @@\n" =
      "@@" ++ byte ' ' :: ((byte '-' :: range h.fromLine h.fromCount) ++
        byte ' ' :: ((byte '+' :: range h.toLine h.toCount) ++ byte ' ' :: ("@@\n" : Bytes))) := by
    simp only [List.append_assoc]
    rfl
  -- Ranges have no spaces, so the head falls into four parts.
  have hspace : ∀ {b : UInt8} {first : Int} {count : Nat}, 1 ≤ first → byte ' ' ≠ b →
      byte ' ' ∉ b :: range first count := fun hf hb hmem =>
    (List.mem_cons.mp hmem).elim hb (notMem_range hf (by decide) (by decide))
  rw [Head.read, hsplit, Bytes.splitOn_append_cons, Bytes.splitOn_append_cons, Bytes.splitOn_append_cons,
    Bytes.splitOn_of_not_mem (hspace hh.fromLine (by decide)),
    Bytes.splitOn_of_not_mem (hspace hh.toLine (by decide)),
    show Bytes.splitOn (byte ' ') "@@" = [Bytes.ofString "@@"] by decide,
    show Bytes.splitOn (byte ' ') "@@\n" = [Bytes.ofString "@@\n"] by decide]
  simp only [List.singleton_append, and_self, if_true, readRange_range hh.fromLine hh.fromLine_eq,
    readRange_range hh.toLine hh.toLine_eq, Option.bind_some, Option.map_some]
  rfl

/-- The byte that a sign is written as. -/
def Sign.byte : Sign → UInt8
  | .keep => AgentKit.byte ' '
  | .remove => AgentKit.byte '-'
  | .add => AgentKit.byte '+'

/-- A line that begins with a sign is read as such, and as what it says behind the sign. -/
theorem cons_entry {r : Remainder} (sign : Sign) (t : Bytes) :
    r.cons (sign.byte :: (t ++ [byte '\n'])) =
      some ⟨false, ⟨sign, if r.marked then t else t ++ [byte '\n']⟩ :: r.body, r.parts⟩ := by
  have hmark : sign.byte :: (t ++ [byte '\n']) ≠ noNewline := fun heq => by
    have hhead : some sign.byte = some (byte '\\') := congrArg List.head? heq
    cases sign <;> exact absurd hhead (by decide)
  have hat : (sign.byte :: (t ++ [byte '\n'])).head? ≠ some (byte '@') := by
    rw [List.head?_cons]
    cases sign <;> decide
  have hsign : Sign.ofByte sign.byte = some sign := by
    cases sign <;> rfl
  rw [Remainder.cons, if_neg hmark, if_neg hat, Entry.read, List.getLast?_concat, if_pos rfl, hsign,
    List.dropLast_concat]
  rfl

/-- How a line is written: the sign, the text, and where there is no newline one that is taken back by a mark. -/
theorem Line.render_eq (l : Line) : l.render = l.sign.byte :: (Utf8.encodeAll l.text ++
    if l.text.getLast? = some '\n' then [] else Bytes.ofString "\n\\ No newline at end of file\n") := by
  cases l <;> rfl

theorem flat_encodeAll {t : List Char} (ht : '\n' ∉ t) : (Utf8.encodeAll t).Flat :=
  Bytes.flat_flatMap fun _ hc => Utf8.flat_encode fun heq => ht (heq ▸ hc)

theorem flat_sign (sign : Sign) {t : Bytes} (ht : t.Flat) : Bytes.Flat (sign.byte :: t) :=
  Bytes.flat_cons.mpr ⟨by cases sign <;> decide, ht⟩

/-- A line is read as it was written. -/
theorem readParts_line {l : Line} {body : List Entry} {parts : List Part} (hl : IsLine l.text)
    (hrest : readParts (Bytes.lines rest) = some ⟨false, body, parts⟩) :
    readParts (Bytes.lines (l.render ++ rest)) = some ⟨false, l.entry :: body, parts⟩ := by
  obtain ⟨t, ht, htext⟩ := hl
  have hflat := flat_sign l.sign (flat_encodeAll ht)
  rw [Line.render_eq, Line.entry]
  -- Either the line has a newline, or it is the mark that comes next and the newline before it is not part of
  -- the line.
  rcases htext with htext | ⟨hne, htext⟩
  · have hbytes : Utf8.encodeAll l.text = Utf8.encodeAll t ++ [byte '\n'] := by
      rw [htext, Utf8.encodeAll_append]
      rfl
    have hlines : Bytes.lines (l.sign.byte :: (Utf8.encodeAll t ++ [byte '\n']) ++ rest) =
        (l.sign.byte :: (Utf8.encodeAll t ++ [byte '\n'])) :: Bytes.lines rest := by
      rw [List.cons_append, List.append_assoc, List.singleton_append, ← List.cons_append,
        Bytes.lines_flat hflat, List.cons_append]
    rw [if_pos (by rw [htext, List.getLast?_concat]), List.append_nil, hbytes, hlines, readParts, hrest,
      Option.bind_some, cons_entry]
    rfl
  · have hlast : l.text.getLast? ≠ some '\n' := fun heq => ht (htext ▸ List.mem_of_getLast? heq)
    have hlines : Bytes.lines (l.sign.byte :: (Utf8.encodeAll t ++
        Bytes.ofString "\n\\ No newline at end of file\n") ++ rest) =
        (l.sign.byte :: (Utf8.encodeAll t ++ [byte '\n'])) :: noNewline :: Bytes.lines rest := by
      have hsplit : l.sign.byte :: (Utf8.encodeAll t ++
          Bytes.ofString "\n\\ No newline at end of file\n") ++ rest =
          l.sign.byte :: Utf8.encodeAll t ++ byte '\n' ::
            (Bytes.ofString "\\ No newline at end of file" ++ byte '\n' :: rest) := by
        rw [show Bytes.ofString "\n\\ No newline at end of file\n" =
          byte '\n' :: (Bytes.ofString "\\ No newline at end of file" ++ [byte '\n']) by decide]
        simp only [List.cons_append, List.append_assoc, List.nil_append]
      rw [hsplit, Bytes.lines_flat hflat, Bytes.lines_flat (by decide), List.cons_append]
      rfl
    rw [if_neg hlast, htext, hlines, readParts, readParts, hrest, Option.bind_some, Remainder.cons, if_pos rfl,
      if_neg Bool.false_ne_true, Option.bind_some, cons_entry]
    rfl

/-- And so are the lines of a hunk. -/
theorem readParts_lines : ∀ {ls : List Line} {body : List Entry} {parts : List Part},
    (∀ l ∈ ls, IsLine l.text) → readParts (Bytes.lines rest) = some ⟨false, body, parts⟩ →
    readParts (Bytes.lines (ls.flatMap Line.render ++ rest)) = some ⟨false, ls.map Line.entry ++ body, parts⟩
  | [], _, _, _, hrest => hrest
  | l :: ls, _, _, hls, hrest => by
    rw [List.flatMap_cons, List.append_assoc]
    exact readParts_line (hls l List.mem_cons_self)
      (readParts_lines (fun m hm => hls m (List.mem_cons_of_mem _ hm)) hrest)

theorem flat_range (hf : 1 ≤ first) : (range first count).Flat :=
  notMem_range hf (by decide) (by decide)

/-- A head closes the hunk whose lines have been read. -/
theorem cons_head {l : Bytes} {head : Head} {body : List Entry} {parts : List Part}
    (hat : l.head? = some (byte '@')) (hl : Head.read l = some head) :
    Remainder.cons ⟨false, body, parts⟩ l = some ⟨false, [], ⟨head, body⟩ :: parts⟩ := by
  have hmark : l ≠ noNewline := by
    rintro rfl
    exact absurd hat (by decide)
  rw [Remainder.cons, if_neg hmark, if_pos hat, if_neg Bool.false_ne_true, hl]
  rfl

/-- A hunk is read as it was written. -/
theorem readParts_hunk {parts : List Part} (hh : Legible h)
    (hrest : readParts (Bytes.lines rest) = some ⟨false, [], parts⟩) :
    readParts (Bytes.lines (h.render ++ rest)) = some ⟨false, [], h.part :: parts⟩ := by
  have hbody := readParts_lines hh.lines hrest
  have hflat : Bytes.Flat
      ("@@ -" ++ range h.fromLine h.fromCount ++ " +" ++ range h.toLine h.toCount ++ " @@") := by
    simp only [Bytes.flat_append, flat_range hh.fromLine, flat_range hh.toLine, and_true]
    decide
  have hline : Bytes.ofString " @@\n" = Bytes.ofString " @@" ++ [byte '\n'] := by decide
  have hhead := head_read hh
  rw [hline, ← List.append_assoc] at hhead
  rw [Hunk.render, hline, ← List.append_assoc, List.append_assoc, List.append_assoc, List.singleton_append,
    Bytes.lines_flat hflat, readParts, hbody, Option.bind_some, cons_head rfl hhead, List.append_nil]
  rfl

/-- And all hunks. -/
theorem readParts_hunks : ∀ {hs : List Hunk}, (∀ h ∈ hs, Legible h) →
    readParts (Bytes.lines (hs.flatMap Hunk.render)) = some ⟨false, [], hs.map Hunk.part⟩
  | [], _ => rfl
  | h :: hs, hall => by
    rw [List.flatMap_cons]
    exact readParts_hunk (hall h List.mem_cons_self)
      (readParts_hunks fun g hg => hall g (List.mem_cons_of_mem _ hg))

theorem readName_append (start name : Bytes) : readName start (start ++ name ++ [byte '\n']) = some name := by
  have hstart : start.isPrefixOf (start ++ name ++ [byte '\n']) = true := by
    rw [List.isPrefixOf_iff_prefix, List.append_assoc]
    exact List.prefix_append _ _
  rw [readName, if_pos ⟨hstart, List.getLast?_concat⟩, List.append_assoc, List.drop_left, List.dropLast_concat]

/-- **A diff is read as it was written**: the names, and each hunk. -/
theorem read_render {oldName newName : Bytes} (hold : oldName.Flat) (hnew : newName.Flat) (hne : hs ≠ [])
    (hall : ∀ h ∈ hs, Legible h) :
    Diff.read (render oldName newName hs) = some ⟨oldName, newName, hs.map Hunk.part⟩ := by
  have hrender : render oldName newName hs = ("--- " ++ oldName) ++ byte '\n' ::
      (("+++ " ++ newName) ++ byte '\n' :: hs.flatMap Hunk.render) := by
    cases hs with
    | nil => exact absurd rfl hne
    | cons h hs =>
      rw [render, show Bytes.ofString "\n+++ " = byte '\n' :: Bytes.ofString "+++ " by decide,
        show Bytes.ofString "\n" = [byte '\n'] by decide]
      · simp only [List.append_assoc, List.cons_append, List.nil_append]
      · exact List.cons_ne_nil h hs
  have hflat : ∀ {start name : Bytes}, start.Flat → name.Flat → (start ++ name).Flat := fun hs hn =>
    Bytes.flat_append.mpr ⟨hs, hn⟩
  rw [Diff.read, hrender, Bytes.lines_flat (hflat (by decide) hold), Bytes.lines_flat (hflat (by decide) hnew)]
  simp only [readName_append, readParts_hunks hall]

end AgentKit.Patch
