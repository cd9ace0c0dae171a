import AgentKit.Display
import AgentKit.Proofs.Diagnostics
import Mathlib.Algebra.BigOperators.Group.Finset.Basic
import Mathlib.Data.List.Fold
/-!
# The columns of a table

A table is written as text with tabs and newlines, and only then read back into cells and laid out.  Two
things can go wrong on the way: a cell that holds one of the marks is read as several, and a column whose
lines do not all reach it is cut into stretches of different widths.  Neither happens when the cells are
**plain** and every row has a cell for each header.  Then a column is as wide as its widest cell, from the
header down, and each cell starts where the columns before it end.

1. **Spaces keep characters apart** (`Utf8.runes_append_ascii`), for any bytes at all: no character that a cell
   leaves unfinished is finished by the padding.
2. `InColumns`: a line that shows its cells where the columns start.
3. Reading a row of plain cells gives the cells (`foldl_read_row`).
4. A column that every line reaches has one width (`stretchMax_full`), so all lines are laid out alike
   (`layOut_full`).
5. A line with such padding has its cells in columns (`inColumns_padded`), and so **the columns of a table line
   up** (`write_table_inColumns`).

Widths are counted in characters and not in bytes, a stray byte being one character.  The line below the headers is
the exception: it has a dash for each byte of the header, so that it may be wider than the header and then it is the
line that decides on the width.

The layout knows nothing of tables.  It pads what ends with a tab, and a cell at the end of a line does not, so the
last column is never padded; and it takes the empty line behind the last newline for one more line, without cells.
Both show up in the statements below.
-/

namespace AgentKit

/-! ## 1. Characters across a border

Padding is made of spaces, which are characters of their own wherever they stand. -/

namespace Utf8

variable {b : UInt8}

theorem runes_replicate_append (hb : b.toNat < 0x80) (n : Nat) (rest : Bytes) :
    runes (List.replicate n b ++ rest) = List.replicate n (.char (Char.ofNat b.toNat)) ++ runes rest := by
  induction n with
  | zero => rfl
  | succ n ih =>
    rw [List.replicate_succ, List.cons_append, runes_cons_ascii hb, ih, List.replicate_succ, List.cons_append]

theorem runes_replicate (hb : b.toNat < 0x80) (n : Nat) :
    runes (List.replicate n b) = List.replicate n (.char (Char.ofNat b.toNat)) := by
  simpa [runes, runesFrom] using runes_replicate_append hb n []

end Utf8

namespace Table

open Utf8 (runes)

/-! ## 2. What the columns of a table are

The specification.  It does not mention padding, only where cells are found in a line. -/

/-- A text that stays one cell: it has none of the bytes that end a cell, a line or a column, nor the one that
starts a literal stretch. -/
def Plain (t : Bytes) : Prop :=
  ∀ b ∈ t, b ≠ byte '\t' ∧ b ≠ byte '\n' ∧ b ≠ 0x0B ∧ b ≠ 0x0C ∧ b ≠ 0xFF

instance (t : Bytes) : Decidable (Plain t) := inferInstanceAs (Decidable (∀ b ∈ t, _))

/-- The cells of a table, line by line.  Below a header stands a dash for each of its bytes. -/
def grid (headers : List Bytes) (rows : List (List Bytes)) : List (List Bytes) :=
  headers :: headers.map (fun h => List.replicate h.length (byte '-')) :: rows

/-- The width of the widest cell in column `j`. -/
def columnWidth (lines : List (List Bytes)) (j : Nat) : Nat :=
  (lines.map fun cells => Utf8.length (cells.getD j [])).foldr max 0

/-- Where column `j` starts: behind the columns before it, two spaces after each. -/
def offset (width : Nat → Nat) (j : Nat) : Nat := ∑ k ∈ Finset.range j, (width k + 2)

/-- The spaces between a cell and the next column. -/
def gap (width : Nat) (cell : Bytes) : Bytes := List.replicate (width + 2 - Utf8.length cell) (byte ' ')

/-- The line shows cells in columns of these widths.  A cell stands there as it is, with its own characters,
behind as many characters as its column's start says; spaces reach from it to the next column, and nothing is
behind the last. -/
structure InColumns (width : Nat → Nat) (cells : List Bytes) (line : Bytes) : Prop where
  nothing : cells = [] → line = []
  cell : ∀ j c, cells[j]? = some c → ∃ before behind, line = before ++ c ++ behind ∧
    runes line = runes before ++ runes c ++ runes behind ∧ Utf8.length before = offset width j ∧
    (j + 1 < cells.length → gap (width j) c <+: behind) ∧ (j + 1 = cells.length → behind = [])

/-- Seen from the second column, all is moved by the width of the first. -/
theorem offset_succ (width : Nat → Nat) (j : Nat) :
    offset width (j + 1) = width 0 + 2 + offset (fun k => width (k + 1)) j := by
  rw [offset, Finset.sum_range_succ', Nat.add_comm, offset]

theorem columnWidth_tail (lines : List (List Bytes)) (j : Nat) :
    columnWidth (lines.map List.tail) j = columnWidth lines (j + 1) := by
  have htail : ∀ cells : List Bytes, cells.tail.getD j [] = cells.getD (j + 1) [] := by
    intro cells
    cases cells <;> rfl
  simp only [columnWidth, List.map_map, Function.comp_def, htail]

/-- No cell is wider than its column. -/
theorem length_le_columnWidth {lines : List (List Bytes)} {cells : List Bytes} (h : cells ∈ lines) {j : Nat}
    {c : Bytes} (hc : cells[j]? = some c) : Utf8.length c ≤ columnWidth lines j := by
  have hmem : Utf8.length c ∈ lines.map fun cells => Utf8.length (cells.getD j []) :=
    List.mem_map.mpr ⟨cells, h, by rw [List.getD_eq_getElem?_getD, hc, Option.getD_some]⟩
  exact List.le_max_of_le hmem (Nat.le_refl _)

/-- A line of cells, each but the last with its gap. -/
def padded (width : Nat → Nat) : List Bytes → Bytes
  | [] => []
  | [c] => c
  | c :: d :: cells => c ++ gap (width 0) c ++ padded (fun k => width (k + 1)) (d :: cells)

/-! ## 3. Reading rows

The reader goes over the bytes one by one and keeps the cells of the line and the lines so far.  Cells in
brackets of the mark `0xFF` are taken literally, which never happens to plain cells, so `literal` is false
throughout. -/

/-- A text as a cell. -/
def cellOf (t : Bytes) : Cell := ⟨t, Utf8.length t⟩

/-- The cells that a row is read as: a row without any is one empty cell. -/
def orBlank : List Bytes → List Bytes
  | [] => [[]]
  | c :: cells => c :: cells

/-- A plain text is collected, byte after byte. -/
theorem foldl_read_plain {t : Bytes} (h : Plain t) (s : State) (hs : s.literal = false) :
    t.foldl State.read s = { s with pending := t.reverse ++ s.pending } := by
  induction t generalizing s with
  | nil => rfl
  | cons b t ih =>
    obtain ⟨htab, hnewline, hvertical, hfeed, hmark⟩ := h b List.mem_cons_self
    have hread : s.read b = { s with pending := b :: s.pending } := by
      rw [State.read, hs]
      simp [htab, hnewline, hvertical, hfeed, hmark]
    have hrest : Plain t := fun x hx => h x (List.mem_cons_of_mem _ hx)
    rw [List.foldl_cons, hread, ih hrest { s with pending := b :: s.pending } hs]
    simp

variable {blocks : List (List (List Cell))} {lines : List (List Cell)} {acc : List Cell} {pending : Bytes}

theorem read_tab : State.read ⟨blocks, lines, acc, {}, pending, false⟩ (byte '\t') =
    ⟨blocks, lines, cellOf pending.reverse :: acc, {}, [], false⟩ := by
  simp [State.read, State.settle, State.endCell, cellOf]

theorem read_newline : State.read ⟨blocks, lines, acc, {}, pending, false⟩ (byte '\n') =
    ⟨blocks, (cellOf pending.reverse :: acc).reverse :: lines, [], {}, [], false⟩ := by
  simp [State.read, State.settle, State.endCell, State.endLine, cellOf, show byte '\n' ≠ byte '\t' by decide,
    show byte '\n' ≠ 0x0B by decide]

theorem row_singleton (c : Bytes) : row [c] = c ++ [byte '\n'] := by
  simp [row, Bytes.joinWith, List.intercalate, show Bytes.ofString "\n" = [byte '\n'] from rfl]

theorem row_cons_cons (c d : Bytes) (cells : List Bytes) :
    row (c :: d :: cells) = c ++ byte '\t' :: row (d :: cells) := by
  simp [row, Bytes.joinWith_cons_cons, show Bytes.ofString "\t" = [byte '\t'] from rfl]

theorem row_orBlank (cells : List Bytes) : row (orBlank cells) = row cells := by
  cases cells <;> rfl

/-- **A row of plain cells is read as a line of these cells.** -/
theorem foldl_read_row {c : Bytes} {cells : List Bytes} (h : ∀ x ∈ c :: cells, Plain x) :
    (row (c :: cells)).foldl State.read ⟨blocks, lines, acc, {}, [], false⟩ =
      ⟨blocks, (acc.reverse ++ (c :: cells).map cellOf) :: lines, [], {}, [], false⟩ := by
  have hc := h c List.mem_cons_self
  induction cells generalizing c acc with
  | nil =>
    rw [row_singleton, List.foldl_append, foldl_read_plain hc _ rfl, List.foldl_cons, read_newline]
    simp
  | cons d cells ih =>
    have hrest : ∀ x ∈ d :: cells, Plain x := fun x hx => h x (List.mem_cons_of_mem _ hx)
    rw [row_cons_cons, List.foldl_append, foldl_read_plain hc _ rfl, List.foldl_cons, read_tab,
      ih hrest (hrest d List.mem_cons_self)]
    simp

/-- All rows.  One without cells is only a newline, which is read as one empty cell. -/
theorem foldl_read_rows {g : List (List Bytes)} (h : ∀ cells ∈ g, ∀ c ∈ cells, Plain c) :
    (g.flatMap row).foldl State.read ⟨blocks, lines, [], {}, [], false⟩ =
      ⟨blocks, (g.map fun cells => (orBlank cells).map cellOf).reverse ++ lines, [], {}, [], false⟩ := by
  induction g generalizing lines with
  | nil => rfl
  | cons cells g ih =>
    have hread : (row cells).foldl State.read ⟨blocks, lines, [], {}, [], false⟩ =
        ⟨blocks, (orBlank cells).map cellOf :: lines, [], {}, [], false⟩ := by
      rw [← row_orBlank]
      cases cells with
      | nil => exact foldl_read_row (by simp [Plain])
      | cons c cells => exact foldl_read_row (h _ List.mem_cons_self)
    rw [List.flatMap_cons, List.foldl_append, hread, ih fun cells hcells => h cells (List.mem_cons_of_mem _ hcells)]
    simp

/-- The newline behind the last row starts one more line, which has no cells. -/
theorem aligned_rows {g : List (List Bytes)} (h : ∀ cells ∈ g, ∀ c ∈ cells, Plain c) :
    aligned (g.flatMap row) = block ((g.map fun cells => (orBlank cells).map cellOf) ++ [[]]) := by
  have hread : (g.flatMap row).foldl State.read {} = _ := foldl_read_rows h
  rw [aligned, hread]
  simp [State.finish, State.settle, State.endLine, State.endBlock, blocksText]

/-! ## 4. Layout

The width of a column is found for each line as the largest in the stretch around it: the larger of the maximum
so far and the maximum from there on, each ended by a line that does not reach the column.  Where all lines reach
it there is one stretch. -/

theorem length_runningMax (sofar : Option Nat) (ws : List (Option Nat)) :
    (runningMax sofar ws).length = ws.length := by
  fun_induction runningMax sofar ws with
  | case1 => rfl
  | case2 _ t ih => simp [ih]
  | case3 _ w t m ih => simp [ih]

/-- A place without a number separates what is before it from what is behind it. -/
theorem runningMax_append_none (sofar : Option Nat) (ws vs : List (Option Nat)) :
    runningMax sofar (ws ++ none :: vs) = runningMax sofar ws ++ none :: runningMax none vs := by
  fun_induction runningMax sofar ws with
  | case1 => rfl
  | case2 _ t ih => rw [List.cons_append, runningMax, ih, List.cons_append]
  | case3 _ w t m ih => rw [List.cons_append, runningMax, ih, List.cons_append]

/-- The last place has the maximum of all. -/
theorem runningMax_concat (sofar : Option Nat) (ws : List Nat) (w : Nat) :
    runningMax sofar (ws.map some ++ [some w]) =
      runningMax sofar (ws.map some) ++ [some (max (ws.foldl max (sofar.getD 0)) w)] := by
  induction ws generalizing sofar with
  | nil => rfl
  | cons v ws ih =>
    rw [List.map_cons, List.cons_append, runningMax, ih, runningMax]
    rfl

/-- Read from the end, the largest number so far is the largest of those still to come. -/
theorem reverse_runningMax_cons (w : Nat) (ws : List Nat) :
    (runningMax none ((w :: ws).map some).reverse).reverse =
      some (max w (ws.foldr max 0)) :: (runningMax none (ws.map some).reverse).reverse := by
  have hmax : ws.reverse.foldl max 0 = ws.foldr max 0 := by
    rw [List.foldl_reverse]
    exact congrArg (fun f => ws.foldr f 0) (funext fun _ => funext fun _ => Nat.max_comm _ _)
  rw [List.map_cons, List.reverse_cons, ← List.map_reverse, runningMax_concat, Option.getD_none, hmax, Nat.max_comm,
    List.reverse_append]
  rfl

/-- The largest number up to a place and the largest from there on: the larger of both is the same everywhere. -/
theorem zipWith_larger (a : Nat) (ws : List Nat) :
    List.zipWith larger (runningMax (some a) (ws.map some)) (runningMax none (ws.map some).reverse).reverse =
      ws.map fun _ => some (max a (ws.foldr max 0)) := by
  -- `a` stands for the numbers before these, and so changes from place to place.
  induction ws generalizing a with
  | nil => rfl
  | cons w ws ih =>
    have hhere : max (max a w) (max w (ws.foldr max 0)) = max a (max w (ws.foldr max 0)) := by omega
    rw [reverse_runningMax_cons, List.map_cons, runningMax, List.zipWith_cons_cons, Option.getD_some, ih, larger,
      List.map_cons, List.foldr_cons, hhere, Nat.max_assoc]

/-- **A column that every line but the last one reaches has one width.** -/
theorem stretchMax_full (ws : List Nat) :
    stretchMax (ws.map some ++ [none]) = (ws.map fun _ => some (ws.foldr max 0)) ++ [none] := by
  have hsofar : runningMax none (ws.map some) = runningMax (some 0) (ws.map some) := by
    cases ws <;> rfl
  have hback : runningMax none (ws.map some ++ [none]).reverse = none :: runningMax none (ws.map some).reverse := by
    rw [List.reverse_append, List.reverse_singleton, List.singleton_append, runningMax]
  rw [stretchMax, runningMax_append_none, hback, List.reverse_cons,
    List.zipWith_append (by simp [length_runningMax]), hsofar, zipWith_larger]
  simp [runningMax, larger]

/-- A column that no line reaches has no width. -/
theorem stretchMax_none (n : Nat) : stretchMax (List.replicate n none) = List.replicate n none := by
  have hnone : runningMax none (List.replicate n none) = List.replicate n none := by
    induction n with
    | zero => rfl
    | succ n ih => rw [List.replicate_succ, runningMax, ih]
  rw [stretchMax, List.reverse_replicate, hnone, List.reverse_replicate, List.zipWith_replicate, Nat.min_self]
  rfl

theorem padFirst_none (line : List Cell) : padFirst none line = ([], line) := by
  cases line <;> rfl

/-- Lines without padded cells are written as they are, however many columns are looked at. -/
theorem layOut_of_single {lines : List (List Cell)} (h : ∀ l ∈ lines, paddedWidth? l = none) (m : Nat) :
    layOut m lines = lines.map fun l => l.flatMap (·.text) := by
  have hparts : List.zipWith padFirst (stretchMax (lines.map paddedWidth?)) lines =
      lines.map fun l => ([], l) := by
    rw [List.map_congr_left h, List.map_const', stretchMax_none, ← List.map_const', List.zipWith_map_left,
      List.zipWith_self]
    exact List.map_congr_left fun l _ => padFirst_none l
  induction m with
  | zero => rfl
  | succ m ih =>
    have hrest : (lines.map fun l => (([] : Bytes), l)).map (·.2) = lines := by simp
    rw [layOut, hparts, hrest, ih, List.zipWith_map, List.zipWith_self]
    rfl

/-- The first column of lines that all go on behind it: each has its cell and the gap, and then what the
remaining columns give. -/
theorem layOut_column {g : List (List Bytes)} (hg : ∀ cells ∈ g, ∃ c d rest, cells = c :: d :: rest) (m : Nat) :
    layOut (m + 1) (g.map (List.map cellOf) ++ [[]]) =
      List.zipWith (· ++ ·)
        ((g.map fun cells => cells.getD 0 [] ++ gap (columnWidth g 0) (cells.getD 0 [])) ++ [[]])
        (layOut m ((g.map List.tail).map (List.map cellOf) ++ [[]])) := by
  have hwidths : (g.map (List.map cellOf) ++ [[]]).map paddedWidth? =
      (g.map fun cells => Utf8.length (cells.getD 0 [])).map some ++ [none] := by
    rw [List.map_append, List.map_map, List.map_map]
    refine congrArg (· ++ [none]) (List.map_congr_left fun cells hcells => ?_)
    obtain ⟨c, d, rest, rfl⟩ := hg cells hcells
    rfl
  have hparts : List.zipWith padFirst (stretchMax ((g.map (List.map cellOf) ++ [[]]).map paddedWidth?))
        (g.map (List.map cellOf) ++ [[]]) =
      (g.map fun cells => (cells.getD 0 [] ++ gap (columnWidth g 0) (cells.getD 0 []), cells.tail.map cellOf)) ++
        [([], [])] := by
    rw [hwidths, stretchMax_full, List.map_map, List.zipWith_append (by simp), List.zipWith_map, List.zipWith_self]
    refine congrArg (· ++ [([], [])]) (List.map_congr_left fun cells hcells => ?_)
    obtain ⟨c, d, rest, rfl⟩ := hg cells hcells
    rfl
  rw [layOut, hparts, List.map_append, List.map_map, List.map_map, ← List.zipWith_map_left, List.map_append,
    List.map_map]
  rfl

/-- **Lines that all have as many cells are padded alike**, each cell to the width of its column. -/
theorem layOut_full {n m : Nat} {g : List (List Bytes)} (hm : n ≤ m) (hg : ∀ cells ∈ g, cells.length = n + 1) :
    layOut m (g.map (List.map cellOf) ++ [[]]) = g.map (padded (columnWidth g)) ++ [[]] := by
  -- By induction on the number of columns: the first one is laid out and taken away.
  induction n generalizing m g with
  | zero =>
    rw [layOut_of_single, List.map_append, List.map_map]
    · refine congrArg (· ++ [[]]) (List.map_congr_left fun cells hcells => ?_)
      obtain ⟨c, rfl⟩ := List.length_eq_one_iff.mp (hg cells hcells)
      simp [padded, cellOf]
    · intro l hl
      rcases List.mem_append.mp hl with hl | hl
      · obtain ⟨cells, hcells, rfl⟩ := List.mem_map.mp hl
        obtain ⟨c, rfl⟩ := List.length_eq_one_iff.mp (hg cells hcells)
        rfl
      · rw [List.mem_singleton.mp hl]
        rfl
  | succ n ih =>
    obtain ⟨m, rfl⟩ := Nat.exists_eq_add_one_of_ne_zero (Nat.ne_zero_of_lt hm)
    have hcons : ∀ cells ∈ g, ∃ c d rest, cells = c :: d :: rest := by
      intro cells hcells
      obtain ⟨c, t, rfl⟩ := List.exists_cons_of_length_eq_add_one (hg cells hcells)
      obtain ⟨d, rest, rfl⟩ := List.exists_cons_of_length_eq_add_one (Nat.succ.inj (hg _ hcells))
      exact ⟨c, d, rest, rfl⟩
    have htails : ∀ cells ∈ g.map List.tail, cells.length = n + 1 := by
      intro cells htail
      obtain ⟨cells, hcells, rfl⟩ := List.mem_map.mp htail
      rw [List.length_tail, hg cells hcells]
      rfl
    rw [layOut_column hcons, ih (Nat.le_of_add_le_add_right hm) htails, funext (columnWidth_tail g),
      List.zipWith_append (by simp), List.map_map, List.zipWith_map, List.zipWith_self]
    refine congrArg (· ++ [[]]) (List.map_congr_left fun cells hcells => ?_)
    obtain ⟨c, d, rest, rfl⟩ := hcons cells hcells
    rfl

theorem le_mostCells {lines : List (List Cell)} {l : List Cell} (h : l ∈ lines) : l.length ≤ mostCells lines := by
  rw [mostCells, List.foldl_eq_foldr]
  exact List.le_max_of_le (List.mem_map_of_mem h) (Nat.le_refl _)

/-- The empty line at the end is the newline behind the last one. -/
theorem joinWith_newline (lines : List Bytes) :
    Bytes.joinWith "\n" (lines ++ [[]]) = lines.flatMap (· ++ Bytes.ofString "\n") := by
  induction lines with
  | nil => rfl
  | cons line lines ih =>
    have hcons : ∃ t ts, lines ++ [[]] = t :: ts := List.exists_cons_of_ne_nil (by simp)
    obtain ⟨t, ts, hts⟩ := hcons
    rw [List.cons_append, hts, Bytes.joinWith_cons_cons, ← hts, ih, List.flatMap_cons, List.append_assoc]

/-! A row without cells is laid out like one empty cell. -/

theorem columnWidth_orBlank (g : List (List Bytes)) : columnWidth (g.map orBlank) = columnWidth g := by
  have hcell : ∀ (cells : List Bytes) (j : Nat), (orBlank cells).getD j [] = cells.getD j [] := by
    intro cells j
    cases cells with
    | nil => cases j <;> rfl
    | cons c cells => rfl
  funext j
  simp only [columnWidth, List.map_map, Function.comp_def, hcell]

theorem padded_orBlank (width : Nat → Nat) (cells : List Bytes) :
    padded width (orBlank cells) = padded width cells := by
  cases cells <;> rfl

theorem length_orBlank (cells : List Bytes) : (orBlank cells).length = cells.length - 1 + 1 := by
  cases cells <;> rfl

/-- **Plain rows of one length are written as padded lines.** -/
theorem aligned_full {n : Nat} {g : List (List Bytes)} (hne : g ≠ []) (hg : ∀ cells ∈ g, cells.length = n)
    (hplain : ∀ cells ∈ g, ∀ c ∈ cells, Plain c) :
    aligned (g.flatMap row) = (g.map (padded (columnWidth g))).flatMap (· ++ Bytes.ofString "\n") := by
  have hlength : ∀ cells ∈ g.map orBlank, cells.length = n - 1 + 1 := by
    intro cells hblank
    obtain ⟨cells, hcells, rfl⟩ := List.mem_map.mp hblank
    rw [length_orBlank, hg cells hcells]
  have hcolumns : n - 1 ≤ mostCells ((g.map orBlank).map (List.map cellOf) ++ [[]]) := by
    obtain ⟨cells, hcells⟩ := List.exists_mem_of_ne_nil g hne
    have hmem : (orBlank cells).map cellOf ∈ (g.map orBlank).map (List.map cellOf) ++ [[]] :=
      List.mem_append_left _ (List.mem_map_of_mem (List.mem_map_of_mem hcells))
    have hle := le_mostCells hmem
    rw [List.length_map, length_orBlank, hg cells hcells] at hle
    omega
  have hlines : (g.map fun cells => (orBlank cells).map cellOf) = (g.map orBlank).map (List.map cellOf) := by
    rw [List.map_map]
    rfl
  rw [aligned_rows hplain, hlines, block, layOut_full hcolumns hlength, joinWith_newline, columnWidth_orBlank,
    List.map_map]
  exact congrArg (List.flatMap _) (List.map_congr_left fun cells _ => padded_orBlank _ cells)

/-! ## 5. Places

What is left is to count characters.  A gap has at least two spaces if the cell is not wider than its column, so
it begins with a space, and no character reaches from the cell into it. -/

theorem ascii_space : (byte ' ').toNat < 0x80 := by decide

/-- A cell, its gap and what follows have their own characters. -/
theorem runes_gap {w : Nat} {c : Bytes} (h : Utf8.length c ≤ w) (rest : Bytes) :
    runes (c ++ (gap w c ++ rest)) = runes c ++ runes (gap w c ++ rest) := by
  obtain ⟨k, hk⟩ : ∃ k, w + 2 - Utf8.length c = k + 1 := ⟨w + 1 - Utf8.length c, by omega⟩
  rw [gap, hk, List.replicate_succ, List.cons_append]
  exact Utf8.runes_append_ascii ascii_space c _

theorem runes_gap_append (w : Nat) (c rest : Bytes) : runes (gap w c ++ rest) = runes (gap w c) ++ runes rest := by
  rw [gap, Utf8.runes_replicate_append ascii_space, Utf8.runes_replicate ascii_space]

/-- A cell and its gap are as wide as the column and two. -/
theorem length_gap {w : Nat} {c : Bytes} (h : Utf8.length c ≤ w) (rest : Bytes) :
    Utf8.length (c ++ (gap w c ++ rest)) = w + 2 + Utf8.length rest := by
  have hspaces : (runes (gap w c)).length = w + 2 - Utf8.length c := by
    rw [gap, Utf8.runes_replicate ascii_space, List.length_replicate]
  rw [Utf8.length, runes_gap h, runes_gap_append, List.length_append, List.length_append, hspaces, ← Utf8.length,
    ← Utf8.length]
  omega

/-- **A padded line has its cells in columns** that are wide enough for them. -/
theorem inColumns_padded {width : Nat → Nat} {cells : List Bytes}
    (h : ∀ j c, cells[j]? = some c → Utf8.length c ≤ width j) : InColumns width cells (padded width cells) := by
  fun_induction padded width cells with
  | case1 => exact ⟨fun _ => rfl, by simp⟩
  | case2 width c =>
    refine ⟨by simp, fun j d hd => ?_⟩
    obtain ⟨rfl, rfl⟩ : j = 0 ∧ c = d := by
      cases j with
      | zero => exact ⟨rfl, Option.some.inj hd⟩
      | succ j => simp at hd
    exact ⟨[], [], by simp, (List.append_nil _).symm, rfl, by simp, fun _ => rfl⟩
  | case3 width c d cells ih =>
    have hc : Utf8.length c ≤ width 0 := h 0 c rfl
    refine ⟨by simp, fun j e he => ?_⟩
    rw [List.append_assoc]
    cases j with
    | zero =>
      obtain rfl : c = e := Option.some.inj he
      refine ⟨[], _, rfl, runes_gap hc _, rfl, fun _ => List.prefix_append _ _, by simp⟩
    | succ j =>
      obtain ⟨before, behind, hline, hrunes, hbefore, hgap, hlast⟩ :=
        (ih fun k x hx => h (k + 1) x hx).cell j e he
      refine ⟨c ++ (gap (width 0) c ++ before), behind, by rw [hline]; simp, ?_, ?_, fun hj => hgap ?_,
        fun hj => hlast ?_⟩
      · rw [runes_gap hc, runes_gap hc, runes_gap_append, runes_gap_append, hrunes]
        simp only [List.append_assoc]
      · rw [length_gap hc, hbefore, offset_succ]
      · exact Nat.lt_of_succ_lt_succ hj
      · exact Nat.succ.inj hj

theorem flat_of_plain {t : Bytes} (h : Plain t) : t.Flat := fun hmem => (h _ hmem).2.1 rfl

/-- Padding adds no newlines. -/
theorem flat_padded {cells : List Bytes} (h : ∀ c ∈ cells, Plain c) (width : Nat → Nat) :
    (padded width cells).Flat := by
  fun_induction padded width cells with
  | case1 => exact Bytes.flat_nil
  | case2 _ c => exact flat_of_plain (h c List.mem_cons_self)
  | case3 width c d cells ih =>
    have hgap : (gap (width 0) c).Flat := by
      intro hmem
      exact absurd (List.eq_of_mem_replicate hmem) (by decide)
    have hrest := ih fun x hx => h x (List.mem_cons_of_mem _ hx)
    exact Bytes.flat_append.mpr ⟨Bytes.flat_append.mpr ⟨flat_of_plain (h c List.mem_cons_self), hgap⟩, hrest⟩

theorem plain_dashes (n : Nat) : Plain (List.replicate n (byte '-')) := by
  intro b hb
  rw [List.eq_of_mem_replicate hb]
  decide

section

variable {headers : List Bytes} {rows : List (List Bytes)}

/-- Dashes are plain, so the whole grid is if headers and rows are. -/
theorem plain_grid (h : ∀ cells ∈ headers :: rows, ∀ c ∈ cells, Plain c) :
    ∀ cells ∈ grid headers rows, ∀ c ∈ cells, Plain c := by
  intro cells hcells c hc
  rcases List.mem_cons.mp hcells with rfl | hcells
  · exact h _ List.mem_cons_self c hc
  rcases List.mem_cons.mp hcells with rfl | hcells
  · obtain ⟨header, _, rfl⟩ := List.mem_map.mp hc
    exact plain_dashes _
  · exact h cells (List.mem_cons_of_mem _ hcells) c hc

theorem length_of_mem_grid (h : ∀ cells ∈ rows, cells.length = headers.length) :
    ∀ cells ∈ grid headers rows, cells.length = headers.length := by
  intro cells hcells
  rcases List.mem_cons.mp hcells with rfl | hcells
  · rfl
  rcases List.mem_cons.mp hcells with rfl | hcells
  · exact List.length_map _
  · exact h cells hcells

theorem length_grid : (grid headers rows).length = 2 + rows.length := by
  rw [grid, List.length_cons, List.length_cons]
  omega

theorem text_eq (headers : List Bytes) (rows : List (List Bytes)) :
    text headers rows = aligned ((grid headers rows).flatMap row) := by
  rw [text, grid, List.flatMap_cons, List.flatMap_cons, List.append_assoc]
  rfl

end

/-- **The columns of a table line up.**  A display that is not quiet writes a line for the headers, one that
underlines them and one for each row.  Every line has its cells where the columns start, and a column is as wide
as the widest of its cells, header and underline among them. -/
theorem write_table_inColumns (color : Bool) (headers : List Bytes) (rows : List (List Bytes))
    (hcells : ∀ cells ∈ rows, cells.length = headers.length)
    (hplain : ∀ cells ∈ headers :: rows, ∀ c ∈ cells, Plain c) :
    ∃ lines : List Bytes,
      Display.write ⟨color, false⟩ (.table headers rows) =
        ⟨lines.flatMap (· ++ Bytes.ofString "\n"), []⟩ ∧
      lines.length = 2 + rows.length ∧ (∀ line ∈ lines, line.Flat) ∧
      List.Forall₂ (InColumns (columnWidth (grid headers rows))) (grid headers rows) lines := by
  have hgrid := plain_grid hplain
  refine ⟨(grid headers rows).map (padded (columnWidth (grid headers rows))), ?_, ?_, ?_, ?_⟩
  · have hne : grid headers rows ≠ [] := List.cons_ne_nil _ _
    rw [← aligned_full hne (length_of_mem_grid hcells) hgrid, ← text_eq]
    rfl
  · rw [List.length_map, length_grid]
  · intro line hline
    obtain ⟨cells, hmem, rfl⟩ := List.mem_map.mp hline
    exact flat_padded (hgrid cells hmem) _
  · rw [List.forall₂_map_right_iff, List.forall₂_same]
    exact fun cells hmem => inColumns_padded fun j c hc => length_le_columnWidth hmem hc

/-- A header that is wider than the cells below it, and whose underline is wider still. -/
def wideHeaders : List Bytes := [Bytes.ofString "né", Bytes.ofString "q"]

/-- A row with an empty cell, and one with a character of two bytes. -/
def narrowRows : List (List Bytes) :=
  [[[], Bytes.ofString "abc"], [Bytes.ofString "x", Bytes.ofString "ü"]]

theorem write_table_inColumns_wideHeaders :
    (∀ cells ∈ narrowRows, cells.length = wideHeaders.length) ∧
    (∀ cells ∈ wideHeaders :: narrowRows, ∀ c ∈ cells, Plain c) ∧
    ∃ lines : List Bytes,
      Display.write ⟨true, false⟩ (.table wideHeaders narrowRows) =
        ⟨lines.flatMap (· ++ Bytes.ofString "\n"), []⟩ ∧
      lines.length = 2 + narrowRows.length ∧ (∀ line ∈ lines, line.Flat) ∧
      List.Forall₂ (InColumns (columnWidth (grid wideHeaders narrowRows))) (grid wideHeaders narrowRows) lines := by
  have hcells : ∀ cells ∈ narrowRows, cells.length = wideHeaders.length := by decide +kernel
  have hplain : ∀ cells ∈ wideHeaders :: narrowRows, ∀ c ∈ cells, Plain c := by decide +kernel
  exact ⟨hcells, hplain, write_table_inColumns true wideHeaders narrowRows hcells hplain⟩

example : text wideHeaders narrowRows = Bytes.ofString "né   q\n---  -\n     abc\nx    ü\n" := by
  decide +kernel

end Table

end AgentKit
