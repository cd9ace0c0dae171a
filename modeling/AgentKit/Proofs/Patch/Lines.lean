import AgentKit.Patch.Unified
import AgentKit.Proofs.Patch.Alignment
import Mathlib.Data.List.TakeWhile
/-!
# Edits of whole lines

The edits read off an alignment turn the old text into the new one (`edits_applied`), and so do the edits
of whole lines made from them (`lineEdits_applied`).  Counted in lines, these follow each other and turn
the lines of the old text into the lines of the new one (`lineEdits_lines`), which is all that laying out
hunks has to know of them.

Only the last edit can reach the end of a text whose last line has no newline: `LineScript` keeps that case
apart, because lines can be counted up to an offset only where a line ends.

1. Slices of a text.
2. **The edits between two texts** fill the gaps of an alignment (`gaps_applied`).
3. **Whole lines.**  An edit is widened to the lines that it begins and ends in, and edits that share a line are
   joined (`widenAll_applied`).
4. **Counted in lines** (`lineScript_lines`).

Every step here is of the same kind: the edits are changed and what they lead to is not.  So there is one function that says
what edits lead to (`applied`) and each step has one lemma about it, beside one about the order of the edits.  Along the
way it is kept that no edit is void (`Edit.Changes`), because a hunk has to end with a change.
-/

namespace AgentKit.Patch

/-! ## 1. Slices

A slice is what lies between two offsets.  It is written in two ways, as the program takes it and as the library
does. -/

section Extract

variable {α β : Type} {xs : List α} {i j k : Nat}

theorem map_extract (f : α → β) (xs : List α) (i j : Nat) :
    (xs.extract i j).map f = (xs.map f).extract i j := by
  rw [List.extract_eq_take_drop, List.extract_eq_take_drop, List.map_take, List.map_drop]

theorem extract_self (xs : List α) (i : Nat) : xs.extract i i = [] := by
  rw [List.extract_eq_take_drop, Nat.sub_self, List.take_zero]

theorem extract_append_extract (hij : i ≤ j) (hjk : j ≤ k) :
    xs.extract i j ++ xs.extract j k = xs.extract i k := by
  have hdrop : xs.drop j = (xs.drop i).drop (j - i) := by rw [List.drop_drop, Nat.add_sub_cancel' hij]
  have hlen : k - i = j - i + (k - j) := by omega
  rw [List.extract_eq_take_drop, List.extract_eq_take_drop, List.extract_eq_take_drop, hdrop, hlen,
    List.take_add]

/-- A slice and all that is behind it. -/
theorem extract_append_drop (hij : i ≤ j) : xs.extract i j ++ xs.drop j = xs.drop i := by
  have hdrop : xs.drop j = (xs.drop i).drop (j - i) := by rw [List.drop_drop, Nat.add_sub_cancel' hij]
  rw [List.extract_eq_take_drop, hdrop, List.take_append_drop]

theorem length_extract (hj : j ≤ xs.length) : (xs.extract i j).length = j - i := by
  rw [List.extract_eq_take_drop, List.length_take, List.length_drop]
  omega

/-- A slice that goes past the end stops there. -/
theorem extract_min (xs : List α) (i j : Nat) : xs.extract i (min j xs.length) = xs.extract i j := by
  rw [List.extract_eq_take_drop, List.extract_eq_take_drop]
  rcases Nat.le_total j xs.length with h | h
  · rw [Nat.min_eq_left h]
  · rw [Nat.min_eq_right h, List.take_of_length_le (by rw [List.length_drop]),
      List.take_of_length_le (by rw [List.length_drop]; omega)]

theorem mem_of_mem_extract {x : α} (hx : x ∈ xs.extract i j) : x ∈ xs := by
  rw [List.extract_eq_take_drop] at hx
  exact List.mem_of_mem_drop (List.mem_of_mem_take hx)

end Extract

variable {old new t : List Char} {i j k : Nat} {e f : Edit} {es : List Edit}

/-- The two ways come to the same. -/
theorem slice_eq (t : List Char) (i j : Nat) : slice t i j = t.extract i j := by
  rw [slice, List.extract_eq_take_drop, List.drop_take]

theorem slice_self (t : List Char) (i : Nat) : slice t i i = [] := by rw [slice_eq, extract_self]

theorem slice_zero (t : List Char) (j : Nat) : slice t 0 j = t.take j := rfl

theorem slice_length (t : List Char) (i : Nat) : slice t i t.length = t.drop i := by
  rw [slice, List.take_length]

theorem length_slice (hj : j ≤ t.length) : (slice t i j).length = j - i := by rw [slice_eq, length_extract hj]

theorem slice_append_slice (hij : i ≤ j) (hjk : j ≤ k) : slice t i j ++ slice t j k = slice t i k := by
  rw [slice_eq, slice_eq, slice_eq, extract_append_extract hij hjk]

theorem slice_append_drop (hij : i ≤ j) : slice t i j ++ t.drop j = t.drop i := by
  rw [slice_eq, extract_append_drop hij]

theorem getLast?_slice (hij : i < j) (hj : j ≤ t.length) : (slice t i j).getLast? = t[j - 1]? := by
  rw [List.getLast?_eq_getElem?, length_slice hj, slice, List.getElem?_drop,
    List.getElem?_take_of_lt (by omega), show i + (j - i - 1) = j - 1 by omega]

theorem mem_slice_of_getElem? {c : Char} (hi : i ≤ k) (hk : k < j) (h : t[k]? = some c) : c ∈ slice t i j := by
  refine List.mem_iff_getElem?.mpr ⟨k - i, ?_⟩
  rw [slice, List.getElem?_drop, Nat.add_sub_cancel' hi, List.getElem?_take_of_lt hk, h]

/-! ## 2. Edits between two texts

An edit replaces a slice of the old text.  Several of them are given by offsets in the old text, so they can be
made in any order. -/

/-- The text from offset `i` on, after the edits. -/
def applied (old : List Char) : Nat → List Edit → List Char
  | i, [] => old.drop i
  | i, e :: es => slice old i e.start ++ e.text ++ applied old e.stop es

/-- The edits lie from `i` up to `n`, one behind the other. -/
def InOrder (n : Nat) : Nat → List Edit → Prop
  | _, [] => True
  | i, e :: es => i ≤ e.start ∧ e.start ≤ e.stop ∧ e.stop ≤ n ∧ InOrder n e.stop es

theorem InOrder.mono {n : Nat} (h : InOrder n j es) (hij : i ≤ j) : InOrder n i es := by
  cases es with
  | nil => trivial
  | cons e es => exact ⟨Nat.le_trans hij h.1, h.2⟩

/-- What lies before the edits is not changed. -/
theorem slice_append_applied {n : Nat} (h : InOrder n j es) (hij : i ≤ j) :
    slice old i j ++ applied old j es = applied old i es := by
  cases es with
  | nil => exact slice_append_drop hij
  | cons e es =>
    rw [applied, applied, ← List.append_assoc, ← List.append_assoc, slice_append_slice hij h.1]

/-- A block that holds is a slice of both texts. -/
theorem Block.Holds.slices {d : Block} (h : d.Holds old.toArray new.toArray) :
    d.x.toNat + d.len.toNat ≤ old.length ∧ d.y.toNat + d.len.toNat ≤ new.length ∧
      slice old d.x.toNat (d.x.toNat + d.len.toNat) = slice new d.y.toNat (d.y.toNat + d.len.toNat) := by
  obtain ⟨hlen, hpair⟩ := h
  -- Character by character, with natural numbers for the offsets.
  have hchar : ∀ n < d.len.toNat, ∃ c, old[d.x.toNat + n]? = some c ∧ new[d.y.toNat + n]? = some c := by
    intro n hn
    have hfirst := hpair 0 (Int.le_refl 0) hlen
    obtain ⟨-, -, c, hc, hc'⟩ := hpair n (by omega) (by omega)
    rw [List.getElem?_toArray, show (d.x + n).toNat = d.x.toNat + n by have := hfirst.1; omega] at hc
    rw [List.getElem?_toArray, show (d.y + n).toNat = d.y.toNat + n by have := hfirst.2.1; omega] at hc'
    exact ⟨c, hc, hc'⟩
  obtain ⟨c, hc, hc'⟩ := hchar (d.len.toNat - 1) (by omega)
  have hx := (List.getElem?_eq_some_iff.mp hc).1
  have hy := (List.getElem?_eq_some_iff.mp hc').1
  refine ⟨by omega, by omega, List.ext_getElem? fun n => ?_⟩
  rw [slice_eq, slice_eq, List.extract_eq_take_drop, List.extract_eq_take_drop, Nat.add_sub_cancel_left,
    Nat.add_sub_cancel_left]
  by_cases hn : n < d.len.toNat
  · obtain ⟨c, hc, hc'⟩ := hchar n hn
    rw [List.getElem?_take_of_lt hn, List.getElem?_take_of_lt hn, List.getElem?_drop, List.getElem?_drop,
      hc, hc']
  · rw [List.getElem?_take_eq_none (Nat.le_of_not_lt hn), List.getElem?_take_eq_none (Nat.le_of_not_lt hn)]

/-- The gaps of an alignment lie one behind the other, and filling them gives the new text. -/
theorem gaps_applied : ∀ (ds : List Block) (i j : Nat), Alignment old.toArray new.toArray ds →
    (∀ d ∈ ds, (i : Int) ≤ d.x ∧ (j : Int) ≤ d.y) → i ≤ old.length → j ≤ new.length →
    InOrder old.length i (gaps old new i j ds) ∧ applied old i (gaps old new i j ds) = new.drop j
  | [], i, j, _, _, hi, hj => by
    rw [gaps]
    split
    · refine ⟨⟨Nat.le_refl i, hi, Nat.le_refl _, trivial⟩, ?_⟩
      rw [applied, applied, slice_self, slice_length, List.drop_length, List.nil_append, List.append_nil]
    · rename_i hend
      refine ⟨trivial, ?_⟩
      rw [applied, List.drop_eq_nil_of_le (by omega), List.drop_eq_nil_of_le (by omega)]
  | d :: ds, i, j, h, hfront, hi, hj => by
    obtain ⟨hbefore, hordered⟩ := List.pairwise_cons.mp h.ordered
    obtain ⟨hx, hy, hslice⟩ := (h.holds d List.mem_cons_self).slices
    have hd := hfront d List.mem_cons_self
    have hlen := (h.holds d List.mem_cons_self).1
    -- Behind the block, by induction.
    obtain ⟨horder, hrest⟩ := gaps_applied ds (d.x.toNat + d.len.toNat) (d.y.toNat + d.len.toNat)
      ⟨fun e he => h.holds e (List.mem_cons_of_mem _ he), hordered⟩
      (fun e he => by
        have := hbefore e he
        unfold Block.Before at this
        omega) hx hy
    -- The block itself is kept, so the rest may as well start in front of it.
    have hkeep : applied old d.x.toNat
        (gaps old new (d.x.toNat + d.len.toNat) (d.y.toNat + d.len.toNat) ds) = new.drop d.y.toNat := by
      rw [← slice_append_applied horder (Nat.le_add_right _ _), hrest, hslice,
        slice_append_drop (Nat.le_add_right _ _)]
    rw [gaps]
    split
    · refine ⟨⟨Nat.le_refl i, by dsimp only; omega, by dsimp only; omega,
        horder.mono (Nat.le_add_right _ _)⟩, ?_⟩
      rw [applied, slice_self, List.nil_append, hkeep, slice_append_drop (by omega)]
    · obtain rfl : i = d.x.toNat := by omega
      obtain rfl : j = d.y.toNat := by omega
      exact ⟨horder.mono (Nat.le_add_right _ _), hkeep⟩

/-- **The edits between two texts turn the first into the second.** -/
theorem edits_applied (old new : List Char) :
    InOrder old.length 0 (edits old new) ∧ applied old 0 (edits old new) = new := by
  unfold edits
  split
  · rename_i heq
    exact ⟨trivial, heq⟩
  · have h := align_alignment old.toArray new.toArray
    refine gaps_applied _ 0 0 h (fun d hd => ?_) (Nat.zero_le _) (Nat.zero_le _)
    obtain ⟨hlen, hpair⟩ := h.holds d hd
    have hfirst := hpair 0 (Int.le_refl 0) hlen
    rw [Int.add_zero, Int.add_zero] at hfirst
    exact ⟨hfirst.1, hfirst.2.1⟩

/-- The edit takes something away or puts something in. -/
def Edit.Changes (e : Edit) : Prop := e.start < e.stop ∨ e.text ≠ []

/-- Between two blocks that touch on both sides there is no gap, so no edit is void. -/
theorem gaps_changes : ∀ (ds : List Block) (i j : Nat), Alignment old.toArray new.toArray ds →
    ∀ e ∈ gaps old new i j ds, e.Changes
  | [], i, j, _, e, he => by
    rw [gaps] at he
    split at he
    · rename_i hgap
      cases List.mem_singleton.mp he
      refine hgap.imp_right fun hj => ?_
      rw [slice_length]
      simpa using hj
    · cases he
  | d :: ds, i, j, h, e, he => by
    have hrest := gaps_changes ds (d.x.toNat + d.len.toNat) (d.y.toNat + d.len.toNat)
      ⟨fun e he => h.holds e (List.mem_cons_of_mem _ he), (List.pairwise_cons.mp h.ordered).2⟩
    rw [gaps] at he
    split at he
    · rename_i hgap
      rcases List.mem_cons.mp he with rfl | he
      · refine hgap.imp_right fun hj => ?_
        have hy := (h.holds d List.mem_cons_self).slices.2.1
        refine List.ne_nil_of_length_pos ?_
        rw [length_slice (by omega)]
        omega
      · exact hrest e he
    · exact hrest e he

/-- No edit between two texts is void. -/
theorem edits_changes (old new : List Char) : ∀ e ∈ edits old new, e.Changes := by
  unfold edits
  split
  · simp
  · exact gaps_changes _ 0 0 (align_alignment _ _)

/-! ## 3. Whole lines

A line starts at the beginning of the text and behind every newline.  Widening an edit takes it back to the start
of its line, and on to the end of the line it ends in unless it ends a line already. -/

theorem atLineStart_iff : atLineStart t i = true ↔ i = 0 ∨ t[i - 1]? = some '\n' := by simp [atLineStart]

theorem endsLine_iff : endsLine t = true ↔ t = [] ∨ t.getLast? = some '\n' := by simp [endsLine]

/-- What ends with a newline ends a line, whatever is before it. -/
theorem endsLine_append (h : t.getLast? = some '\n') (s : List Char) : endsLine (s ++ t) = true := by
  rw [endsLine_iff, List.getLast?_append, h]
  exact Or.inr rfl

/-- A line starts where the text before it ends a line. -/
theorem atLineStart_iff_endsLine (hi : i ≤ t.length) : atLineStart t i = true ↔ endsLine (t.take i) = true := by
  rw [atLineStart_iff, endsLine_iff]
  rcases Nat.eq_zero_or_pos i with rfl | hpos
  · simp
  · have hne : t.take i ≠ [] := List.ne_nil_of_length_pos (by rw [List.length_take]; omega)
    rw [← slice_zero, getLast?_slice hpos hi, slice_zero]
    simp [hne, Nat.ne_of_gt hpos]

/-- What stands before an offset on its line, and what is before that. -/
theorem exists_lineBefore (t : List Char) (i : Nat) : ∃ front, t.take i = front ++ lineBefore t i ∧
    endsLine front = true ∧ '\n' ∉ lineBefore t i := by
  refine ⟨((t.take i).reverse.dropWhile (· ≠ '\n')).reverse, ?_, ?_, fun hmem => ?_⟩
  · rw [lineBefore, ← List.reverse_append, List.takeWhile_append_dropWhile, List.reverse_reverse]
  · rw [endsLine_iff, List.getLast?_reverse]
    have hhead := List.head?_dropWhile_not (· ≠ '\n') (t.take i).reverse
    cases hdrop : (t.take i).reverse.dropWhile (· ≠ '\n') with
    | nil => exact Or.inl rfl
    | cons c rest =>
      rw [hdrop] at hhead
      exact Or.inr (by simpa using hhead)
  · simpa using List.mem_takeWhile_imp (List.mem_reverse.mp hmem)

/-- What stands from an offset on in its line, and what is behind that. -/
theorem exists_lineBehind (t : List Char) (i : Nat) : ∃ rest, t.drop i = lineBehind t i ++ rest ∧
    (rest = [] ∧ '\n' ∉ lineBehind t i ∨ ∃ line, lineBehind t i = line ++ ['\n'] ∧ '\n' ∉ line) := by
  have hflat : '\n' ∉ (t.drop i).takeWhile (· ≠ '\n') := fun hmem => by
    simpa using List.mem_takeWhile_imp hmem
  have hsplit := List.takeWhile_append_dropWhile (p := (· ≠ '\n')) (l := t.drop i)
  have hhead := List.head?_dropWhile_not (· ≠ '\n') (t.drop i)
  unfold lineBehind
  dsimp only
  cases hdrop : (t.drop i).dropWhile (· ≠ '\n') with
  | nil =>
    rw [hdrop] at hsplit
    exact ⟨[], by rw [List.take_nil, List.append_nil, hsplit], Or.inl ⟨rfl, by simpa using hflat⟩⟩
  | cons c rest =>
    rw [hdrop] at hsplit hhead
    obtain rfl : c = '\n' := by simpa using hhead
    exact ⟨rest, by rw [List.append_assoc]; exact hsplit.symm, Or.inr ⟨_, rfl, hflat⟩⟩

/-- What stands before an offset on its line begins where a line starts, and no line starts inside it. -/
theorem lineBefore_spec (hi : i ≤ t.length) :
    lineBefore t i = slice t (i - (lineBefore t i).length) i ∧
      atLineStart t (i - (lineBefore t i).length) = true ∧
      ∀ j ≤ i, atLineStart t j = true → j ≤ i - (lineBefore t i).length := by
  obtain ⟨front, hsplit, hends, hflat⟩ := exists_lineBefore t i
  have hlen := congrArg List.length hsplit
  rw [List.length_append, List.length_take, Nat.min_eq_left hi] at hlen
  have hfront : i - (lineBefore t i).length = front.length := by omega
  have htake : t.take front.length = front := by
    rw [← Nat.min_eq_left (show front.length ≤ i by omega), ← List.take_take, hsplit, List.take_left]
  have hslice : lineBefore t i = slice t front.length i := by rw [slice, hsplit, List.drop_left]
  rw [hfront]
  refine ⟨hslice, ?_, fun j hj hline => Nat.le_of_not_lt fun hlt => hflat ?_⟩
  · rw [atLineStart_iff_endsLine (by omega), htake]
    exact hends
  · rw [hslice]
    exact mem_slice_of_getElem? (by omega) (by omega) ((atLineStart_iff.mp hline).resolve_left (by omega))

/-- What stands from an offset on in its line reaches up to the first newline, or to the end if there is
none. -/
theorem lineBehind_spec (hi : i ≤ t.length) :
    lineBehind t i = slice t i (i + (lineBehind t i).length) ∧ i + (lineBehind t i).length ≤ t.length ∧
      (i + (lineBehind t i).length = t.length ∧ '\n' ∉ t.drop i ∨
        (lineBehind t i).getLast? = some '\n' ∧ ∀ j, '\n' ∈ slice t i j → i + (lineBehind t i).length ≤ j) := by
  obtain ⟨rest, hsplit, hcases⟩ := exists_lineBehind t i
  have hlen := congrArg List.length hsplit
  rw [List.length_append, List.length_drop] at hlen
  have hslice : lineBehind t i = slice t i (i + (lineBehind t i).length) := by
    rw [slice_eq, List.extract_eq_take_drop, Nat.add_sub_cancel_left, hsplit, List.take_left]
  refine ⟨hslice, by omega, ?_⟩
  rcases hcases with ⟨rfl, hflat⟩ | ⟨line, hline, hflat⟩
  · rw [hsplit, List.append_nil]
    exact Or.inl ⟨by rw [List.length_nil] at hlen; omega, hflat⟩
  · refine Or.inr ⟨by rw [hline, List.getLast?_concat], fun j hj => Nat.le_of_not_lt fun hlt => hflat ?_⟩
    rw [hline, List.length_append, List.length_singleton] at hlt
    rw [slice_eq, List.extract_eq_take_drop, hsplit, hline, List.append_assoc,
      List.take_append_of_le_length (by omega)] at hj
    exact List.mem_of_mem_take hj

/-- `e'` is `e` with what stands around it on its first and on its last line. -/
structure Widened (old : List Char) (e e' : Edit) : Prop where
  start_le : e'.start ≤ e.start
  le_stop : e.stop ≤ e'.stop
  stop_le : e'.stop ≤ old.length
  text : e'.text = slice old e'.start e.start ++ e.text ++ slice old e.stop e'.stop
  start : atLineStart old e'.start = true
  first : ∀ i ≤ e.start, atLineStart old i = true → i ≤ e'.start
  stop : e'.stop = old.length ∨ atLineStart old e'.stop = true ∧ endsLine e'.text = true
  next : ∀ j, '\n' ∈ slice old e.stop j → e'.stop ≤ j ∧ atLineStart old e'.stop = true ∧ endsLine e'.text = true

/-- **Widening an edit.** -/
theorem widen_widened (h : e.start ≤ e.stop) (hn : e.stop ≤ old.length) : Widened old e (e.widen old) := by
  obtain ⟨hbefore, hstart, hfirst⟩ := lineBefore_spec (t := old) (i := e.start) (by omega)
  unfold Edit.widen
  dsimp only
  -- An edit that ends a line on both sides is not widened at its end.
  by_cases haligned : (atLineStart old e.stop && endsLine (lineBefore old e.start ++ e.text)) = true
  · obtain ⟨hstop, hends⟩ := Bool.and_eq_true_iff.mp haligned
    rw [if_pos haligned, List.append_nil, List.length_nil, Nat.add_zero]
    refine ⟨Nat.sub_le _ _, Nat.le_refl _, hn, ?_, hstart, hfirst, Or.inr ⟨hstop, hends⟩, fun j hj => ?_⟩
    · rw [← hbefore, slice_self, List.append_nil]
    · refine ⟨Nat.le_of_not_lt fun hlt => ?_, hstop, hends⟩
      rw [slice_eq, List.extract_eq_take_drop, Nat.sub_eq_zero_of_le (Nat.le_of_lt hlt)] at hj
      cases hj
  · rw [if_neg haligned]
    obtain ⟨hbehind, hle, hcases⟩ := lineBehind_spec hn
    have hclosed : (lineBehind old e.stop).getLast? = some '\n' →
        atLineStart old (e.stop + (lineBehind old e.stop).length) = true ∧
          endsLine (lineBefore old e.start ++ e.text ++ lineBehind old e.stop) = true := by
      intro hlast
      refine ⟨atLineStart_iff.mpr (Or.inr ?_), endsLine_append hlast _⟩
      have hpos : 0 < (lineBehind old e.stop).length :=
        List.length_pos_of_ne_nil fun hnil => by rw [hnil] at hlast; cases hlast
      rwa [hbehind, getLast?_slice (by omega) hle] at hlast
    refine ⟨Nat.sub_le _ _, Nat.le_add_right _ _, hle, by rw [← hbefore, ← hbehind], hstart, hfirst, ?_,
      fun j hj => ?_⟩
    · exact hcases.imp And.left fun hnext => hclosed hnext.1
    · rcases hcases with ⟨-, hflat⟩ | ⟨hlast, hnext⟩
      · rw [slice_eq, List.extract_eq_take_drop] at hj
        exact absurd (List.mem_of_mem_take hj) hflat
      · exact ⟨hnext j hj, hclosed hlast⟩

/-- Edits from `i` on that replace whole lines.  All but the last end where a line ends, on both sides; the
last may instead reach the end of the text. -/
def LineScript (old : List Char) : Nat → List Edit → Prop
  | _, [] => True
  | i, e :: es => i ≤ e.start ∧ e.start ≤ e.stop ∧ e.stop ≤ old.length ∧ atLineStart old e.start = true ∧
    (e.stop = old.length ∧ es = [] ∨
      atLineStart old e.stop = true ∧ endsLine e.text = true ∧ LineScript old e.stop es)

/-- Edits that are of whole lines already are left as they are. -/
theorem lineScript_of_aligned : ∀ (es : List Edit) (i : Nat), InOrder old.length i es →
    es.all (Edit.isAligned old) = true → LineScript old i es
  | [], _, _, _ => trivial
  | e :: es, i, ⟨hi, hle, hn, horder⟩, hall => by
    rw [List.all_cons, Bool.and_eq_true_iff] at hall
    obtain ⟨haligned, hall⟩ := hall
    simp only [Edit.isAligned, Bool.and_eq_true_iff] at haligned
    obtain ⟨⟨⟨-, hstart⟩, hstop⟩, hends⟩ := haligned
    exact ⟨hi, hle, hn, hstart, Or.inr ⟨hstop, hends, lineScript_of_aligned es e.stop horder hall⟩⟩

/-- A widened edit leads to the same text. -/
theorem Widened.applied {e' : Edit} (hw : Widened old e e') (hi : i ≤ e'.start) :
    slice old i e'.start ++ e'.text = slice old i e.start ++ e.text ++ slice old e.stop e'.stop := by
  rw [hw.text, ← List.append_assoc, ← List.append_assoc, slice_append_slice hi hw.start_le]

/-- Widened and joined edits replace whole lines and lead to the same text. -/
theorem widenAll_applied : ∀ (es : List Edit) (e : Edit) (i : Nat), InOrder old.length i (e :: es) →
    atLineStart old i = true →
    LineScript old i (widenAll old e es) ∧ applied old i (widenAll old e es) = applied old i (e :: es)
  | [], e, i, ⟨hi, hle, hn, _⟩, hline => by
    have hw := widen_widened hle hn
    have hfirst := hw.first i hi hline
    refine ⟨⟨hfirst, ?_, hw.stop_le, hw.start, ?_⟩, ?_⟩
    · exact Nat.le_trans hw.start_le (Nat.le_trans hle hw.le_stop)
    · exact hw.stop.imp (fun hend => ⟨hend, rfl⟩) fun hstop => ⟨hstop.1, hstop.2, trivial⟩
    · rw [widenAll, applied, applied, hw.applied hfirst, List.append_assoc, applied, applied,
        slice_append_drop hw.le_stop]
  | f :: rest, e, i, ⟨hi, hle, hn, horder⟩, hline => by
    rw [widenAll]
    split
    · -- There is a newline between the two edits, so they have no line in common.
      rename_i hnewline
      have hw := widen_widened hle hn
      have hfirst := hw.first i hi hline
      obtain ⟨hnext, hstop, hends⟩ := hw.next f.start (by simpa using hnewline)
      have horder' : InOrder old.length (e.widen old).stop (f :: rest) := ⟨hnext, horder.2⟩
      obtain ⟨hscript, happ⟩ := widenAll_applied rest f (e.widen old).stop horder' hstop
      refine ⟨⟨hfirst, ?_, hw.stop_le, hw.start, Or.inr ⟨hstop, hends, hscript⟩⟩, ?_⟩
      · exact Nat.le_trans hw.start_le (Nat.le_trans hle hw.le_stop)
      · rw [applied, happ, hw.applied hfirst, List.append_assoc, slice_append_applied horder' hw.le_stop]
        rfl
    · -- The two edits are on one line, and become one edit with what is between them.
      obtain ⟨hstart, hstop, hn', hrest⟩ := horder
      obtain ⟨hscript, happ⟩ := widenAll_applied rest
        ⟨e.start, f.stop, e.text ++ slice old e.stop f.start ++ f.text⟩ i
        ⟨hi, by dsimp only; omega, hn', hrest⟩ hline
      refine ⟨hscript, happ.trans ?_⟩
      simp only [applied, List.append_assoc]

/-- **The edits of whole lines turn the old text into the new one.** -/
theorem lineEdits_applied (old new : List Char) : LineScript old 0 (lineEdits old (edits old new)) ∧
    applied old 0 (lineEdits old (edits old new)) = new := by
  obtain ⟨horder, happ⟩ := edits_applied old new
  cases hes : edits old new with
  | nil =>
    rw [hes] at happ
    exact ⟨trivial, happ⟩
  | cons e es =>
    rw [hes] at horder happ
    rw [lineEdits]
    split
    · rename_i hall
      exact ⟨lineScript_of_aligned _ 0 horder hall, happ⟩
    · obtain ⟨hscript, hsame⟩ := widenAll_applied es e 0 horder rfl
      exact ⟨hscript, hsame.trans happ⟩

/-- Widening does not make an edit void. -/
theorem Widened.changes {e' : Edit} (hw : Widened old e e') (h : e.Changes) : e'.Changes := by
  refine h.imp (fun hlt => Nat.lt_of_le_of_lt hw.start_le (Nat.lt_of_lt_of_le hlt hw.le_stop)) fun hne hnil => ?_
  rw [hw.text, List.append_eq_nil_iff, List.append_eq_nil_iff] at hnil
  exact hne hnil.1.2

/-- Widening and joining only adds to an edit. -/
theorem widenAll_changes : ∀ (es : List Edit) (e : Edit) (i : Nat), InOrder old.length i (e :: es) →
    (∀ f ∈ e :: es, f.Changes) → ∀ f ∈ widenAll old e es, f.Changes
  | [], e, i, ⟨_, hle, hn, _⟩, h, f, hf => by
    cases List.mem_singleton.mp hf
    exact (widen_widened hle hn).changes (h e List.mem_cons_self)
  | g :: rest, e, i, ⟨hi, hle, hn, horder⟩, h, f, hf => by
    obtain ⟨he, hrest⟩ := List.forall_mem_cons.mp h
    rw [widenAll] at hf
    split at hf
    · rcases List.mem_cons.mp hf with rfl | hf
      · exact (widen_widened hle hn).changes he
      · exact widenAll_changes rest g e.stop horder hrest f hf
    · obtain ⟨hstart, hstop, hn', horder'⟩ := horder
      refine widenAll_changes rest ⟨e.start, g.stop, e.text ++ slice old e.stop g.start ++ g.text⟩ i
        ⟨hi, by dsimp only; omega, hn', horder'⟩ (List.forall_mem_cons.mpr ⟨?_, ?_⟩) f hf
      · rcases he with hlt | hne
        · exact Or.inl (by dsimp only; omega)
        · exact Or.inr (by simp [hne])
      · exact fun f' hf' => hrest f' (List.mem_cons_of_mem _ hf')

/-- No edit of whole lines is void. -/
theorem lineEdits_changes (old new : List Char) : ∀ e ∈ lineEdits old (edits old new), e.Changes := by
  have hchanges := edits_changes old new
  have horder := (edits_applied old new).1
  cases hes : edits old new with
  | nil => simp [lineEdits]
  | cons e es =>
    rw [hes] at hchanges horder
    rw [lineEdits]
    split
    · exact hchanges
    · exact widenAll_changes es e 0 horder hchanges

/-! ## 4. Counted in lines

The number of a line is the number of newlines before it.  Where a line starts this is also the number of lines
before it, and at the end of a text without a last newline it is one less. -/

/-- A line ends only at its end. -/
def IsLine (l : List Char) : Prop := ∃ body, '\n' ∉ body ∧ (l = body ++ ['\n'] ∨ body ≠ [] ∧ l = body)

theorem splitLines_cons {c : Char} (hc : c ≠ '\n') (t : List Char) :
    ∃ l ls, splitLines (c :: t) = (c :: l) :: ls ∧
      (splitLines t = [] ∧ l = [] ∧ ls = [] ∨ splitLines t = l :: ls) := by
  rw [splitLines, if_neg hc]
  cases splitLines t with
  | nil => exact ⟨[], [], rfl, Or.inl ⟨rfl, rfl, rfl⟩⟩
  | cons l ls => exact ⟨l, ls, rfl, Or.inr rfl⟩

/-- What a text is cut into are lines. -/
theorem isLine_of_mem_splitLines : ∀ {t l : List Char}, l ∈ splitLines t → IsLine l
  | [], l, h => by cases h
  | c :: t, l, h => by
    by_cases hc : c = '\n'
    · rw [splitLines, if_pos hc] at h
      rcases List.mem_cons.mp h with rfl | h
      · exact ⟨[], List.not_mem_nil, Or.inl (by rw [hc]; rfl)⟩
      · exact isLine_of_mem_splitLines h
    · obtain ⟨m, ls, heq, hcases⟩ := splitLines_cons hc t
      rw [heq] at h
      rcases hcases with ⟨-, rfl, rfl⟩ | hcons
      · obtain rfl := List.mem_singleton.mp h
        exact ⟨[c], by simpa using Ne.symm hc, Or.inr ⟨List.cons_ne_nil _ _, rfl⟩⟩
      · rcases List.mem_cons.mp h with rfl | h
        · obtain ⟨body, hbody, hm⟩ := isLine_of_mem_splitLines (hcons ▸ List.mem_cons_self)
          refine ⟨c :: body, by simpa using ⟨Ne.symm hc, hbody⟩, ?_⟩
          exact hm.imp (fun h => by rw [h]; rfl) fun h => ⟨List.cons_ne_nil _ _, by rw [h.2]⟩
        · exact isLine_of_mem_splitLines (hcons ▸ List.mem_cons_of_mem _ h)

theorem splitLines_eq_nil : ∀ {t : List Char}, splitLines t = [] ↔ t = []
  | [] => by simp [splitLines]
  | c :: t => by
    by_cases hc : c = '\n'
    · simp [splitLines, hc]
    · obtain ⟨l, ls, heq, -⟩ := splitLines_cons hc t
      simp [heq]

/-- The lines of a text that is put behind a newline are counted from there. -/
theorem splitLines_append : ∀ {s : List Char}, endsLine s = true → ∀ t : List Char,
    splitLines (s ++ t) = splitLines s ++ splitLines t
  | [], _, _ => rfl
  | c :: s, hs, t => by
    -- The rest still ends a line, if there is any.
    have hlast : s ≠ [] → endsLine s = true := fun hne => by
      rw [endsLine_iff] at hs ⊢
      exact Or.inr (by rw [← hs.resolve_left (List.cons_ne_nil _ _), List.getLast?_cons_of_ne_nil hne])
    rw [List.cons_append]
    by_cases hc : c = '\n'
    · rw [splitLines, if_pos hc, splitLines, if_pos hc, List.cons_append]
      by_cases hne : s = []
      · rw [hne]
        rfl
      · rw [splitLines_append (hlast hne)]
    · have hne : s ≠ [] := by
        rintro rfl
        rw [endsLine_iff] at hs
        exact hc (by simpa using hs)
      have ih := splitLines_append (hlast hne) t
      rw [splitLines, if_neg hc, splitLines, if_neg hc, ih]
      cases hsplit : splitLines s with
      | nil => exact absurd (splitLines_eq_nil.mp hsplit) hne
      | cons l ls => rfl

/-- There is a line for each newline, and one for what stands behind the last. -/
theorem length_splitLines : ∀ t : List Char,
    (splitLines t).length = t.count '\n' + if t ≠ [] ∧ t.getLast? ≠ some '\n' then 1 else 0
  | [] => rfl
  | c :: t => by
    have ih := length_splitLines t
    by_cases hne : t = []
    · subst hne
      by_cases hc : c = '\n'
      · simp [splitLines, hc]
      · simp [splitLines, hc]
    · rw [List.getLast?_cons_of_ne_nil hne]
      by_cases hc : c = '\n'
      · rw [splitLines, if_pos hc, List.length_cons, ih, hc, List.count_cons_self]
        simp only [ne_eq, hne, not_false_eq_true, reduceCtorEq, true_and]
        omega
      · obtain ⟨l, ls, heq, hcases⟩ := splitLines_cons hc t
        rw [heq, List.count_cons_of_ne hc]
        rcases hcases with ⟨hnil, -⟩ | hcons
        · exact absurd (splitLines_eq_nil.mp hnil) hne
        · rw [hcons] at ih
          simp only [ne_eq, hne, not_false_eq_true, reduceCtorEq, true_and] at ih ⊢
          exact ih

/-- The number of lines before a place where a line starts. -/
theorem lineNumber_eq (hi : i ≤ old.length) (h : atLineStart old i = true) :
    lineNumber old i = (splitLines (old.take i)).length := by
  have hends := endsLine_iff.mp ((atLineStart_iff_endsLine hi).mp h)
  rw [length_splitLines, if_neg fun hlast => hends.elim hlast.1 hlast.2, Nat.add_zero, lineNumber]

/-- The number of lines up to a place where a line ends. -/
theorem lineNumberBehind_eq (hi : i ≤ old.length) (h : i = old.length ∨ atLineStart old i = true) :
    lineNumberBehind old i = (splitLines (old.take i)).length := by
  unfold lineNumberBehind
  by_cases hend : i = old.length
  · rw [lineNumber, hend, List.take_length, length_splitLines]
    simp only [true_and]
  · rw [if_neg fun hlast => hend hlast.1, Nat.add_zero, lineNumber_eq hi (h.resolve_left hend)]

/-- A text may be cut where a line starts. -/
theorem splitLines_take_append_drop (h : i = old.length ∨ atLineStart old i = true) :
    splitLines (old.take i) ++ splitLines (old.drop i) = splitLines old := by
  rcases h with rfl | h
  · rw [List.take_length, List.drop_length, splitLines, List.append_nil]
  · rcases Nat.le_total i old.length with hi | hi
    · rw [← splitLines_append ((atLineStart_iff_endsLine hi).mp h), List.take_append_drop]
    · rw [List.take_of_length_le hi, List.drop_eq_nil_of_le hi, splitLines, List.append_nil]

theorem endsLine_slice (hij : i ≤ j) (hj : j ≤ old.length) (h : atLineStart old j = true) :
    endsLine (slice old i j) = true := by
  rcases Nat.lt_or_eq_of_le hij with hij | rfl
  · rw [endsLine_iff, getLast?_slice hij hj]
    exact Or.inr ((atLineStart_iff.mp h).resolve_left (Nat.ne_of_gt (Nat.lt_of_le_of_lt (Nat.zero_le i) hij)))
  · rw [slice_self]
    rfl

/-- The lines between two places where lines end are those of the slice between them. -/
theorem extract_splitLines (hij : i ≤ j) (hi : i ≤ old.length) (h : atLineStart old i = true)
    (h' : j = old.length ∨ atLineStart old j = true) :
    (splitLines old).extract (splitLines (old.take i)).length (splitLines (old.take j)).length =
      splitLines (slice old i j) := by
  have htake : splitLines (old.take j) = splitLines (old.take i) ++ splitLines (slice old i j) := by
    rw [← splitLines_append ((atLineStart_iff_endsLine hi).mp h), ← slice_zero, ← slice_zero,
      slice_append_slice (Nat.zero_le i) hij]
  rw [← splitLines_take_append_drop h', htake, List.extract_eq_take_drop, List.length_append,
    Nat.add_sub_cancel_left, List.append_assoc, List.drop_left, List.take_left]

/-- The lines behind such a place. -/
theorem drop_splitLines (h : i = old.length ∨ atLineStart old i = true) :
    (splitLines old).drop (splitLines (old.take i)).length = splitLines (old.drop i) := by
  rw [← splitLines_take_append_drop h, List.drop_left]

/-- The lines from number `i` on, after the edits. -/
def linesApplied (old : List Char) : Nat → List Edit → List (List Char)
  | i, [] => (splitLines old).drop i
  | i, e :: es => (splitLines old).extract i (lineNumber old e.start) ++ splitLines e.text ++
    linesApplied old (lineNumberBehind old e.stop) es

/-- Counted in lines, the edits lie from `i` on one behind the other, and each of them removes or adds a line. -/
def LinesInOrder (old : List Char) : Nat → List Edit → Prop
  | _, [] => True
  | i, e :: es => i ≤ lineNumber old e.start ∧ lineNumber old e.start ≤ lineNumberBehind old e.stop ∧
    lineNumberBehind old e.stop ≤ (splitLines old).length ∧
    (lineNumber old e.start < lineNumberBehind old e.stop ∨ splitLines e.text ≠ []) ∧
    LinesInOrder old (lineNumberBehind old e.stop) es

theorem lineNumber_mono (h : i ≤ j) : lineNumber old i ≤ lineNumber old j := by
  unfold lineNumber
  exact ((List.take_prefix_take_left h).sublist).count_le _

/-- Edits of whole lines do the same counted in lines as counted in characters. -/
theorem lineScript_lines : ∀ (es : List Edit) (i : Nat), i ≤ old.length → atLineStart old i = true →
    LineScript old i es → (∀ e ∈ es, e.Changes) → LinesInOrder old (lineNumber old i) es ∧
      linesApplied old (lineNumber old i) es = splitLines (applied old i es)
  | [], i, hi, hline, _, _ => by
    refine ⟨trivial, ?_⟩
    rw [linesApplied, applied, lineNumber_eq hi hline, drop_splitLines (Or.inr hline)]
  | e :: es, i, hi, hline, ⟨hstart, hle, hn, hfirst, hrest⟩, hchanges => by
    obtain ⟨hchange, hchanges⟩ := List.forall_mem_cons.mp hchanges
    have hs : e.start ≤ old.length := Nat.le_trans hle hn
    have hstop : e.stop = old.length ∨ atLineStart old e.stop = true := hrest.imp And.left And.left
    have hbehind := lineNumberBehind_eq hn hstop
    have hkept : (splitLines old).extract (lineNumber old i) (lineNumber old e.start) =
        splitLines (slice old i e.start) := by
      rw [lineNumber_eq hi hline, lineNumber_eq hs hfirst, extract_splitLines hstart hi hline (Or.inr hfirst)]
    have hends := endsLine_slice hstart hs hfirst
    have horder : lineNumber old i ≤ lineNumber old e.start ∧
        lineNumber old e.start ≤ lineNumberBehind old e.stop ∧
        lineNumberBehind old e.stop ≤ (splitLines old).length := by
      refine ⟨lineNumber_mono hstart, Nat.le_trans (lineNumber_mono hle) (Nat.le_add_right _ _), ?_⟩
      rw [hbehind, ← splitLines_take_append_drop hstop, List.length_append]
      exact Nat.le_add_right _ _
    have hchange' : lineNumber old e.start < lineNumberBehind old e.stop ∨ splitLines e.text ≠ [] := by
      refine hchange.imp (fun hlt => ?_) fun hne hnil => hne (splitLines_eq_nil.mp hnil)
      -- What is removed has characters, so it has a line.
      have hlines := extract_splitLines hle hs hfirst hstop
      rw [← lineNumber_eq hs hfirst, ← hbehind] at hlines
      refine Nat.lt_of_le_of_ne horder.2.1 fun heq => ?_
      rw [heq, extract_self] at hlines
      have hlen := congrArg List.length (splitLines_eq_nil.mp hlines.symm)
      rw [length_slice hn, List.length_nil] at hlen
      omega
    rw [linesApplied, applied, hkept, List.append_assoc, List.append_assoc, splitLines_append hends]
    -- The last edit may end where no line ends.  Then nothing is behind it.
    rcases hrest with ⟨hend, rfl⟩ | ⟨hline', htext, hscript⟩
    · refine ⟨⟨horder.1, horder.2.1, horder.2.2, hchange', trivial⟩, ?_⟩
      rw [linesApplied, applied, hbehind, hend, List.take_length, List.drop_length, List.drop_length,
        List.append_nil, List.append_nil]
    · have hnumber : lineNumberBehind old e.stop = lineNumber old e.stop := by
        rw [hbehind, lineNumber_eq hn hline']
      obtain ⟨hlines, happ⟩ := lineScript_lines es e.stop hn hline' hscript hchanges
      rw [← hnumber] at hlines happ
      refine ⟨⟨horder.1, horder.2.1, horder.2.2, hchange', hlines⟩, ?_⟩
      rw [happ, splitLines_append htext]

/-- **Counted in lines, the edits turn the lines of the old text into those of the new one.** -/
theorem lineEdits_lines (old new : List Char) : LinesInOrder old 0 (lineEdits old (edits old new)) ∧
    linesApplied old 0 (lineEdits old (edits old new)) = splitLines new := by
  obtain ⟨hscript, happ⟩ := lineEdits_applied old new
  have h := lineScript_lines (lineEdits old (edits old new)) 0 (Nat.zero_le _) rfl hscript
    (lineEdits_changes old new)
  rwa [happ] at h

end AgentKit.Patch
