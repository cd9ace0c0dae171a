import AgentKit.Yaml.Cursor
import Mathlib.Tactic
/-!
# Moving a cursor

What a reader of tokens does with a cursor depends on the characters ahead, on the column, and on whether a bad
byte is behind them.  `At` holds these three.  Each way of moving is given by what it does to them, so that no
proof about scalars has to look into a cursor again.  Where the line and the number of characters matter, for
keys, it is `skipN` that is used, and `skipN_mark` says what becomes of them.

A reader asks for characters ahead with `need` before it looks at them, and this fails only in front of a bad byte.
Where there is none it can be passed over (`At.need`), whatever the number asked for.
-/

namespace AgentKit.Yaml.Cursor

/-- The cursor is at column `col` before the characters `rest`, and these are all good. -/
structure At (c : Cursor) (rest : List Char) (col : Nat) : Prop where
  rest : c.rest = rest
  column : c.mark.column = col
  bad : c.bad = none

variable {c : Cursor} {a t : List Char} {x : Char} {col : Nat}

/-- Looking ahead never fails where all characters are good. -/
theorem At.need (h : At c t col) (k : Nat) : c.need k = .ok () := by
  rw [Cursor.need, h.bad]

theorem At.head (h : At c t col) : c.head = t.head? := by
  rw [Cursor.head, h.rest]

theorem At.peek (h : At c t col) (k : Nat) : c.peek k = t[k]? := by
  rw [Cursor.peek, h.rest]

theorem At.sees (h : At c t col) (ch : Char) : c.sees ch = decide (t.head? = some ch) := by
  rw [Cursor.sees, h.head]

/-- One character on, on the same line. -/
theorem At.skip (h : At c (x :: t) col) : At c.skip t (col + 1) := by
  unfold Cursor.skip
  rw [h.rest]
  exact ⟨rfl, by rw [h.column], h.bad⟩

theorem skip_rest (h : c.rest = x :: t) : c.skip.rest = t := by
  rw [Cursor.skip, h]

/-- Moving over characters stays on the line. -/
theorem skipN_mark (h : c.rest = a ++ t) : (c.skipN a.length).mark =
    { c.mark with index := c.mark.index + a.length, column := c.mark.column + a.length } := by
  induction a generalizing c with
  | nil => rfl
  | cons x a ih =>
    have hskip : c.skip.mark = { c.mark with index := c.mark.index + 1, column := c.mark.column + 1 } := by
      rw [Cursor.skip, h]
      rfl
    rw [List.length_cons, skipN, ih (skip_rest h), hskip]
    simp only [Mark.mk.injEq, true_and]
    omega

/-- Several characters on, on the same line. -/
theorem At.skipN (h : At c (a ++ t) col) : At (c.skipN a.length) t (col + a.length) := by
  induction a generalizing c col with
  | nil => exact h
  | cons x a ih =>
    have hrest := ih h.skip
    rw [Nat.add_right_comm, Nat.add_assoc] at hrest
    exact hrest

/-- The longest part of this kind is the one that is followed by something else. -/
theorem takeWhile_append {p : Char → Bool} (ha : ∀ x ∈ a, p x = true) (ht : ∀ x, t.head? = some x → p x = false) :
    (a ++ t).takeWhile p = a := by
  rw [List.takeWhile_append_of_pos ha]
  cases t with
  | nil => simp
  | cons x t => rw [List.takeWhile_cons_of_neg (by simp [ht x rfl]), List.append_nil]

theorem At.skipWhile {p : Option Char → Bool} (h : At c (a ++ t) col) (ha : ∀ x ∈ a, p (some x) = true)
    (ht : ∀ x, t.head? = some x → p (some x) = false) : At (c.skipWhile p) t (col + a.length) := by
  rw [Cursor.skipWhile, h.rest, takeWhile_append ha ht]
  exact h.skipN

/-- Nothing is moved over where the condition does not hold. -/
theorem At.skipWhile_none {p : Option Char → Bool} (h : At c t col)
    (ht : ∀ x, t.head? = some x → p (some x) = false) : c.skipWhile p = c := by
  rw [Cursor.skipWhile, h.rest, ← List.nil_append t, takeWhile_append (by simp) ht]
  rfl

/-- A line end other than a carriage return stands on its own. -/
theorem At.skipLine (h : At c (x :: t) col) (hx : isBreakChar x = true) (hr : x ≠ '\r') : At c.skipLine t 0 := by
  unfold Cursor.skipLine
  rw [h.rest]
  split
  · rename_i heq
    cases heq
    exact absurd rfl hr
  · rename_i heq
    cases heq
    rw [if_pos hx]
    exact ⟨rfl, rfl, h.bad⟩
  · rename_i heq
    cases heq

/-- A document mark stands at the left edge. -/
theorem At.not_atDocumentMark (h : At c t col) (hcol : col ≠ 0) : c.atDocumentMark = false := by
  simp [Cursor.atDocumentMark, h.column, hcol]

/-- A document mark does not start with another character than these. -/
theorem At.not_atDocumentMark_of_head (h : At c t col) (hdash : t.head? ≠ some '-') (hdot : t.head? ≠ some '.') :
    c.atDocumentMark = false := by
  have htake : ∀ x, t.take 3 = [x, x, x] → t.head? = some x := by
    intro x hx
    have := congrArg List.head? hx
    rwa [List.head?_take, if_neg (by decide)] at this
  rw [Cursor.atDocumentMark, h.rest, decide_eq_false fun heq => hdash (htake _ heq),
    decide_eq_false fun heq => hdot (htake _ heq)]
  simp

end AgentKit.Yaml.Cursor
