import AgentKit.Yaml.Token.Scalar
import AgentKit.Proofs.Yaml.Cursor
import Mathlib.Tactic
/-!
# Plain and quoted scalars

Both kinds of scalar are read in the same way: a run of characters without white space, then white space, and so
on to the end.  White space is blanks on a line, which count, or line ends with blanks around them, of which only
the line ends count.  So a text is cut into words and the white space between them, and the reader is followed
from one word to the next (`plainRuns_step`, `quotedRuns_step`).

What can go wrong is said once for each kind.  `PlainText` keeps a plain text from ending early, at a colon or at
what looks like a comment.  `QuotedText` asks that every character is written so that it is read as itself
(`Piece`), and that line ends and spaces do not touch, for then one of them would be lost.

The two kinds of quotes differ in their signs and in how a character is spelled.  Single quotes keep some line ends
as they are, while double quotes escape all of them.  Both are therefore parameters: `brk` tells which characters are
left as line ends, and `piece` how the others are spelled, so that there is one reader's theorem for both.

Only such white space is treated as the printer writes.  Tabs and the line ends that a reader changes are left out of
`White`: of the styles of this module, a text that has them is written in double quotes only, where they are escaped.

1. White space (`gapOf`, `quotedGap_eq`, `plainGap_eq`).
2. **A plain text is read up to the next line** (`plainScalar_eq`), a word before a colon up to the colon
   (`plainScalar_word`).
3. **A text in quotes is read back** (`quotedScalar_eq`).
-/

namespace AgentKit.Yaml

open Cursor

variable {c : Cursor} {w ws r next : List Char} {x : Char} {col fuel : Nat} {indent : Int} {start : Mark} {g : Gap}

/-! ## 1. White space

The reader gathers white space into a `Gap`, which keeps the blanks of a line, the first line end and the further
ones apart.  `gapOf` is that gap as a function of the characters, and `columnAfter` the column behind them. -/

/-- A line end that a reader keeps as it is. -/
def isKept (x : Char) : Bool := x = '\n' || x.toNat = 0x2028 || x.toNat = 0x2029

theorem isBreakChar_of_isKept (h : isKept x = true) : isBreakChar x = true := by
  simp only [isKept, Bool.or_eq_true, decide_eq_true_eq] at h
  simp only [isBreakChar, Bool.or_eq_true, decide_eq_true_eq]
  tauto

theorem ne_of_isKept (h : isKept x = true) : x ≠ '\r' ∧ x ≠ ' ' ∧ x ≠ '\t' := by
  refine ⟨?_, ?_, ?_⟩ <;> rintro rfl <;> revert h <;> decide

/-- A line end that is kept stands for itself; the others are read as a line feed. -/
theorem lineText_of_isKept (h : isKept x = true) (hc : At c (x :: r) col) : c.lineText = [x] := by
  have hbreak := isBreakChar_of_isKept h
  rw [Cursor.lineText, hc.rest]
  dsimp only
  split
  · rename_i hn
    simp only [isKept, Bool.or_eq_true, decide_eq_true_eq] at h
    rcases h with (rfl | h) | h
    · rfl
    · rcases hn with rfl | rfl | hn
      · exact absurd h (by decide)
      · exact absurd h (by decide)
      · omega
    · rcases hn with rfl | rfl | hn
      · exact absurd h (by decide)
      · exact absurd h (by decide)
      · omega
  · rfl

/-- The character is neither blank nor a line end. -/
def isInk (x : Char) : Bool := !isBlankOrEnd (some x)

theorem isInk_iff : isInk x = true ↔ x ≠ ' ' ∧ x ≠ '\t' ∧ isBreakChar x = false := by
  simp [isInk, isBlankOrEnd, isBlank, isBreakOrEnd, isBreak, and_assoc]

/-- White space does not come first. -/
def Inked (r : List Char) : Prop := ∀ x, r.head? = some x → isInk x = true

theorem Inked.not_white (h : Inked r) (hc : At c r col) : (isBlank c.head || isBreak c.head) = false := by
  rw [hc.head]
  cases r with
  | nil => rfl
  | cons x r =>
    obtain ⟨hspace, htab, hbreak⟩ := isInk_iff.mp (h x rfl)
    simp [isBlank, isBreak, hspace, htab, hbreak]

/-- The gap that spaces and line ends make. -/
def gapOf : Gap → List Char → Gap
  | g, [] => g
  | g, x :: ws =>
    if x = ' ' then gapOf (if g.broken then g else { g with blanks := g.blanks ++ [' '] }) ws
    else if g.broken then gapOf { g with more := g.more ++ [x] } ws
    else gapOf { g with blanks := [], first := [x], broken := true } ws

/-- The column behind spaces and line ends. -/
def columnAfter : Nat → List Char → Nat
  | col, [] => col
  | col, x :: ws => columnAfter (if x = ' ' then col + 1 else 0) ws

/-- Spaces and line ends that are kept. -/
def White (ws : List Char) : Prop := ∀ x ∈ ws, x = ' ' ∨ isKept x = true

/-- One step through white space. -/
theorem take_white (hx : x = ' ' ∨ isKept x = true) (hc : At c (x :: r) col) :
    ∃ c', At c' r (if x = ' ' then col + 1 else 0) ∧ (isBlank c.head || isBreak c.head) = true ∧
      ∀ g, (gapOf g [x], c') = g.take c := by
  -- a space stays on the line, and a line end starts the next one
  rcases hx with rfl | hx
  · refine ⟨c.skip, hc.skip, by rw [hc.head]; rfl, fun g => ?_⟩
    rw [Gap.take, hc.head]
    rfl
  · obtain ⟨hr, hspace, htab⟩ := ne_of_isKept hx
    have hbreak := isBreakChar_of_isKept hx
    have hblank : isBlank c.head = false := by
      rw [hc.head]
      simp [isBlank, hspace, htab]
    refine ⟨c.skipLine, ?_, ?_, fun g => ?_⟩
    · rw [if_neg hspace]
      exact hc.skipLine hbreak hr
    · rw [hblank, hc.head]
      exact hbreak
    · rw [Gap.take, hblank, lineText_of_isKept hx hc, gapOf, if_neg hspace]
      cases g.broken <;> rfl

theorem gapOf_cons (g : Gap) (x : Char) (ws : List Char) : gapOf g (x :: ws) = gapOf (gapOf g [x]) ws := by
  simp only [gapOf]
  split
  · rfl
  · split <;> rfl

/-- **White space is read up to the ink behind it.** -/
theorem quotedGap_eq (hc : At c (ws ++ r) col) (hws : White ws) (hr : Inked r) (hfuel : ws.length ≤ fuel) :
    ∃ c', quotedGap fuel g c = (gapOf g ws, c') ∧ At c' r (columnAfter col ws) := by
  induction ws generalizing fuel g c col with
  | nil =>
    refine ⟨c, ?_, hc⟩
    cases fuel with
    | zero => rfl
    | succ fuel => rw [quotedGap, hr.not_white hc, if_neg (by decide)]; rfl
  | cons x ws ih =>
    cases fuel with
    | zero => simp at hfuel
    | succ fuel =>
      obtain ⟨c₁, hc₁, hwhite, htake⟩ := take_white (hws x List.mem_cons_self) hc
      obtain ⟨c₂, heq, hc₂⟩ := ih (g := gapOf g [x]) hc₁ (fun y hy => hws y (List.mem_cons_of_mem _ hy))
        (Nat.le_of_succ_le_succ hfuel)
      refine ⟨c₂, ?_, hc₂⟩
      rw [quotedGap, hwhite, if_pos rfl, ← htake g, gapOf_cons g x ws]
      exact heq

theorem exists_gap (g : Gap) (hc : At c (ws ++ r) col) (hws : White ws) (hr : Inked r) :
    ∃ c', quotedGap (ws ++ r).length g c = (gapOf g ws, c') ∧ At c' r (columnAfter col ws) :=
  quotedGap_eq hc hws hr (by simp)

/-- Without tabs the gap in a plain scalar is like any other. -/
theorem plainGap_eq (hc : At c (ws ++ r) col) (hws : White ws) (hr : Inked r) (hfuel : ws.length ≤ fuel) :
    plainGap indent start fuel g c = .ok (quotedGap fuel g c) := by
  induction ws generalizing fuel g c col with
  | nil =>
    cases fuel with
    | zero => rfl
    | succ fuel => rw [plainGap, quotedGap, hr.not_white hc, if_neg (by decide), if_neg (by decide)]
  | cons x ws ih =>
    cases fuel with
    | zero => simp at hfuel
    | succ fuel =>
      obtain ⟨c₁, hc₁, hwhite, htake⟩ := take_white (hws x List.mem_cons_self) hc
      have htab : c.sees '\t' = false := by
        rw [hc.sees]
        rcases hws x List.mem_cons_self with rfl | hx
        · rfl
        · simp [(ne_of_isKept hx).2.2]
      rw [plainGap, quotedGap, hwhite, if_pos rfl, if_pos rfl, htab, Bool.and_false, if_neg (by decide), ← htake g]
      exact ih hc₁ (fun y hy => hws y (List.mem_cons_of_mem _ hy)) (Nat.le_of_succ_le_succ hfuel)

/-! ## 2. Plain scalars

A plain scalar has no sign at its end.  It ends where the next line is not further in than the collection around
it, and a key ends at its colon.  Everything else that could end it is excluded by `PlainText`. -/

/-- Characters that a plain scalar goes on over, before `r`. -/
def Word (w r : List Char) : Prop :=
  ∀ a x b, w = a ++ x :: b → isInk x = true ∧ (x = ':' → isBlankOrEnd (b ++ r).head? = false)

/-- A plain scalar does not go on without white space. -/
def Stops (r : List Char) : Prop :=
  ∀ x, r.head? = some x → isInk x = false ∨ x = ':' ∧ isBlankOrEnd r[1]? = true

/-- Outside of flow collections only a colon before white space ends a plain scalar. -/
theorem endsPlain_eq (hc : At c (x :: r) col) :
    endsPlain false c = (decide (x = ':') && isBlankOrEnd r.head?) := by
  rw [endsPlain, hc.sees, hc.peek]
  cases r <;> simp

/-- **A word is read up to where it stops.** -/
theorem plainRun_eq (hc : At c (w ++ r) col) (hw : Word w r) (hr : Stops r) (hfuel : w.length ≤ fuel) :
    plainRun false fuel c = .ok (w, c.skipN w.length) := by
  induction w generalizing fuel c col with
  | nil =>
    cases fuel with
    | zero => rfl
    | succ fuel =>
      rw [plainRun, hc.head]
      cases r with
      | nil => rfl
      | cons x r =>
        have hstop : (isBlankOrEnd (some x) || endsPlain false c) = true := by
          rw [endsPlain_eq hc]
          rcases hr x rfl with hx | ⟨rfl, hx⟩
          · simp only [isInk, Bool.not_eq_false'] at hx
            rw [hx, Bool.true_or]
          · have hnext : (':' :: r)[1]? = r.head? := by cases r <;> rfl
            rw [hnext] at hx
            rw [hx, decide_eq_true rfl, Bool.and_self, Bool.or_true]
        simp only [List.nil_append, List.head?_cons]
        rw [if_pos hstop]
        rfl
  | cons x w ih =>
    cases fuel with
    | zero => simp at hfuel
    | succ fuel =>
      obtain ⟨hink, hcolon⟩ := hw [] x w rfl
      -- the first character does not stop the run, neither by itself nor as a colon
      have hgo : (isBlankOrEnd (some x) || endsPlain false c) = false := by
        rw [endsPlain_eq hc]
        simp only [isInk, Bool.not_eq_true'] at hink
        rw [hink, Bool.false_or]
        by_cases hx : x = ':'
        · rw [show w.append r = w ++ r from rfl, hcolon hx, Bool.and_false]
        · rw [decide_eq_false hx, Bool.false_and]
      rw [plainRun, hc.head]
      simp only [List.cons_append, List.head?_cons]
      rw [if_neg (by simp [hgo]), hc.skip.need, ih hc.skip (fun a y b hab => hw (x :: a) y b (by rw [hab]; rfl))
        (Nat.le_of_succ_le_succ hfuel)]
      rfl

/-- A text that can stand plain on one line. -/
structure PlainText (cs : List Char) : Prop where
  ne_nil : cs ≠ []
  chars : ∀ x ∈ cs, x = ' ' ∨ isInk x = true
  head : cs.head? ≠ some ' '
  last : cs.getLast? ≠ some ' '
  colon : ∀ a b, cs = a ++ ':' :: b → ∃ x, b.head? = some x ∧ x ≠ ' '
  noComment : cs.head? ≠ some '#' ∧ ∀ a b, cs ≠ a ++ ' ' :: '#' :: b

/-- What is behind a word and the spaces after it is such a text again. -/
theorem PlainText.tail {cs rest : List Char} {n : Nat} (h : PlainText cs)
    (hcs : cs = w ++ List.replicate (n + 1) ' ' ++ rest) (hrest : rest.head? ≠ some ' ') : PlainText rest where
  ne_nil := by
    rintro rfl
    rw [List.append_nil, List.replicate_succ', ← List.append_assoc] at hcs
    exact h.last (by rw [hcs, List.getLast?_concat])
  chars := by
    intro x hx
    exact h.chars x (by rw [hcs]; exact List.mem_append_right _ hx)
  head := hrest
  last := by
    intro hlast
    refine h.last ?_
    rw [hcs, List.getLast?_append, hlast]
    rfl
  colon := by
    intro a b hab
    exact h.colon (w ++ List.replicate (n + 1) ' ' ++ a) b (by rw [hcs, hab, ← List.append_assoc])
  noComment := by
    constructor
    · -- a hash behind a space would have been a comment in the whole text
      intro hhead
      obtain ⟨b, rfl⟩ : ∃ b, rest = '#' :: b := by
        cases rest with
        | nil => cases hhead
        | cons x b => cases hhead; exact ⟨b, rfl⟩
      refine h.noComment.2 (w ++ List.replicate n ' ') b ?_
      rw [hcs, List.replicate_succ']
      simp
    · intro a b hab
      refine h.noComment.2 (w ++ List.replicate (n + 1) ' ' ++ a) b ?_
      rw [hcs, hab, ← List.append_assoc]

/-- The longest part at the start that has a property. -/
theorem exists_run (p : Char → Bool) (cs : List Char) :
    ∃ w rest, cs = w ++ rest ∧ (∀ x ∈ w, p x = true) ∧ ∀ x, rest.head? = some x → p x = false := by
  refine ⟨cs.takeWhile p, cs.dropWhile p, List.takeWhile_append_dropWhile.symm, ?_, ?_⟩
  · intro x hx
    exact List.all_eq_true.mp List.all_takeWhile x hx
  · intro x hx
    exact Bool.eq_false_iff.mpr fun hp => by
      have := List.head?_dropWhile_not p cs
      rw [hx] at this
      simp [hp] at this

theorem exists_spaces (cs : List Char) : ∃ n rest, cs = List.replicate n ' ' ++ rest ∧ rest.head? ≠ some ' ' := by
  obtain ⟨w, rest, hcs, hw, hrest⟩ := exists_run (· = ' ') cs
  refine ⟨w.length, rest, ?_, fun h => by simpa using hrest _ h⟩
  rw [hcs, ← List.eq_replicate_of_mem fun x hx => by simpa using hw x hx]

/-- A text is a word, or a word, spaces and more. -/
theorem PlainText.cut {cs : List Char} (h : PlainText cs) :
    (cs ≠ [] ∧ ∀ x ∈ cs, isInk x = true) ∨
    ∃ w n rest, cs = w ++ List.replicate (n + 1) ' ' ++ rest ∧ w ≠ [] ∧ (∀ x ∈ w, isInk x = true) ∧
      rest.head? ≠ some ' ' := by
  obtain ⟨w, rest, hcs, hw, hrest⟩ := exists_run isInk cs
  cases rest with
  | nil =>
    rw [List.append_nil] at hcs
    exact Or.inl ⟨h.ne_nil, hcs ▸ hw⟩
  | cons x rest =>
    have hx : x = ' ' := by
      rcases h.chars x (by rw [hcs]; simp) with hx | hx
      · exact hx
      · rw [hrest x rfl] at hx
        cases hx
    obtain ⟨n, rest', hrest', hhead⟩ := exists_spaces rest
    refine Or.inr ⟨w, n, rest', ?_, ?_, hw, hhead⟩
    · rw [hcs, hx, hrest', List.replicate_succ, List.append_assoc, List.cons_append]
    · rintro rfl
      exact h.head (by rw [hcs, hx]; rfl)

theorem gapOf_spaces (g : Gap) (hg : g.broken = false) (n : Nat) :
    gapOf g (List.replicate n ' ') = { g with blanks := g.blanks ++ List.replicate n ' ' } := by
  induction n generalizing g with
  | zero => simp [gapOf]
  | succ n ih =>
    rw [List.replicate_succ, gapOf, if_pos rfl, hg]
    simp only [Bool.false_eq_true, if_false]
    rw [ih _ rfl]
    simp

theorem gapOf_spaces_broken (g : Gap) (hg : g.broken = true) (n : Nat) : gapOf g (List.replicate n ' ') = g := by
  induction n generalizing g with
  | zero => rfl
  | succ n ih => rw [List.replicate_succ, gapOf, if_pos rfl, hg, if_pos rfl, ih g hg]

theorem columnAfter_spaces (col n : Nat) : columnAfter col (List.replicate n ' ') = col + n := by
  induction n generalizing col with
  | zero => rfl
  | succ n ih =>
    rw [List.replicate_succ, columnAfter, if_pos rfl, ih]
    omega

theorem white_spaces (n : Nat) : White (List.replicate n ' ') := fun _ hx =>
  Or.inl (List.eq_of_mem_replicate hx)

/-- A word before white space. -/
theorem word_of_ink (hw : ∀ x ∈ w, isInk x = true) (hcolon : ∀ a b, w = a ++ ':' :: b → b ≠ []) : Word w r := by
  intro a x b hab
  refine ⟨hw x (by rw [hab]; simp), ?_⟩
  rintro rfl
  obtain ⟨y, b, rfl⟩ := List.exists_cons_of_ne_nil (hcolon a b hab)
  have hink := hw y (by rw [hab]; simp)
  simpa [isInk] using hink

/-- The first word of the runs, and the white space behind it. -/
theorem plainRuns_step {c' : Cursor} (hne : w ≠ []) (hw : Word w (ws ++ r)) (hws : White ws) (hwne : ws ≠ [])
    (hr : Inked r) (hc : At c (w ++ (ws ++ r)) col) (hmark : c.atDocumentMark = false) (hhash : c.sees '#' = false)
    (hgap : quotedGap (ws ++ r).length {} (c.skipN w.length) = (gapOf {} ws, c')) :
    plainRuns false indent start (fuel + 1) g c =
      if c'.mark.column < indent then .ok (g.text ++ w, (gapOf {} ws).broken, c')
      else (plainRuns false indent start fuel (gapOf {} ws) c').map
        fun e => (g.text ++ w ++ e.1, e.2.1, e.2.2) := by
  obtain ⟨x, ws', rfl⟩ := List.exists_cons_of_ne_nil hwne
  -- white space stops the run, so that what is read is the word
  have hstop : Stops (x :: ws' ++ r) := by
    intro y hy
    cases hy
    refine Or.inl ?_
    rcases hws x List.mem_cons_self with rfl | hx
    · rfl
    · simp [isInk, isBlankOrEnd, isBreakOrEnd, isBreak, isBreakChar_of_isKept hx]
  have hc₁ := hc.skipN
  have hwhite : (isBlank (c.skipN w.length).head || isBreak (c.skipN w.length).head) = true :=
    (take_white (hws x List.mem_cons_self) hc₁).choose_spec.2.1
  have hlen : w.length ≤ c.rest.length := by
    rw [hc.rest, List.length_append]
    omega
  rw [plainRuns, hc.need, hmark, hhash, plainRun_eq hc hw hstop hlen]
  simp only [bind, Except.bind, Bool.or_self, Bool.false_eq_true, if_false, List.isEmpty_iff, hne, hwhite,
    Bool.not_true]
  rw [plainGap_eq hc₁ hws hr (by rw [hc₁.rest]; simp), hc₁.rest, hgap]
  simp only [Bool.not_false, Bool.true_and, decide_eq_true_eq]
  split
  · rfl
  · cases plainRuns false indent start fuel (gapOf {} (x :: ws')) c' <;> rfl

/-- **A plain text is read up to the next line**, if that is not further in. -/
theorem plainRuns_eq {cs : List Char} {k : Nat} (h : PlainText cs) (hr : Inked r) (hk : (k : Int) < indent)
    (hc : At c (cs ++ '\n' :: (List.replicate k ' ' ++ r)) col) (hcol : col ≠ 0) (hindent : indent ≤ col)
    (hfuel : cs.length < fuel) :
    ∃ c', plainRuns false indent start fuel g c = .ok (g.text ++ cs, true, c') ∧ At c' r k := by
  -- on the length, for what is left is the text behind a word and the spaces after it
  induction hn : cs.length using Nat.strong_induction_on generalizing cs fuel c col g with
  | _ n ih =>
    cases fuel with
    | zero => omega
    | succ fuel =>
      have hmark := hc.not_atDocumentMark hcol
      have hhash : c.sees '#' = false := by
        rw [hc.sees, List.head?_append_of_ne_nil _ h.ne_nil]
        exact decide_eq_false h.noComment.1
      rcases h.cut with ⟨hne, hink⟩ | ⟨w, m, rest, hcs, hwne, hw, hhead⟩
      · -- the last word: the gap behind it reaches into the next line
        have hwhite : White ('\n' :: List.replicate k ' ') := by
          intro x hx
          rcases List.mem_cons.mp hx with rfl | hx
          · exact Or.inr rfl
          · exact white_spaces k x hx
        have hword : Word cs ('\n' :: List.replicate k ' ' ++ r) :=
          word_of_ink hink fun a b hab hb => by
            obtain ⟨x, hx, _⟩ := h.colon a b hab
            rw [hb] at hx
            cases hx
        obtain ⟨c', hgap, hc'⟩ := exists_gap {} hc.skipN hwhite hr
        have hcolumn : columnAfter (col + cs.length) ('\n' :: List.replicate k ' ') = k := by
          rw [columnAfter, if_neg (by decide), columnAfter_spaces, Nat.zero_add]
        rw [hcolumn] at hc'
        refine ⟨c', ?_, hc'⟩
        rw [plainRuns_step hne hword hwhite (by simp) hr hc hmark hhash hgap, hc'.column, if_pos hk]
        rw [gapOf, if_neg (by decide), if_neg (by decide), gapOf_spaces_broken _ rfl]
      · -- more words on the line
        have hrest := h.tail hcs hhead
        have hinked : Inked (rest ++ '\n' :: (List.replicate k ' ' ++ r)) := by
          intro x hx
          rw [List.head?_append_of_ne_nil _ hrest.ne_nil] at hx
          rcases hrest.chars x (List.mem_of_head? hx) with rfl | hink
          · exact absurd hx hhead
          · exact hink
        have hword : Word w (List.replicate (m + 1) ' ' ++ (rest ++ '\n' :: (List.replicate k ' ' ++ r))) := by
          refine word_of_ink hw fun a b hab hb => ?_
          obtain ⟨x, hx, hspace⟩ := h.colon a (b ++ List.replicate (m + 1) ' ' ++ rest) (by rw [hcs, hab]; simp)
          rw [hb] at hx
          exact hspace (by simpa [List.replicate_succ] using hx.symm)
        rw [hcs, List.append_assoc, List.append_assoc] at hc
        obtain ⟨c', hgap, hc'⟩ := exists_gap {} hc.skipN (white_spaces (m + 1)) hinked
        rw [columnAfter_spaces] at hc'
        have hshort : rest.length < fuel := by
          rw [hcs] at hfuel
          simp at hfuel
          omega
        obtain ⟨c'', heq, hc''⟩ := ih rest.length (by rw [← hn, hcs]; simp; omega) hrest hc' (by omega) (by omega)
          (g := gapOf {} (List.replicate (m + 1) ' ')) hshort rfl
        refine ⟨c'', ?_, hc''⟩
        rw [plainRuns_step hwne hword (white_spaces _) (by simp) hinked hc hmark hhash hgap, hc'.column,
          if_neg (by omega), heq, gapOf_spaces _ rfl, hcs]
        simp [Except.map, Gap.text]

theorem plainScalar_eq {cs : List Char} {k : Nat} (h : PlainText cs) (hr : Inked r) (hk : (k : Int) < indent)
    (hc : At c (cs ++ '\n' :: (List.replicate k ' ' ++ r)) col) (hcol : col ≠ 0) (hindent : indent ≤ col) :
    ∃ c', plainScalar false indent c = .ok (cs, true, c') ∧ At c' r k :=
  plainRuns_eq (g := {}) h hr hk hc hcol hindent (by rw [hc.rest]; simp)

/-- A word before a colon. -/
theorem plainScalar_word (hne : w ≠ []) (hw : Word w (':' :: r)) (hr : isBlankOrEnd r.head? = true)
    (hc : At c (w ++ ':' :: r) col) (hmark : c.atDocumentMark = false) (hhash : w.head? ≠ some '#') :
    plainScalar false indent c = .ok (w, false, c.skipN w.length) := by
  have hstop : Stops (':' :: r) := by
    intro x hx
    cases hx
    refine Or.inr ⟨rfl, ?_⟩
    cases r <;> exact hr
  have hlen : w.length ≤ c.rest.length := by
    rw [hc.rest, List.length_append]
    omega
  have hsees : c.sees '#' = false := by
    rw [hc.sees, List.head?_append_of_ne_nil _ hne]
    exact decide_eq_false hhash
  have hc₁ := hc.skipN
  rw [plainScalar, plainRuns, hc.need, hmark, hsees, plainRun_eq hc hw hstop hlen]
  simp only [bind, Except.bind, Bool.or_self, Bool.false_eq_true, if_false, List.isEmpty_iff, hne, hc₁.head]
  rfl

/-! ## 3. Quoted scalars

A quoted scalar ends with its sign, so its columns play no part but for one thing: at the left edge a mark of a
document would end it.  Further lines are therefore indented, and this is why `indentation` must not be zero. -/

/-- The sign around a quoted scalar. -/
def quoteSign (single : Bool) : Char := if single then '\x27' else '"'

/-- The characters `p` stand for `x` in a quoted scalar. -/
structure Piece (single : Bool) (x : Char) (p : List Char) : Prop where
  inked : ∃ y t, p = y :: t ∧ isInk y = true
  run : ∀ {c c' : Cursor} {r run : List Char} {start : Mark} {col fuel : Nat} {broken : Bool}, At c (p ++ r) col →
    quotedRun single start fuel (c.skipN p.length) = .ok (run, broken, c') →
    quotedRun single start (fuel + 1) c = .ok (x :: run, broken, c')

/-- A run of a quoted scalar ends here. -/
def EndsRun (single : Bool) (r : List Char) : Prop :=
  (∃ x t, r = x :: t ∧ isInk x = false) ∨ ∃ t, r = quoteSign single :: t ∧ t.head? ≠ some '\x27'

theorem skipN_add (m n : Nat) (c : Cursor) : c.skipN (m + n) = (c.skipN m).skipN n := by
  induction m generalizing c with
  | zero => rw [Nat.zero_add]; rfl
  | succ m ih => rw [Nat.succ_add, Cursor.skipN, ih, Cursor.skipN]

variable {single : Bool} {piece : Char → List Char} {brk : Char → Bool} {indentation : Nat} {cs : List Char}

/-- A run ends before white space, and before the closing quote. -/
theorem quotedRun_nil (hr : EndsRun single r) (hc : At c r col) :
    quotedRun single start fuel c = .ok ([], false, c) := by
  cases fuel with
  | zero => rfl
  | succ fuel =>
    rcases hr with ⟨x, t, rfl, hx⟩ | ⟨t, rfl, ht⟩
    · have hblank : isBlankOrEnd (some x) = true := by simpa [isInk] using hx
      rw [quotedRun, hc.head]
      simp only [List.head?_cons]
      rw [if_pos hblank]
    · rw [quotedRun, hc.head]
      simp only [List.head?_cons]
      -- in single quotes the sign must not be followed by another one, which would make it a character
      cases single with
      | true =>
        have hpeek : c.peek 1 ≠ some '\x27' := by
          rw [hc.peek]
          cases t with
          | nil => simp
          | cons y t => simpa using ht
        rw [if_neg (by decide), if_pos (by decide), if_neg hpeek]
      | false => rw [if_neg (by decide), if_neg (by decide), if_pos (by decide)]

/-- **The characters of a run are read from their pieces.** -/
theorem quotedRun_eq (hw : ∀ x ∈ w, Piece single x (piece x)) (hr : EndsRun single r)
    (hc : At c (w.flatMap piece ++ r) col) (hfuel : w.length ≤ fuel) :
    quotedRun single start fuel c = .ok (w, false, c.skipN (w.flatMap piece).length) := by
  induction w generalizing fuel c col with
  | nil => exact quotedRun_nil hr hc
  | cons x w ih =>
    cases fuel with
    | zero => simp at hfuel
    | succ fuel =>
      rw [List.flatMap_cons, List.append_assoc] at hc
      rw [List.flatMap_cons, List.length_append, skipN_add]
      exact (hw x List.mem_cons_self).run hc
        (ih (fun y hy => hw y (List.mem_cons_of_mem _ hy)) hc.skipN (Nat.le_of_succ_le_succ hfuel))

/-- A piece has at least one character, so the number of characters left bounds the number of steps. -/
theorem length_le_pieces (hw : ∀ x ∈ w, Piece single x (piece x)) : w.length ≤ (w.flatMap piece).length := by
  induction w with
  | nil => exact Nat.le_refl _
  | cons x w ih =>
    obtain ⟨y, t, hp, _⟩ := (hw x List.mem_cons_self).inked
    have hle := ih fun z hz => hw z (List.mem_cons_of_mem _ hz)
    rw [List.flatMap_cons, hp]
    simp only [List.length_cons, List.length_append]
    omega

/-- The first run of a quoted scalar, and what is behind it: the closing quote, or white space. -/
theorem quotedRuns_run (hw : ∀ x ∈ w, Piece single x (piece x)) (hr : EndsRun single r)
    (hc : At c (w.flatMap piece ++ r) col) (hmark : c.atDocumentMark = false) :
    quotedRuns single start (fuel + 1) c =
      if r.head? = some (quoteSign single) then .ok (w, (c.skipN (w.flatMap piece).length).skip)
      else
        (quotedRuns single start fuel (quotedGap r.length {} (c.skipN (w.flatMap piece).length)).2).map fun e =>
          (w ++ (quotedGap r.length {} (c.skipN (w.flatMap piece).length)).1.text ++ e.1, e.2) := by
  have hc₁ := hc.skipN
  have hlen : w.length ≤ c.rest.length := by
    rw [hc.rest, List.length_append]
    exact Nat.le_add_right_of_le (length_le_pieces hw)
  have hsome : c.head.isNone = false := by
    have hne : w.flatMap piece ++ r ≠ [] := by
      rcases hr with ⟨x, t, rfl, _⟩ | ⟨t, rfl, _⟩ <;> simp
    rw [hc.head]
    cases h : w.flatMap piece ++ r with
    | nil => exact absurd h hne
    | cons x t => rfl
  rw [quotedRuns, hc.need, hmark, hsome, quotedRun_eq hw hr hc hlen]
  simp only [bind, Except.bind, Bool.false_eq_true, if_false, hc₁.need]
  rw [← quoteSign, hc₁.sees, hc₁.rest]
  simp only [decide_eq_true_eq]
  split
  · rfl
  · cases quotedRuns single start fuel (quotedGap r.length {} (c.skipN (w.flatMap piece).length)).2 <;> rfl

/-- The runs of a quoted scalar that ends with its first one. -/
theorem quotedRuns_last (hw : ∀ x ∈ w, Piece single x (piece x)) (hr : r.head? ≠ some '\x27')
    (hc : At c (w.flatMap piece ++ quoteSign single :: r) col) (hmark : c.atDocumentMark = false) :
    ∃ c' col', quotedRuns single start (fuel + 1) c = .ok (w, c') ∧ At c' r col' := by
  refine ⟨_, _, ?_, hc.skipN.skip⟩
  rw [quotedRuns_run hw (Or.inr ⟨r, rfl, hr⟩) hc hmark, List.head?_cons, if_pos rfl]

/-- The first run of a quoted scalar and the white space behind it. -/
theorem quotedRuns_step {c' : Cursor} (hw : ∀ x ∈ w, Piece single x (piece x)) (hws : White ws) (hne : ws ≠ [])
    (hc : At c (w.flatMap piece ++ (ws ++ r)) col) (hmark : c.atDocumentMark = false)
    (hgap : quotedGap (ws ++ r).length {} (c.skipN (w.flatMap piece).length) = (gapOf {} ws, c')) :
    quotedRuns single start (fuel + 1) c =
      (quotedRuns single start fuel c').map fun e => (w ++ (gapOf {} ws).text ++ e.1, e.2) := by
  obtain ⟨x, ws', rfl⟩ := List.exists_cons_of_ne_nil hne
  have hink : isInk x = false := by
    rcases hws x List.mem_cons_self with rfl | hx
    · rfl
    · simp [isInk, isBlankOrEnd, isBreakOrEnd, isBreak, isBreakChar_of_isKept hx]
  -- white space is no ink, and a quote is
  have hquote : (x :: ws' ++ r).head? ≠ some (quoteSign single) := by
    intro heq
    cases single <;> (cases heq; exact absurd hink (by decide))
  have hends : EndsRun single (x :: ws' ++ r) := Or.inl ⟨x, ws' ++ r, rfl, hink⟩
  rw [quotedRuns_run hw hends hc hmark, if_neg hquote, hgap]

/-- How a text stands in quotes: spaces and line ends as they are, and spaces before the first character of a
further line. -/
def spelled (brk : Char → Bool) (piece : Char → List Char) (indentation : Nat) : Bool → List Char → List Char
  | _, [] => []
  | afterBreak, x :: cs =>
    if x = ' ' then ' ' :: spelled brk piece indentation afterBreak cs
    else if brk x then x :: spelled brk piece indentation true cs
    else
      (if afterBreak then List.replicate indentation ' ' else []) ++ piece x ++
        spelled brk piece indentation false cs

/-- A text that can stand in quotes. -/
structure QuotedText (single : Bool) (brk : Char → Bool) (piece : Char → List Char) (cs : List Char) : Prop where
  pieces : ∀ x ∈ cs, x ≠ ' ' → brk x = false → Piece single x (piece x)
  breaks : ∀ x ∈ cs, brk x = true → isKept x = true ∧ x ≠ '\n'
  spaceThenBreak : ∀ a x b, cs = a ++ ' ' :: x :: b → brk x = false
  breakThenSpace : ∀ a x b, cs = a ++ x :: ' ' :: b → brk x = false

theorem QuotedText.suffix {a b : List Char} (h : QuotedText single brk piece (a ++ b)) :
    QuotedText single brk piece b where
  pieces x hx := h.pieces x (List.mem_append_right _ hx)
  breaks x hx := h.breaks x (List.mem_append_right _ hx)
  spaceThenBreak a' x b' hab := h.spaceThenBreak (a ++ a') x b' (by rw [hab, List.append_assoc])
  breakThenSpace a' x b' hab := h.breakThenSpace (a ++ a') x b' (by rw [hab, List.append_assoc])

theorem spelled_word (hw : ∀ x ∈ w, x ≠ ' ' ∧ brk x = false) (r : List Char) :
    spelled brk piece indentation false (w ++ r) = w.flatMap piece ++ spelled brk piece indentation false r := by
  induction w with
  | nil => rfl
  | cons x w ih =>
    obtain ⟨hspace, hbreak⟩ := hw x List.mem_cons_self
    rw [List.cons_append, spelled, if_neg hspace, if_neg (by simp [hbreak]),
      ih fun y hy => hw y (List.mem_cons_of_mem _ hy)]
    simp

theorem spelled_spaces (afterBreak : Bool) (n : Nat) (r : List Char) :
    spelled brk piece indentation afterBreak (List.replicate n ' ' ++ r) =
      List.replicate n ' ' ++ spelled brk piece indentation afterBreak r := by
  induction n with
  | zero => rfl
  | succ n ih => rw [List.replicate_succ, List.cons_append, spelled, if_pos rfl, ih, List.cons_append]

/-- Line ends are spelled as they are, and the next character is indented. -/
theorem spelled_breaks (hw : ∀ x ∈ w, x ≠ ' ' ∧ brk x = true) (hne : w ≠ []) (afterBreak : Bool) (r : List Char) :
    spelled brk piece indentation afterBreak (w ++ r) = w ++ spelled brk piece indentation true r := by
  induction w generalizing afterBreak with
  | nil => exact absurd rfl hne
  | cons x w ih =>
    obtain ⟨hspace, hbreak⟩ := hw x List.mem_cons_self
    rw [List.cons_append, spelled, if_neg hspace, if_pos hbreak]
    cases w with
    | nil => rfl
    | cons y w => rw [ih (fun z hz => hw z (List.mem_cons_of_mem _ hz)) (by simp)]; rfl

/-- What is behind a gap starts with ink. -/
theorem QuotedText.inked (h : QuotedText single brk piece cs) (hspace : cs.head? ≠ some ' ')
    (hbreak : ∀ x, cs.head? = some x → brk x = false) (r : List Char) :
    Inked (spelled brk piece indentation false cs ++ quoteSign single :: r) := by
  intro y hy
  cases cs with
  | nil =>
    cases hy
    cases single <;> rfl
  | cons x cs =>
    have hx : x ≠ ' ' := fun heq => hspace (by rw [heq]; rfl)
    obtain ⟨z, t, hp, hz⟩ := (h.pieces x List.mem_cons_self hx (hbreak x rfl)).inked
    rw [spelled, if_neg hx, if_neg (by simp [hbreak x rfl]), hp] at hy
    cases hy
    exact hz

/-- Behind a line end the text is indented, unless it ends there. -/
theorem spelled_true (hspace : cs.head? ≠ some ' ') (hbreak : ∀ x, cs.head? = some x → brk x = false) :
    spelled brk piece indentation true cs =
      (if cs = [] then [] else List.replicate indentation ' ') ++ spelled brk piece indentation false cs := by
  cases cs with
  | nil => rfl
  | cons x cs =>
    have hx : x ≠ ' ' := fun heq => hspace (by rw [heq]; rfl)
    simp [spelled, hx, hbreak x rfl]

/-- Line ends and the indentation behind them make a gap of the line ends alone. -/
theorem gapOf_breaks {b : Char} {bs : List Char} (n : Nat) (hb : isKept b = true)
    (hbs : ∀ x ∈ bs, x ≠ ' ') :
    gapOf {} (b :: bs ++ List.replicate n ' ') = { first := [b], more := bs, broken := true } := by
  have hmore : ∀ g : Gap, g.broken = true → gapOf g (bs ++ List.replicate n ' ') = { g with more := g.more ++ bs } := by
    induction bs with
    | nil =>
      intro g hg
      rw [List.nil_append, gapOf_spaces_broken g hg, List.append_nil]
    | cons x bs ih =>
      intro g hg
      rw [List.cons_append, gapOf, if_neg (hbs x List.mem_cons_self), if_pos hg,
        ih (fun y hy => hbs y (List.mem_cons_of_mem _ hy)) { g with more := g.more ++ [x] } hg]
      simp
  rw [List.cons_append, gapOf, if_neg (ne_of_isKept hb).2.1, if_neg (by decide), hmore _ rfl]
  rfl

theorem columnAfter_breaks {b : Char} {bs : List Char} (n : Nat) (hbs : ∀ x ∈ b :: bs, x ≠ ' ') (col : Nat) :
    columnAfter col (b :: bs ++ List.replicate n ' ') = n := by
  induction bs generalizing b col with
  | nil =>
    rw [List.cons_append, columnAfter, if_neg (hbs b List.mem_cons_self), List.nil_append, columnAfter_spaces,
      Nat.zero_add]
  | cons x bs ih =>
    rw [List.cons_append, columnAfter]
    exact ih (fun y hy => hbs y (List.mem_cons_of_mem _ hy)) _

theorem foldBreaks_of_ne {b : Char} (hb : b ≠ '\n') (bs : List Char) : foldBreaks [b] bs = b :: bs := by
  unfold foldBreaks
  split
  · rename_i heq
    cases heq
    exact absurd rfl hb
  · rfl

theorem QuotedText.no_space {bs rest : List Char} (h : QuotedText single brk piece (x :: bs ++ rest))
    (hbs : ∀ y ∈ x :: bs, brk y = true) : rest.head? ≠ some ' ' := by
  intro hhead
  obtain ⟨t, rfl⟩ : ∃ t, rest = ' ' :: t := by
    cases rest with
    | nil => cases hhead
    | cons z t => cases hhead; exact ⟨t, rfl⟩
  obtain ⟨l, y, heq⟩ : ∃ l y, x :: bs = l ++ [y] := (List.eq_nil_or_concat' (x :: bs)).resolve_left (by simp)
  have hno := h.breakThenSpace l y t (by rw [heq, List.append_assoc]; rfl)
  rw [hbs y (by rw [heq]; simp)] at hno
  cases hno

/-- The white space `gap` of a text stands in quotes as `ws`, and the text goes on with `rest`. -/
structure Spaced (single : Bool) (brk : Char → Bool) (piece : Char → List Char) (indentation : Nat)
    (gap ws rest : List Char) : Prop where
  spelled_eq : spelled brk piece indentation false (gap ++ rest) = ws ++ spelled brk piece indentation false rest
  text_eq : (gapOf {} ws).text = gap
  white : White ws
  ne_nil : gap ≠ [] ∧ ws ≠ []
  column : ∀ col, columnAfter col ws = 0 → rest = []
  inked : ∀ r, Inked (spelled brk piece indentation false rest ++ quoteSign single :: r)

theorem exists_cons_of_head? (h : cs.head? = some x) : ∃ t, cs = x :: t := by
  cases cs with
  | nil => cases h
  | cons y t =>
    cases h
    exact ⟨t, rfl⟩

/-- Spaces on a line. -/
theorem QuotedText.spaced_spaces {rest : List Char} {n : Nat}
    (h : QuotedText single brk piece (List.replicate (n + 1) ' ' ++ rest)) (hhead : rest.head? ≠ some ' ') :
    Spaced single brk piece indentation (List.replicate (n + 1) ' ') (List.replicate (n + 1) ' ') rest where
  spelled_eq := spelled_spaces false (n + 1) rest
  text_eq := by rw [gapOf_spaces _ rfl, Gap.text, if_neg (by simp)]; rfl
  white := white_spaces (n + 1)
  ne_nil := by simp
  column := by
    intro col hcol
    rw [columnAfter_spaces] at hcol
    omega
  inked := by
    refine h.suffix.inked hhead fun y hy => ?_
    obtain ⟨t, rfl⟩ := exists_cons_of_head? hy
    refine h.spaceThenBreak (List.replicate n ' ') y t ?_
    rw [List.replicate_succ']
    simp

/-- Line ends, and the indentation of the line behind them. -/
theorem QuotedText.spaced_lines {bs rest : List Char} (h : QuotedText single brk piece (x :: bs ++ rest))
    (hbs : ∀ y ∈ x :: bs, brk y = true) (hrest : ∀ y, rest.head? = some y → brk y = false)
    (hindentation : indentation ≠ 0) :
    ∃ ws, Spaced single brk piece indentation (x :: bs) ws rest := by
  have hkept : ∀ y ∈ x :: bs, isKept y = true ∧ y ≠ '\n' := fun y hy =>
    h.breaks y (List.mem_append_left rest hy) (hbs y hy)
  have hspace : ∀ y ∈ x :: bs, y ≠ ' ' := fun y hy => (ne_of_isKept (hkept y hy).1).2.1
  have hhead := h.no_space hbs
  -- the closing quote may stand at the left edge, but a character of the text does not
  obtain ⟨n, hn, hindent⟩ : ∃ n, (n = 0 → rest = []) ∧
      (if rest = [] then [] else List.replicate indentation ' ') = List.replicate n ' ' := by
    by_cases hnil : rest = []
    · exact ⟨0, fun _ => hnil, by rw [if_pos hnil]; rfl⟩
    · exact ⟨indentation, fun hzero => absurd hzero hindentation, by rw [if_neg hnil]⟩
  refine ⟨x :: bs ++ List.replicate n ' ', ?_, ?_, ?_, ?_, ?_, ?_⟩
  · rw [spelled_breaks (fun y hy => ⟨hspace y hy, hbs y hy⟩) (by simp), spelled_true hhead hrest, hindent,
      List.append_assoc]
  · rw [gapOf_breaks n (hkept x List.mem_cons_self).1 fun y hy => hspace y (List.mem_cons_of_mem _ hy), Gap.text,
      if_pos rfl, foldBreaks_of_ne (hkept x List.mem_cons_self).2]
  · intro y hy
    rcases List.mem_append.mp hy with hy | hy
    · exact Or.inr (hkept y hy).1
    · exact white_spaces n y hy
  · simp
  · intro col hcol
    rw [columnAfter_breaks n hspace] at hcol
    exact hn hcol
  · exact QuotedText.inked (QuotedText.suffix h) hhead hrest

/-- A text is a word, or a word, white space and more. -/
theorem QuotedText.cut (h : QuotedText single brk piece cs) (hindentation : indentation ≠ 0) :
    ∃ w rest, cs = w ++ rest ∧ (∀ x ∈ w, x ≠ ' ' ∧ brk x = false) ∧
      (rest = [] ∨ ∃ gap ws rest', rest = gap ++ rest' ∧ Spaced single brk piece indentation gap ws rest') := by
  obtain ⟨w, rest, rfl, hw, hrest⟩ := exists_run (fun x => x ≠ ' ' && !brk x) cs
  refine ⟨w, rest, rfl, fun x hx => by simpa using hw x hx, ?_⟩
  have htail := h.suffix
  cases rest with
  | nil => exact Or.inl rfl
  | cons x rest =>
    refine Or.inr ?_
    by_cases hx : x = ' '
    · subst hx
      obtain ⟨n, rest', rfl, hhead⟩ := exists_spaces rest
      exact ⟨_, _, rest', rfl, QuotedText.spaced_spaces htail hhead⟩
    · have hxb : brk x = true := by simpa [hx] using hrest x rfl
      obtain ⟨bs, rest', rfl, hbs, hrest'⟩ := exists_run brk rest
      obtain ⟨ws, hspaced⟩ := QuotedText.spaced_lines htail (List.forall_mem_cons.mpr ⟨hxb, hbs⟩) hrest' hindentation
      exact ⟨_, ws, rest', rfl, hspaced⟩

/-- **A text in quotes is read back.** -/
theorem quotedRuns_eq (h : QuotedText single brk piece cs) (hr : r.head? ≠ some '\x27') (hindentation : indentation ≠ 0)
    (hc : At c (spelled brk piece indentation false cs ++ quoteSign single :: r) col) (hcol : col = 0 → cs = [])
    (hfuel : cs.length < fuel) :
    ∃ c' col', quotedRuns single start fuel c = .ok (cs, c') ∧ At c' r col' := by
  induction hn : cs.length using Nat.strong_induction_on generalizing cs fuel c col with
  | _ n ih =>
    cases fuel with
    | zero => omega
    | succ fuel =>
      -- at the left edge there is nothing but the closing quote
      have hmark : c.atDocumentMark = false := by
        by_cases hzero : col = 0
        · rw [hcol hzero] at hc
          refine hc.not_atDocumentMark_of_head ?_ ?_ <;> cases single <;> simp [spelled, quoteSign]
        · exact hc.not_atDocumentMark hzero
      obtain ⟨w, rest, rfl, hw, hrest⟩ := h.cut hindentation
      have hpieces : ∀ x ∈ w, Piece single x (piece x) := fun x hx =>
        h.pieces x (List.mem_append_left _ hx) (hw x hx).1 (hw x hx).2
      rw [spelled_word hw, List.append_assoc] at hc
      -- the last word, or a word with white space and more behind it
      rcases hrest with rfl | ⟨gap, ws, rest', rfl, hspaced⟩
      · rw [List.append_nil]
        exact quotedRuns_last hpieces hr hc hmark
      · rw [hspaced.spelled_eq, List.append_assoc] at hc
        obtain ⟨c', hgap, hc'⟩ := exists_gap {} hc.skipN hspaced.white (hspaced.inked r)
        have hpos := List.length_pos_of_ne_nil hspaced.ne_nil.1
        simp only [List.length_append] at hn hfuel
        have hshort : rest'.length < fuel := by omega
        obtain ⟨c'', col'', hruns, hc''⟩ := ih rest'.length (by omega) h.suffix.suffix hc' (hspaced.column _) hshort rfl
        refine ⟨c'', col'', ?_, hc''⟩
        rw [quotedRuns_step hpieces hspaced.white hspaced.ne_nil.2 hc hmark hgap, hruns, hspaced.text_eq]
        simp [Except.map]

theorem QuotedText.length_le (h : QuotedText single brk piece cs) (n : Nat) (afterBreak : Bool) :
    cs.length ≤ (spelled brk piece n afterBreak cs).length := by
  induction cs generalizing afterBreak with
  | nil => exact Nat.le_refl _
  | cons x cs ih =>
    have htail : QuotedText single brk piece cs := QuotedText.suffix (a := [x]) h
    rw [spelled]
    split
    · exact Nat.succ_le_succ (ih htail _)
    · split
      · exact Nat.succ_le_succ (ih htail _)
      · rename_i hspace hbreak
        obtain ⟨y, t, hp, _⟩ := (h.pieces x List.mem_cons_self hspace (by simpa using hbreak)).inked
        have hle := ih htail false
        rw [hp]
        simp only [List.length_cons, List.length_append]
        omega

/-- From the opening quote on, which is one character before. -/
theorem quotedScalar_eq (h : QuotedText single brk piece cs) (hr : r.head? ≠ some '\x27')
    (hindentation : indentation ≠ 0)
    (hc : At c (quoteSign single :: (spelled brk piece indentation false cs ++ quoteSign single :: r)) col) :
    ∃ c' col', quotedScalar single c = .ok (cs, c') ∧ At c' r col' := by
  have hlen := h.length_le indentation false
  refine quotedRuns_eq h hr hindentation hc.skip (by omega) ?_
  rw [hc.rest]
  simp only [List.length_cons, List.length_append]
  omega

/-! ### Characters in quotes

For each way of spelling a character it is shown that the reader takes the character from it and goes on behind
it.  This is all that `Piece` asks for, so the theorem above does not depend on the list of escapes. -/

/-- A character that stands for itself. -/
theorem piece_self (hink : isInk x = true) (hquote : x ≠ quoteSign single) (hslash : single = false → x ≠ '\\') :
    Piece single x [x] where
  inked := ⟨x, [], rfl, hink⟩
  run := by
    intro c c' r run start col fuel broken hc hrest
    have hblank : isBlankOrEnd (some x) = false := by simpa [isInk] using hink
    rw [quotedRun, hc.head]
    simp only [List.cons_append, List.head?_cons, hblank, Bool.false_eq_true, if_false]
    have hskip : c.skipN [x].length = c.skip := rfl
    rw [hskip] at hrest
    rw [hrest, hc.skip.need]
    cases single with
    | true =>
      have hx : x ≠ '\x27' := hquote
      simp [hx, bind, Except.bind, pure, Except.pure]
    | false =>
      have hx : x ≠ '"' := hquote
      simp [hx, hslash rfl, bind, Except.bind, pure, Except.pure]

/-- A quote that is written twice. -/
theorem piece_quote : Piece true '\x27' ['\x27', '\x27'] where
  inked := ⟨_, _, rfl, by decide⟩
  run := by
    intro c c' r run start col fuel broken hc hrest
    have hskip : c.skipN ['\x27', '\x27'].length = c.skip.skip := rfl
    have hpeek : c.peek 1 = some '\x27' := by
      rw [hc.peek]
      rfl
    rw [hskip] at hrest
    rw [quotedRun, hc.head]
    simp only [List.cons_append, List.head?_cons]
    rw [if_neg (by decide), if_pos (by decide), if_pos hpeek, hc.skip.skip.need, hrest]
    rfl

/-- A backslash and what belongs to it. -/
theorem piece_escape {p : List Char} (hp : p ≠ []) (hbreak : isBreak p.head? = false)
    (hescaped : ∀ {c : Cursor} {r : List Char} {start : Mark} {col : Nat}, At c ('\\' :: p ++ r) col →
      escaped start c = .ok (x, c.skipN ('\\' :: p).length)) : Piece false x ('\\' :: p) where
  inked := ⟨_, _, rfl, by decide⟩
  run := by
    intro c c' r run start col fuel broken hc hrest
    have hpeek : isBreak (c.peek 1) = false := by
      rw [hc.peek]
      cases p with
      | nil => exact absurd rfl hp
      | cons y p => exact hbreak
    rw [quotedRun, hc.head, hescaped hc]
    simp only [List.cons_append, List.head?_cons]
    rw [if_neg (by decide), if_neg (by decide), if_neg (by decide), if_pos (by decide), hpeek, if_neg (by decide)]
    simp only [bind, Except.bind]
    rw [hc.skipN.need, hrest]
    rfl

/-- A letter that stands for a character. -/
theorem piece_letter {l : Char} (hl : escapes.lookup l = some x) (hbreak : isBreakChar l = false) :
    Piece false x ['\\', l] := by
  refine piece_escape (by simp) hbreak ?_
  intro c r start col hc
  have hpeek : c.peek 1 = some l := by
    rw [hc.peek]
    rfl
  rw [escaped, hpeek]
  dsimp only
  rw [hl]
  rfl

/-- The number of a character. -/
theorem piece_number {l : Char} {digits : List Char} (hl : escapes.lookup l = none)
    (hdigits : escapeDigits l = some digits.length) (hnumber : hexNumber? digits = some x.toNat)
    (hbreak : isBreakChar l = false) : Piece false x ('\\' :: l :: digits) := by
  refine piece_escape (by simp) hbreak ?_
  intro c r start col hc
  have hpeek : c.peek 1 = some l := by
    rw [hc.peek]
    rfl
  have hc₂ : At c.skip.skip (digits ++ r) (col + 1 + 1) := hc.skip.skip
  -- the number is that of a character, so it is not refused
  have hvalid : ¬ ((0xD800 ≤ x.toNat ∧ x.toNat ≤ 0xDFFF) ∨ x.toNat > 0x10FFFF) := by
    have hv : x.toNat < 0xD800 ∨ 0xDFFF < x.toNat ∧ x.toNat < 0x110000 := x.valid
    omega
  rw [escaped, hpeek]
  dsimp only
  rw [hl, hdigits]
  dsimp only
  rw [hc₂.need, hc₂.rest, List.take_left]
  simp only [bind, Except.bind, Nat.lt_irrefl, if_false, hnumber]
  rw [if_neg hvalid, Char.ofNat_toNat]
  rfl

end AgentKit.Yaml
