import AgentKit.Proofs.Yaml.Flow
import Mathlib.Tactic
/-!
# Literal blocks

A literal block stands in lines of its own, each as far in as the first, and its text is what remains when these
spaces are taken off.  Empty lines need no spaces.  What becomes of the line ends at the end is said in the first
line by a sign (`Chomping.sign`), and so is the number of spaces if the first line starts with one.

The reader takes a line, then the line ends behind it up to the next line of the block, and holds these line ends
back until it knows that a line follows (`blockLines_step`).  A text is therefore cut into a line, the line ends
behind it and the rest (`block_cut`), and the induction is on the length of the rest.

There are three ways in which a text can end, and a sign for each.  Without a line end one is added and stripped
again; a single one is clipped, that is kept; and several are all kept.  The sign is determined by the end of the
text alone (`chompOf_append`), so it stays the same when the first line is taken off.

Where the number of spaces is written, it is four.  It counts from the collection around the block, so it is right in
a collection at the left edge with its lines at column four, and only there; `blockScalar_four` and
`blockScalar_shortened` are stated for this place.

1. Line ends and the spaces before the next line (`Margin`, `blockBreaks_eq`).
2. **The lines are read back** (`blockLines_eq`), with the line ends at the end as `chompOf` writes them.
3. **A block is read back** if its first character is neither blank nor a line end (`blockScalar_eq`), and if it is
   a space in what starts at the left edge (`blockScalar_four`); **a line end at the start is lost** there
   (`blockScalar_shortened`).
-/

namespace AgentKit.Yaml

open Cursor

variable {c : Cursor} {cs bs t r : List Char} {x : Char} {col fuel n j k widest : Nat} {start : Mark} {chomp : Chomping}

/-! ## 1. Line ends

Between two lines of a block the reader passes empty lines, and before each of them as many spaces as belong to
the block.  While the indentation is not known yet, it passes all spaces and remembers the widest line. -/

theorem takeWhile_spaces {j : Nat} (ht : t.head? ≠ some ' ') :
    ((List.replicate j ' ' ++ t).takeWhile (· = ' ')).length = j := by
  rw [takeWhile_append (fun x hx => by simpa using List.eq_of_mem_replicate hx), List.length_replicate]
  intro x hx
  refine decide_eq_false ?_
  rintro rfl
  exact ht hx

theorem le_takeWhile_spaces (j : Nat) (t : List Char) :
    j ≤ ((List.replicate j ' ' ++ t).takeWhile (· = ' ')).length := by
  rw [List.takeWhile_append_of_pos (fun x hx => by simpa using List.eq_of_mem_replicate hx)]
  simp

/-- The spaces before a line are passed, and a line end may follow. -/
theorem blockBreaks_succ {c₁ : Cursor} (hskip : c.skipN (if n = 0 then (c.rest.takeWhile (· = ' ')).length
      else min (c.rest.takeWhile (· = ' ')).length (n - c.mark.column)) = c₁)
    (hc : At c₁ t col) (htab : (n = 0 ∨ col < n) → t.head? ≠ some '\t') :
    blockBreaks start n (fuel + 1) widest c =
      if isBreak t.head? then
        (blockBreaks start n fuel (max widest col) c₁.skipLine).map fun e => (c₁.lineText ++ e.1, e.2.1, e.2.2)
      else .ok ([], max widest col, c₁) := by
  -- a tab is an error only where the indentation is not reached
  have hfine : ((n = 0 || decide (col < n)) && decide (t.head? = some '\t')) = false := by
    rw [Bool.and_eq_false_iff, decide_eq_false_iff_not]
    by_cases h : n = 0 ∨ col < n
    · exact Or.inr (htab h)
    · exact Or.inl (by simpa using h)
  rw [blockBreaks, hskip]
  simp only [bind, Except.bind]
  rw [hc.need, hc.sees, hc.head, hc.column, hfine]
  simp only [Bool.false_eq_true, if_false]
  cases isBreak t.head? with
  | false => rfl
  | true => cases blockBreaks start n fuel (max widest col) c₁.skipLine <;> rfl

/-- The first line of a block that is as far in as its first character. -/
theorem blockBreaks_first (hc : At c (List.replicate n ' ' ++ x :: t) 0) (hspace : x ≠ ' ') (htab : x ≠ '\t')
    (hbreak : isBreakChar x = false) :
    ∃ c', blockBreaks start 0 (fuel + 1) 0 c = .ok ([], n, c') ∧ At c' (x :: t) n := by
  have hskip := hc.skipN
  rw [List.length_replicate, Nat.zero_add] at hskip
  refine ⟨c.skipN n, ?_, hskip⟩
  rw [blockBreaks_succ _ hskip (by simpa using htab), List.head?_cons, isBreak, hbreak, Nat.zero_max]
  · rfl
  · rw [if_pos rfl, hc.rest, takeWhile_spaces (by simpa using hspace)]

/-- The spaces before a line: all that belong to the block, or fewer if the line does not. -/
def Margin (n j : Nat) (t : List Char) : Prop :=
  j = n ∨ j < n ∧ t.head? ≠ some ' ' ∧ t.head? ≠ some '\t'

/-- Of the spaces before a line, the reader passes those that belong to the block. -/
theorem Margin.width (h : Margin n j t) :
    min ((List.replicate j ' ' ++ t).takeWhile (· = ' ')).length n = j := by
  rcases h with rfl | ⟨hj, hspace, _⟩
  · exact Nat.min_eq_right (le_takeWhile_spaces j t)
  · rw [takeWhile_spaces hspace]
    exact Nat.min_eq_left (Nat.le_of_lt hj)

theorem blockBreaks_cons {b : Char} (hn : n ≠ 0) (hb : isKept b = true) (hc : At c (b :: t) 0) :
    blockBreaks start n (fuel + 1) widest c =
      (blockBreaks start n fuel widest c.skipLine).map fun e => (b :: e.1, e.2.1, e.2.2) := by
  obtain ⟨_, hspace, htab⟩ := ne_of_isKept hb
  rw [blockBreaks_succ _ hc (by simpa using fun _ => htab), List.head?_cons, isBreak, isBreakChar_of_isKept hb,
    lineText_of_isKept hb hc, Nat.max_zero]
  · rfl
  · rw [if_neg hn, hc.rest, List.takeWhile_cons_of_neg (by simpa using hspace), List.length_nil, Nat.zero_min]
    rfl

theorem blockBreaks_nil (hn : n ≠ 0) (hmargin : Margin n j t) (ht : isBreak t.head? = false)
    (hc : At c (List.replicate j ' ' ++ t) 0) :
    blockBreaks start n (fuel + 1) widest c = .ok ([], max widest j, c.skipN j) ∧ At (c.skipN j) t j := by
  have hskip := hc.skipN
  rw [List.length_replicate, Nat.zero_add] at hskip
  refine ⟨?_, hskip⟩
  rw [blockBreaks_succ _ hskip, ht]
  · rfl
  · intro hlow
    rcases hmargin with rfl | ⟨_, _, htab⟩
    · omega
    · exact htab
  · rw [if_neg hn, hc.rest, hc.column, Nat.sub_zero, hmargin.width]

/-- **Empty lines are read up to the next line that has something on it.** -/
theorem blockBreaks_eq (hn : n ≠ 0) (hbs : ∀ x ∈ bs, isKept x = true) (hmargin : Margin n j t)
    (ht : isBreak t.head? = false) (hc : At c (bs ++ (List.replicate j ' ' ++ t)) 0) (hfuel : bs.length < fuel) :
    ∃ c' widest', blockBreaks start n fuel widest c = .ok (bs, widest', c') ∧ At c' t j := by
  induction bs generalizing fuel c widest with
  | nil =>
    cases fuel with
    | zero => simp at hfuel
    | succ fuel => exact ⟨_, _, blockBreaks_nil hn hmargin ht hc⟩
  | cons b bs ih =>
    cases fuel with
    | zero => simp at hfuel
    | succ fuel =>
      have hb := hbs b List.mem_cons_self
      have hline := hc.skipLine (isBreakChar_of_isKept hb) (ne_of_isKept hb).1
      obtain ⟨c', widest', heq, hc'⟩ := ih (fun x hx => hbs x (List.mem_cons_of_mem _ hx))
        hline (Nat.lt_of_succ_lt_succ hfuel)
      refine ⟨c', widest', ?_, hc'⟩
      rw [blockBreaks_cons hn hb hc, heq]
      rfl

/-! ## 2. Lines

`blockBody` is the text with the indentation put in.  It differs from the text in two ways only: the lines that
are not empty get their spaces, and a last line without an end gets one. -/

/-- The lines of a block behind the first `n` spaces: further lines get the same spaces, empty ones none. -/
def blockBody (n : Nat) : Bool → List Char → List Char
  | fresh, [] => if fresh then [] else ['\n']
  | fresh, x :: cs =>
    if isBreakChar x then x :: blockBody n true cs
    else (if fresh then List.replicate n ' ' else []) ++ x :: blockBody n false cs

/-- What becomes of the line ends at the end of a text. -/
def chompOf (cs : List Char) : Chomping :=
  match cs.reverse with
  | x :: rest => if !isBreakChar x then .strip else if rest.isEmpty ∨ isBreak rest.head? then .keep else .clip
  | [] => .strip

theorem blockBody_line {line : List Char} (hline : ∀ x ∈ line, isBreakChar x = false) (cs : List Char) :
    blockBody n false (line ++ cs) = line ++ blockBody n false cs := by
  induction line with
  | nil => rfl
  | cons x line ih =>
    rw [List.cons_append, blockBody, if_neg (by simp [hline x List.mem_cons_self]),
      ih fun y hy => hline y (List.mem_cons_of_mem _ hy)]
    rfl

/-- Line ends stand as they are, and the next line is a fresh one. -/
theorem blockBody_breaks (hbs : ∀ x ∈ bs, isBreakChar x = true) (hne : bs ≠ []) (fresh : Bool) (cs : List Char) :
    blockBody n fresh (bs ++ cs) = bs ++ blockBody n true cs := by
  induction bs generalizing fresh with
  | nil => exact absurd rfl hne
  | cons x bs ih =>
    rw [List.cons_append, blockBody, if_pos (hbs x List.mem_cons_self)]
    cases bs with
    | nil => rfl
    | cons y bs => rw [ih (fun z hz => hbs z (List.mem_cons_of_mem _ hz)) (by simp)]; rfl

theorem blockBody_cons (hx : isBreakChar x = false) (cs : List Char) :
    blockBody n false (x :: cs) = x :: blockBody n false cs := by
  simp [blockBody, hx]

theorem blockBody_fresh (hx : isBreakChar x = false) (cs : List Char) :
    blockBody n true (x :: cs) = List.replicate n ' ' ++ blockBody n false (x :: cs) := by
  simp [blockBody, hx]

theorem isBreak_blockBody (hx : isBreakChar x = false) (cs t : List Char) :
    isBreak (blockBody n false (x :: cs) ++ t).head? = false := by
  rw [blockBody_cons hx]
  exact hx

/-- **The sign depends on the end of the text only.** -/
theorem chompOf_append (a : List Char) {x : Char} {t : List Char} (hx : isBreakChar x = false) :
    chompOf (a ++ x :: t) = chompOf (x :: t) := by
  unfold chompOf
  rw [List.reverse_append]
  cases h : (x :: t).reverse with
  | nil => simp at h
  | cons y rest =>
    cases rest with
    | nil =>
      have hy : x :: t = [y] := List.reverse_eq_iff.mp h
      cases hy
      simp [hx]
    | cons z rest => simp

theorem chompOf_line {line : List Char} (hline : ∀ x ∈ line, isBreakChar x = false) : chompOf line = .strip := by
  unfold chompOf
  cases h : line.reverse with
  | nil => rfl
  | cons x rest =>
    have hx : x ∈ line := by
      rw [← List.mem_reverse, h]
      exact List.mem_cons_self
    simp [hline x hx]

/-- A single line end is kept by clipping. -/
theorem chompOf_clip {line : List Char} {b : Char} (hne : line ≠ []) (hline : ∀ x ∈ line, isBreakChar x = false)
    (hb : isBreakChar b = true) : chompOf (line ++ [b]) = .clip := by
  unfold chompOf
  rw [List.reverse_append]
  cases h : line.reverse with
  | nil => exact absurd (List.reverse_eq_nil_iff.mp h) hne
  | cons x rest =>
    have hx : x ∈ line := by
      rw [← List.mem_reverse, h]
      exact List.mem_cons_self
    simp [hb, isBreak, hline x hx]

/-- Several line ends are kept as they are. -/
theorem chompOf_keep {a : List Char} (hne : bs ≠ []) {b : Char} (hbs : ∀ x ∈ b :: bs, isBreakChar x = true) :
    chompOf (a ++ b :: bs) = .keep := by
  obtain ⟨l, y, rfl⟩ := (List.eq_nil_or_concat' bs).resolve_left hne
  obtain ⟨l', z, hl'⟩ := (List.eq_nil_or_concat' (b :: l)).resolve_left (by simp)
  have hz : isBreakChar z = true := hbs z (by
    rw [← List.cons_append, hl']
    simp)
  have hy : isBreakChar y = true := hbs y (by simp)
  have heq : a ++ b :: (l ++ [y]) = a ++ l' ++ [z] ++ [y] := by
    rw [← List.cons_append, hl']
    simp
  rw [heq]
  unfold chompOf
  simp [hy, hz, isBreak]

variable {first more line : List Char} {blankBefore : Bool}

/-- A line of a literal block, and the line ends behind it. -/
theorem blockLines_step {b : Char} (hne : line ≠ []) (hline : ∀ x ∈ line, isBreakChar x = false)
    (hb : isKept b = true) (hc : At c (line ++ b :: t) n) :
    ∃ c₁, At c₁ t 0 ∧ ∀ {bs : List Char} {widest' : Nat} {c' : Cursor},
      blockBreaks start n ((b :: t).length + 1) 0 c₁ = .ok (bs, widest', c') →
      ∃ blank, blockLines start true chomp n (fuel + 1) first more blankBefore c =
        (blockLines start true chomp n fuel [b] bs blank c').map fun e => (first ++ more ++ line ++ e.1, e.2) := by
  have hend : ∀ y, (b :: t).head? = some y → (!isBreakChar y) = false := by
    intro y hy
    cases hy
    simp [isBreakChar_of_isKept hb]
  -- the line ends at the first line end, whatever else is on it
  have hc₁ : At c.skipToBreak (b :: t) (n + line.length) := by
    refine hc.skipWhile (fun x hx => ?_) ?_
    · simp [isBreakOrEnd, isBreak, hline x hx]
    · intro y hy
      simpa [isBreakOrEnd, isBreak] using hend y hy
  have hc₂ := hc₁.skipLine (isBreakChar_of_isKept hb) (ne_of_isKept hb).1
  refine ⟨_, hc₂, fun {bs widest' c'} hbreaks => ⟨isBlank c.head, ?_⟩⟩
  have hsome : c.head.isSome = true := by
    obtain ⟨y, l, rfl⟩ := List.exists_cons_of_ne_nil hne
    rw [hc.head]
    rfl
  have htake : c.rest.takeWhile (fun ch => !isBreakChar ch) = line := by
    rw [hc.rest]
    exact takeWhile_append (fun x hx => by simp [hline x hx]) hend
  conv_lhs => unfold blockLines
  rw [hc.column, hsome, htake]
  simp only [bind, Except.bind]
  rw [hc₁.need, hc₁.rest, lineText_of_isKept hb hc₁, hbreaks]
  simp only [decide_true, Bool.and_self, if_true, Bool.true_or]
  cases blockLines start true chomp n fuel [b] bs (isBlank c.head) c' <;> rfl

/-- The line ends that are left at the end of a block. -/
def Chomping.tail (first more : List Char) : Chomping → List Char
  | .strip => []
  | .clip => first
  | .keep => first ++ more

/-- The block ends before a line that is not so far in. -/
theorem blockLines_end (hc : At c t k) (hk : k ≠ n) :
    blockLines start true chomp n (fuel + 1) first more blankBefore c = .ok (chomp.tail first more, c) := by
  unfold blockLines
  rw [hc.column, decide_eq_false hk, Bool.false_and, if_neg (by decide)]
  cases chomp <;> rfl

/-- A text that can stand as a block: its line ends are such that are kept. -/
def BlockText (cs : List Char) : Prop := ∀ x ∈ cs, isBreakChar x = true → isKept x = true

/-- A text that does not start with a line end is one line, a line and line ends, or these and more. -/
theorem block_cut (cs : List Char) (hx : isBreakChar x = false) :
    ∃ line, line ≠ [] ∧ (∀ y ∈ line, isBreakChar y = false) ∧
      (x :: cs = line ∨ ∃ b bs rest, x :: cs = line ++ (b :: bs ++ rest) ∧ (∀ y ∈ b :: bs, isBreakChar y = true) ∧
        ∀ y, rest.head? = some y → isBreakChar y = false) := by
  obtain ⟨line, rest, heq, hline, hrest⟩ := exists_run (fun y => !isBreakChar y) (x :: cs)
  have hline : ∀ y ∈ line, isBreakChar y = false := fun y hy => by simpa using hline y hy
  refine ⟨line, ?_, hline, ?_⟩
  · rintro rfl
    have := hrest x (by rw [← heq.trans (List.nil_append rest)]; rfl)
    simp [hx] at this
  · cases rest with
    | nil => exact Or.inl (heq.trans (List.append_nil line))
    | cons b rest =>
      have hb : isBreakChar b = true := by simpa using hrest b rfl
      obtain ⟨bs, rest', rfl, hbs, hrest'⟩ := exists_run isBreakChar rest
      exact Or.inr ⟨b, bs, rest', heq, List.forall_mem_cons.mpr ⟨hb, hbs⟩, hrest'⟩

theorem Inked.margin (hr : Inked r) (hk : k < n) : Margin n k r := by
  refine Or.inr ⟨hk, ?_, ?_⟩ <;> intro h <;> exact absurd (hr _ h) (by decide)

theorem Inked.not_break (hr : Inked r) : isBreak r.head? = false := by
  cases r with
  | nil => rfl
  | cons y r => exact (isInk_iff.mp (hr y rfl)).2.2

/-- A line of a block, the line ends behind it, and the spaces before the next line. -/
theorem blockLines_line {b : Char} (hn : n ≠ 0) (hne : line ≠ []) (hline : ∀ x ∈ line, isBreakChar x = false)
    (hbs : ∀ x ∈ b :: bs, isKept x = true) (hmargin : Margin n j t) (ht : isBreak t.head? = false)
    (hc : At c (line ++ b :: (bs ++ (List.replicate j ' ' ++ t))) n) :
    ∃ c' blank, At c' t j ∧ blockLines start true chomp n (fuel + 1) first more blankBefore c =
      (blockLines start true chomp n fuel [b] bs blank c').map fun e => (first ++ more ++ line ++ e.1, e.2) := by
  obtain ⟨hb, hbs⟩ := List.forall_mem_cons.mp hbs
  obtain ⟨c₁, hc₁, hstep⟩ := blockLines_step hne hline hb hc
  have hfuel : bs.length < (b :: (bs ++ (List.replicate j ' ' ++ t))).length + 1 := by
    simp only [List.length_cons, List.length_append]
    omega
  obtain ⟨c₂, widest', hbreaks, hc₂⟩ := blockBreaks_eq hn hbs hmargin ht hc₁ hfuel
  obtain ⟨blank, heq⟩ := hstep hbreaks
  exact ⟨c₂, blank, hc₂, heq⟩

theorem blockLines_last {b : Char} (hn : n ≠ 0) (hne : line ≠ []) (hline : ∀ x ∈ line, isBreakChar x = false)
    (hbs : ∀ x ∈ b :: bs, isKept x = true) (hr : Inked r) (hk : k < n)
    (hc : At c (line ++ b :: (bs ++ (List.replicate k ' ' ++ r))) n) :
    ∃ c', blockLines start true chomp n (fuel + 2) first more blankBefore c =
        .ok (first ++ more ++ line ++ chomp.tail [b] bs, c') ∧ At c' r k := by
  obtain ⟨c', blank, hc', heq⟩ := blockLines_line hn hne hline hbs (hr.margin hk) hr.not_break hc
  refine ⟨c', ?_, hc'⟩
  rw [heq, blockLines_end hc' (by omega)]
  rfl

/-- **The lines of a block are read back.** -/
theorem blockLines_eq (hn : n ≠ 0) (hcs : BlockText (x :: cs)) (hx : isBreakChar x = false) (hr : Inked r)
    (hk : k < n) (hchomp : chomp = chompOf (x :: cs))
    (hc : At c (blockBody n false (x :: cs) ++ (List.replicate k ' ' ++ r)) n) (hfuel : (x :: cs).length < fuel) :
    ∃ c', blockLines start true chomp n fuel first more blankBefore c = .ok (first ++ more ++ x :: cs, c') ∧
      At c' r k := by
  induction hlen : (x :: cs).length using Nat.strong_induction_on
    generalizing x cs fuel c first more blankBefore with
  | _ m ih =>
    obtain ⟨fuel, rfl⟩ : ∃ f, fuel = f + 2 := ⟨fuel - 2, by simp only [List.length_cons] at hfuel; omega⟩
    obtain ⟨line, hne, hline, heq | ⟨b, bs, rest, heq, hbs, hrest⟩⟩ := block_cut cs hx
    · -- a line without an end gets one
      rw [heq, ← List.append_nil line, blockBody_line hline, List.append_assoc] at hc
      rw [heq, chompOf_line hline] at hchomp
      have hend : ∀ x ∈ ['\n'], isKept x = true := by simp [isKept]
      obtain ⟨c', hlast, hc'⟩ := blockLines_last hn hne hline hend hr hk hc
      refine ⟨c', ?_, hc'⟩
      rw [hlast, hchomp, Chomping.tail, List.append_nil, heq]
    · -- a line with its ends, and then nothing or more lines
      have hkept : ∀ y ∈ b :: bs, isKept y = true := fun y hy =>
        hcs y (by rw [heq]; exact List.mem_append_right _ (List.mem_append_left _ hy)) (hbs y hy)
      rw [heq, blockBody_line hline, blockBody_breaks hbs (by simp)] at hc
      cases rest with
      | nil =>
        have htail : chomp.tail [b] bs = b :: bs := by
          rw [hchomp, heq, List.append_nil]
          by_cases hnil : bs = []
          · rw [hnil, chompOf_clip hne hline (hbs b List.mem_cons_self)]
            rfl
          · rw [chompOf_keep hnil hbs]
            rfl
        have hbody : line ++ (b :: bs ++ blockBody n true []) ++ (List.replicate k ' ' ++ r) =
            line ++ b :: (bs ++ (List.replicate k ' ' ++ r)) := by
          simp [blockBody]
        rw [hbody] at hc
        obtain ⟨c', hlast, hc'⟩ := blockLines_last hn hne hline hkept hr hk hc
        refine ⟨c', ?_, hc'⟩
        rw [hlast, htail, heq]
        simp
      | cons y rest =>
        have hy := hrest y rfl
        have hbody : line ++ (b :: bs ++ blockBody n true (y :: rest)) ++ (List.replicate k ' ' ++ r) =
            line ++ b :: (bs ++ (List.replicate n ' ' ++
              (blockBody n false (y :: rest) ++ (List.replicate k ' ' ++ r)))) := by
          simp [blockBody_fresh hy]
        rw [hbody] at hc
        obtain ⟨c₁, blank, hc₁, hlines⟩ :=
          blockLines_line hn hne hline hkept (Or.inl rfl) (isBreak_blockBody hy rest _) hc
        have hlength : (x :: cs).length = line.length + (bs.length + 1 + (y :: rest).length) := by
          rw [heq, List.length_append, List.length_append, List.length_cons]
        have hrestText : BlockText (y :: rest) := fun z hz =>
          hcs z (by rw [heq]; exact List.mem_append_right _ (List.mem_append_right _ hz))
        -- the rest ends as the whole text does
        have hchomp' : chomp = chompOf (y :: rest) := by
          rw [hchomp, heq, ← List.append_assoc, chompOf_append _ hy]
        obtain ⟨c', hrestLines, hc'⟩ := ih (y :: rest).length (by omega) hrestText hy hchomp' hc₁
          (by omega : (y :: rest).length < fuel + 1) rfl
        refine ⟨c', ?_, hc'⟩
        rw [hlines, hrestLines, heq]
        simp [Except.map]

/-! ## 3. The first line

Behind the bar stand the number of spaces, if there is one, and the sign for the line ends.  The reader accepts
them in either order; the printer writes the number first. -/

/-- The sign for what becomes of the line ends at the end. -/
def Chomping.sign : Chomping → List Char
  | .strip => ['-']
  | .clip => []
  | .keep => ['+']

variable {b : Char}

theorem cases_of_isKept (hb : isKept b = true) : b = '\n' ∨ b = '\u2028' ∨ b = '\u2029' := by
  simp only [isKept, Bool.or_eq_true, decide_eq_true_eq, or_assoc] at hb
  exact hb.imp id (Or.imp (fun h => Char.toNat_inj.mp h) fun h => Char.toNat_inj.mp h)

/-- The sign is read as it is written, and there is none for clipping. -/
theorem chompingOf_sign (hb : isKept b = true) (hc : At c (chomp.sign ++ b :: t) col) :
    chompingOf c = if chomp = .clip then none else some chomp := by
  rw [chompingOf, hc.sees, hc.sees]
  cases chomp with
  | clip => rcases cases_of_isKept hb with rfl | rfl | rfl <;> rfl
  | strip | keep => rfl

/-- The signs of a block whose indentation shows. -/
theorem blockHeader_sign (hb : isKept b = true) (hc : At c (chomp.sign ++ b :: t) col) :
    ∃ c' col', blockHeader start c = .ok (chomp, 0, c') ∧ At c' (b :: t) col' := by
  -- behind the sign comes the line end and no number
  have hbreak : ∀ {c : Cursor} {col : Nat}, At c (b :: t) col → incrementOf start c = .ok none := by
    intro c col h
    rw [incrementOf, h.head]
    rcases cases_of_isKept hb with rfl | rfl | rfl <;> rfl
  rw [blockHeader, chompingOf_sign hb hc]
  cases chomp with
  | clip =>
    refine ⟨_, _, ?_, hc⟩
    dsimp only
    rw [if_pos rfl, hbreak hc]
    rfl
  | strip | keep =>
    refine ⟨_, _, ?_, hc.skip⟩
    rw [if_neg (by decide)]
    dsimp only
    rw [hbreak hc.skip]
    rfl

/-- The signs of a block whose indentation is given. -/
theorem blockHeader_four (hb : isKept b = true) (hc : At c ('4' :: (chomp.sign ++ b :: t)) col) :
    ∃ c' col', blockHeader start c = .ok (chomp, 4, c') ∧ At c' (b :: t) col' := by
  have hnone : chompingOf c = none := by
    rw [chompingOf, hc.sees, hc.sees]
    rfl
  have hfour : incrementOf start c = .ok (some 4) := by
    rw [incrementOf, hc.head]
    rfl
  rw [blockHeader, hnone]
  dsimp only
  rw [hfour]
  simp only [bind, Except.bind]
  rw [chompingOf_sign hb hc.skip]
  cases chomp with
  | clip => exact ⟨_, _, rfl, hc.skip⟩
  | strip | keep => exact ⟨_, _, rfl, hc.skip.skip⟩

/-- The column of a block's lines, `seen` being that of the first and `given` what was said about it. -/
def blockIndent (parent : Int) (given seen : Nat) : Nat :=
  if given = 0 then max (max seen (parent + 1).toNat) 1 else given

/-- Behind the first line. -/
theorem blockScalar_header (parent : Int) {increment : Nat} {head : List Char} (hb : isKept b = true)
    (hc : At c ('|' :: head) col)
    (hheader : ∀ {c : Cursor} {col : Nat}, At c head col →
      ∃ c' col', blockHeader start c = .ok (chomp, increment, c') ∧ At c' (b :: t) col')
    (hstart : c.mark = start) :
    ∃ c₁, At c₁ t 0 ∧ blockScalar true parent c =
      (blockBreaks start (if increment = 0 then 0 else if parent ≥ 0 then parent.toNat + increment else increment)
          (t.length + 1) 0 c₁).bind fun e =>
        blockLines start true chomp
          (blockIndent parent (if increment = 0 then 0 else if parent ≥ 0 then parent.toNat + increment else increment)
            e.2.1) (e.2.2.rest.length + 1) [] e.1 false e.2.2 := by
  obtain ⟨c', col', heq, hc'⟩ := hheader hc.skip
  have hbreak := isBreakChar_of_isKept hb
  have hblank : c'.skipWhile isBlank = c' := hc'.skipWhile_none (by simp [isBlank, ne_of_isKept hb])
  have hhash : c'.sees '#' = false := by
    rw [hc'.sees]
    rcases cases_of_isKept hb with rfl | rfl | rfl <;> rfl
  have hline := hc'.skipLine hbreak (ne_of_isKept hb).1
  refine ⟨c'.skipLine, hline, ?_⟩
  rw [blockScalar, hstart, heq]
  simp only [bind, Except.bind]
  rw [hblank, hhash]
  simp only [Bool.false_eq_true, if_false]
  rw [hc'.need, hc'.head]
  simp only [List.head?_cons, isBreakOrEnd, isBreak, hbreak, if_true]
  rw [hline.rest]
  rfl

variable {parent : Int}

/-- A text has fewer characters than the lines it is written in. -/
theorem length_blockBody (n : Nat) (fresh : Bool) (cs : List Char) : cs.length ≤ (blockBody n fresh cs).length := by
  induction cs generalizing fresh with
  | nil => exact Nat.zero_le _
  | cons x cs ih =>
    rw [blockBody]
    split
    · exact Nat.succ_le_succ (ih true)
    · rw [List.length_append, List.length_cons, List.length_cons]
      exact Nat.le_trans (Nat.succ_le_succ (ih false)) (Nat.le_add_left _ _)

/-- **A block whose indentation shows is read back**: its first line starts with a character that is neither blank nor
a break. -/
theorem blockScalar_eq (h : BlockText (x :: cs)) (hblank : isBlank x = false) (hbreak : isBreakChar x = false)
    (hr : Inked r) (hparent : parent < n) (hk : k < n)
    (hc : At c ('|' :: ((chompOf (x :: cs)).sign ++ '\n' ::
      (List.replicate n ' ' ++ (blockBody n false (x :: cs) ++ (List.replicate k ' ' ++ r))))) col) :
    ∃ c', blockScalar true parent c = .ok (x :: cs, c') ∧ At c' r k := by
  obtain ⟨c₁, hc₁, heq⟩ := blockScalar_header parent rfl hc (blockHeader_sign rfl) rfl
  have hbody : blockBody n false (x :: cs) ++ (List.replicate k ' ' ++ r) =
      x :: (blockBody n false cs ++ (List.replicate k ' ' ++ r)) := by
    rw [blockBody_cons hbreak, List.cons_append]
  obtain ⟨hspace, htab⟩ : x ≠ ' ' ∧ x ≠ '\t' := by simpa [isBlank] using hblank
  have hlength := length_blockBody n false (x :: cs)
  -- the column of the first line is that of the block, since it is further in than what is around it
  have hindent : blockIndent parent 0 n = n := by
    rw [blockIndent, if_pos rfl]
    omega
  rw [heq]
  rw [hbody] at hc₁ hc ⊢
  obtain ⟨c₂, hfirst, hc₂⟩ := blockBreaks_first hc₁ hspace htab hbreak
  rw [if_pos rfl, hfirst]
  simp only [Except.bind]
  rw [hindent]
  rw [← hbody] at hc₂
  show ∃ c', blockLines _ _ _ _ _ _ _ _ _ = .ok ([] ++ [] ++ x :: cs, c') ∧ _
  refine blockLines_eq (by omega) h hbreak hr hk rfl hc₂ ?_
  rw [hc₂.rest, List.length_append]
  omega

/-- **A block whose first line starts with a space is read back**, inside what starts at the left edge. -/
theorem blockScalar_four (h : BlockText (' ' :: cs)) (hr : Inked r) (hk : k < 4)
    (hc : At c ('|' :: '4' :: ((chompOf (' ' :: cs)).sign ++ '\n' ::
      (List.replicate 4 ' ' ++ (blockBody 4 false (' ' :: cs) ++ (List.replicate k ' ' ++ r))))) col) :
    ∃ c', blockScalar true 0 c = .ok (' ' :: cs, c') ∧ At c' r k := by
  obtain ⟨c₁, hc₁, heq⟩ := blockScalar_header 0 rfl hc (blockHeader_four rfl) rfl
  have hlength := length_blockBody 4 false (' ' :: cs)
  obtain ⟨hfirst, hc₂⟩ := blockBreaks_nil (by decide) (Or.inl rfl) (isBreak_blockBody rfl cs _) hc₁
  rw [heq, if_neg (by decide), if_pos (by decide), show (0 : Int).toNat + 4 = 4 from rfl, hfirst]
  simp only [Except.bind]
  show ∃ c', blockLines _ _ _ _ _ _ _ _ _ = .ok ([] ++ [] ++ ' ' :: cs, c') ∧ _
  refine blockLines_eq (by decide) h rfl hr hk rfl hc₂ ?_
  rw [hc₂.rest, List.length_append]
  omega

/-- **A block that starts with a line end loses it**, inside what starts at the left edge: the line end closes the
first line, which says that four spaces belong to the block, and is not part of the text. -/
theorem blockScalar_shortened (h : BlockText cs) (hb : isKept b = true) (hr : Inked r) (hk : k < 4)
    (hc : At c ('|' :: '4' :: ((chompOf (b :: cs)).sign ++ b ::
      (blockBody 4 true cs ++ (List.replicate k ' ' ++ r)))) col) :
    ∃ c', blockScalar true 0 c = .ok (cs, c') ∧ At c' r k := by
  obtain ⟨c₁, hc₁, heq⟩ := blockScalar_header 0 hb hc (blockHeader_four hb) rfl
  -- the line ends that follow are read before the first line, and count as the others do
  obtain ⟨bs, rest, rfl, hbs, hrest⟩ := exists_run isBreakChar cs
  have hkept : ∀ x ∈ bs, isKept x = true := fun x hx => h x (List.mem_append_left _ hx) (hbs x hx)
  have hbody : blockBody 4 true (bs ++ rest) = bs ++ blockBody 4 true rest := by
    cases bs with
    | nil => rfl
    | cons x bs => exact blockBody_breaks hbs (by simp) true rest
  rw [heq, if_neg (by decide), if_pos (by decide), show (0 : Int).toNat + 4 = 4 from rfl]
  have hindent : ∀ seen, blockIndent 0 4 seen = 4 := fun seen => rfl
  have hfuel : ∀ u : List Char, bs.length < (bs ++ u).length + 1 := by
    intro u
    rw [List.length_append]
    omega
  rw [hbody, List.append_assoc] at hc₁ ⊢
  cases rest with
  | nil =>
    -- line ends alone, which are all kept
    have hchomp : chompOf (b :: (bs ++ [])) = .keep := by
      rw [List.append_nil]
      cases bs with
      | nil => simp [chompOf, isBreakChar_of_isKept hb]
      | cons y bs =>
        exact chompOf_keep (a := []) (by simp) (List.forall_mem_cons.mpr ⟨isBreakChar_of_isKept hb, hbs⟩)
    obtain ⟨c₂, widest, hfirst, hc₂⟩ := blockBreaks_eq (by decide) hkept (hr.margin hk) hr.not_break hc₁ (hfuel _)
    refine ⟨c₂, ?_, hc₂⟩
    rw [show blockBody 4 true [] = [] from rfl, List.nil_append, hfirst]
    simp only [Except.bind]
    rw [hchomp, hindent, blockLines_end hc₂ (by omega)]
    simp [Chomping.tail]
  | cons y rest =>
    have hy := hrest y rfl
    have hlength := length_blockBody 4 false (y :: rest)
    rw [blockBody_fresh hy, List.append_assoc] at hc₁ ⊢
    obtain ⟨c₂, widest, hfirst, hc₂⟩ :=
      blockBreaks_eq (by decide) hkept (Or.inl rfl) (isBreak_blockBody hy rest _) hc₁ (hfuel _)
    have hchomp : chompOf (b :: (bs ++ y :: rest)) = chompOf (y :: rest) := chompOf_append (b :: bs) hy
    rw [hfirst]
    simp only [Except.bind]
    rw [hindent]
    show ∃ c', blockLines _ _ _ _ _ _ _ _ _ = .ok ([] ++ bs ++ y :: rest, c') ∧ _
    refine blockLines_eq (by decide) (fun x hx => h x (List.mem_append_right _ hx)) hy hr hk hchomp hc₂ ?_
    rw [hc₂.rest, List.length_append]
    omega

end AgentKit.Yaml
