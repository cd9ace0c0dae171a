import AgentKit.Yaml.Token.Stream
import AgentKit.Proofs.Yaml.Written
import Mathlib.Tactic
/-!
# A stream of tokens

The stream reads ahead and hands tokens out late, so that neither the queue nor the number of tokens handed out is
fixed at any place of the text.  `Emits` therefore speaks of the kinds of all tokens still to come, those in the
queue included, and a statement about a place of the text (`Goes`) holds for every queue.  What is handed out in
between is then of no account: after a token has been read, the rest is known for each way of cutting the queue
(`Emits.step`).  The one thing to know about a cut is that it does not pass a token that may start a key
(`Delivers.held`).

A key is known for one only when its colon comes.  Its scalar stays in the queue until then, and the start of the
map and the sign of the key are put in before it.  A scalar that is no key gives up this possibility in silence,
unless it had to be a key: that is so at the column of the innermost collection, and `Open` asks that no such key is
waiting.

Statements about a place of the text run backwards.  Given what the stream gives from some line on (`Goes`), they say
what it gives from the token before that line on.  So a sheet is put together from its end.

1. Handing out tokens (`deliver_eq`).
2. What a stream gives (`Emits.step`, `Emits.last`).
3. White space before a token (`toNextToken_spaces`, `Arrives.land`).
4. Reading one token (`fetch_eq`), where collections at given columns are open (`Open`).
5. **A scalar is one token**, whatever its style (`fetchContent_form`), and **an item is read back**
   (`emits_item`).
-/

namespace AgentKit.Yaml.TokenStream

open Cursor

variable {s s₁ s₂ : TokenStream} {ks : List TokenKind} {t r : List Char} {x : Char} {col k : Nat}

/-! ## 1. Handing out tokens

A token is handed out if it cannot become part of a key any more.  How many are handed out at a time depends on
how many wait in the queue, which the statements leave open. -/

/-- No token has to be held back for a key outside the innermost flow collection, and there is nothing wrong with
a key inside it. -/
structure Quiet (s : TokenStream) : Prop where
  outer : ∀ o ∈ s.outer, o = none
  key : ∀ k, s.key = some k → ∃ b, k.valid s.mark = .ok b

/-- The first tokens of the queue are handed out, but none from a key on that is still possible. -/
structure Delivers (s : TokenStream) (a b : List Token) : Prop where
  queue : s.queue = a ++ b
  held : ∀ k, s.key = some k → k.valid s.mark = .ok true → s.taken ≤ k.number → s.taken + a.length ≤ k.number

/-- The stream with the tokens `a` handed out and `b` left. -/
def handed (s : TokenStream) (a b : List Token) : TokenStream :=
  { s with queue := b, taken := s.taken + a.length }

theorem headMayBeKey_of_ne (houter : ∀ o ∈ s.outer, o = none) (hkey : ∀ k, s.key = some k → k.number ≠ s.taken) :
    s.headMayBeKey = .ok false := by
  have hall : (s.key :: s.outer).findSome? (fun k => k.filter (·.number = s.taken)) = none := by
    rw [List.findSome?_eq_none_iff, List.forall_mem_cons]
    refine ⟨?_, fun o ho => by rw [houter o ho]; rfl⟩
    cases hk : s.key with
    | none => rfl
    | some k => simpa using hkey k hk
  rw [headMayBeKey, hall]

theorem headMayBeKey_of_eq {k : PossibleKey} (hkey : s.key = some k) (hnumber : k.number = s.taken) :
    s.headMayBeKey = k.valid s.mark := by
  have hfound : (some k).filter (·.number = s.taken) = some k := by simp [hnumber]
  rw [headMayBeKey, hkey, List.findSome?_cons, hfound]

/-- The first token is handed out, unless it may be that of a key. -/
theorem deliver_cases (h : Quiet s) : s.headMayBeKey = .ok true ∨ s.headMayBeKey = .ok false ∧
    ∀ k, s.key = some k → k.valid s.mark = .ok true → s.taken ≤ k.number → s.taken + 1 ≤ k.number := by
  by_cases hfirst : ∃ k, s.key = some k ∧ k.number = s.taken
  · obtain ⟨k, hk, hnumber⟩ := hfirst
    obtain ⟨b, hvalid⟩ := h.key k hk
    rw [headMayBeKey_of_eq hk hnumber, hvalid]
    cases b with
    | true => exact Or.inl rfl
    | false =>
      refine Or.inr ⟨rfl, fun k' hk' hvalid' _ => ?_⟩
      rw [hk] at hk'
      cases hk'
      rw [hvalid] at hvalid'
      cases hvalid'
  · refine Or.inr ⟨headMayBeKey_of_ne h.outer fun k hk hnumber => hfirst ⟨k, hk, hnumber⟩, ?_⟩
    intro k hk _ hle
    have : k.number ≠ s.taken := fun hnumber => hfirst ⟨k, hk, hnumber⟩
    omega

/-- **Some of the tokens are handed out**, in their order, and there is no fault. -/
theorem deliver_eq (least fuel : Nat) (h : Quiet s) :
    ∃ a b, Delivers s a b ∧ deliver least fuel s = (a, .ok (s.handed a b)) := by
  induction fuel generalizing s with
  | zero => exact ⟨[], s.queue, ⟨rfl, fun k _ _ hk => hk⟩, rfl⟩
  | succ fuel ih =>
    -- in all cases but the last nothing is handed out
    have hnone : deliver least (fuel + 1) s = ([], .ok s) → ∃ a b, Delivers s a b ∧
        deliver least (fuel + 1) s = (a, .ok (s.handed a b)) :=
      fun heq => ⟨[], s.queue, ⟨rfl, fun k _ _ hk => hk⟩, heq⟩
    cases hqueue : s.queue with
    | nil => exact hnone (by rw [deliver, hqueue])
    | cons t rest =>
      by_cases hleast : (t :: rest).length < least
      · exact hnone (by simp only [deliver, hqueue, if_pos hleast])
      · rcases deliver_cases h with hkey | ⟨hkey, hheld⟩
        · exact hnone (by simp only [deliver, hqueue, if_neg hleast, hkey])
        · have hquiet : Quiet { s with queue := rest, taken := s.taken + 1 } := ⟨h.outer, h.key⟩
          obtain ⟨a, b, hab, heq⟩ := ih hquiet
          have hrest : rest = a ++ b := hab.queue
          refine ⟨t :: a, b, ⟨?_, ?_⟩, ?_⟩
          · rw [hqueue, hrest]
            rfl
          · intro k hk hvalid hle
            have : s.taken + 1 + a.length ≤ k.number := hab.held k hk hvalid (hheld k hk hvalid hle)
            rw [List.length_cons]
            omega
          · have hcount : s.taken + 1 + a.length = s.taken + (t :: a).length := by
              rw [List.length_cons]
              omega
            simp only [deliver, hqueue, if_neg hleast, hkey, heq, handed, hcount]

/-- At the end everything is handed out. -/
theorem deliver_all (hkey : s.key = none) (houter : s.outer = []) {fuel : Nat} (hfuel : s.queue.length ≤ fuel) :
    ∃ s', deliver 1 fuel s = (s.queue, .ok s') := by
  induction fuel generalizing s with
  | zero =>
    rw [List.eq_nil_of_length_eq_zero (Nat.le_zero.mp hfuel)]
    exact ⟨s, rfl⟩
  | succ fuel ih =>
    cases hqueue : s.queue with
    | nil => exact ⟨s, by rw [deliver, hqueue]⟩
    | cons t rest =>
      have hnone : s.headMayBeKey = .ok false :=
        headMayBeKey_of_ne (by simp [houter]) (by simp [hkey])
      rw [hqueue] at hfuel
      obtain ⟨s', heq⟩ := ih (s := { s with queue := rest, taken := s.taken + 1 }) hkey houter
        (Nat.le_of_succ_le_succ hfuel)
      exact ⟨s', by simp [deliver, hqueue, hnone, heq]⟩

/-! ## 2. What a stream gives

The bound on the steps is the number of characters left, since each token but the last is read from at least one. -/

/-- The stream goes on without a fault and ends, and gives tokens of these kinds. -/
def Emits (s : TokenStream) (ks : List TokenKind) : Prop :=
  ∀ fuel, s.cursor.rest.length < fuel → ∃ ts, run fuel s = (ts, none) ∧ ts.map (·.kind) = ks

/-- One token is read, and some are handed out. -/
theorem Emits.step (hfetch : s.fetch = .ok (s₁, false)) (hquiet : Quiet s₁)
    (hless : s₁.cursor.rest.length < s.cursor.rest.length)
    (hgo : ∀ a b, Delivers s₁ a b → ∃ ks', Emits (s₁.handed a b) ks' ∧ ks = a.map (·.kind) ++ ks') : Emits s ks := by
  intro fuel hfuel
  cases fuel with
  | zero => omega
  | succ fuel =>
    obtain ⟨a, b, hab, hdeliver⟩ := deliver_eq 3 s₁.queue.length hquiet
    obtain ⟨ks', hemits, hks⟩ := hgo a b hab
    obtain ⟨ts, hrun, hts⟩ := hemits fuel (by show s₁.cursor.rest.length < fuel; omega)
    refine ⟨a ++ ts, ?_, ?_⟩
    · simp only [run, hfetch, Bool.false_eq_true, if_false, hdeliver, hrun]
    · rw [List.map_append, hts, hks]

/-- The last token is read. -/
theorem Emits.last (hfetch : s.fetch = .ok (s₁, true)) (hkey : s₁.key = none) (houter : s₁.outer = []) :
    Emits s (s₁.queue.map (·.kind)) := by
  intro fuel hfuel
  cases fuel with
  | zero => omega
  | succ fuel =>
    obtain ⟨s', hdeliver⟩ := deliver_all hkey houter (Nat.le_refl _)
    refine ⟨s₁.queue, ?_, rfl⟩
    simp only [run, hfetch, if_true, hdeliver]

/-- What a stream gives is determined by the first token that it reads, and by the characters left. -/
theorem Emits.congr (hfetch : s.fetch = s₁.fetch) (hcursor : s₁.cursor = s.cursor) (h : Emits s₁ ks) : Emits s ks := by
  intro fuel hfuel
  cases fuel with
  | zero => omega
  | succ fuel =>
    obtain ⟨ts, hrun, hts⟩ := h (fuel + 1) (by rw [hcursor]; exact hfuel)
    refine ⟨ts, ?_, hts⟩
    rw [← hrun, run, run, hfetch]

/-! ## 3. Moving to the next token

Before a token the stream passes spaces, comments and line ends.  Behind a line end a key may start again. -/

/-- A token can start here, or the text ends. -/
def Starts (r : List Char) : Prop := ∀ x, r.head? = some x → isInk x = true ∧ x ≠ '#' ∧ x ≠ '\ufeff'

theorem Starts.inked (h : Starts r) : Inked r := fun x hx => (h x hx).1

theorem Starts.noComment (h : Starts r) : ∀ x, r.head? = some x → isBlank x = false ∧ x ≠ '#' := by
  intro x hx
  obtain ⟨hink, hhash, _⟩ := h x hx
  obtain ⟨hspace, htab, _⟩ := isInk_iff.mp hink
  exact ⟨by simp [isBlank, hspace, htab], hhash⟩

/-- Spaces before a token. -/
theorem toNextToken_spaces {fuel j : Nat} (hr : Starts r) (hc : At s.cursor (List.replicate j ' ' ++ r) col) :
    toNextToken (fuel + 1) s = .ok { s with cursor := s.cursor.skipN j } ∧ At (s.cursor.skipN j) r (col + j) := by
  have hskip := hc.skipN
  rw [List.length_replicate] at hskip
  have hbom : s.cursor.sees '\ufeff' = false := by
    rw [hc.sees]
    refine decide_eq_false ?_
    cases j with
    | zero => exact fun h => (hr _ h).2.2 rfl
    | succ j => simp [List.replicate_succ]
  have hblank : ∀ x, r.head? = some x → ∀ tabs : Bool,
      (decide (some x = some ' ') || (tabs && decide (some x = some '\t'))) = false := by
    intro x hx tabs
    obtain ⟨hspace, htab, _⟩ := isInk_iff.mp (hr x hx).1
    simp [hspace, htab]
  -- tabs are passed in some places and not in others, but there are none here
  have hwhile : ∀ tabs : Bool, s.cursor.skipWhile (fun ch => ch = some ' ' || (tabs && ch = some '\t')) =
      s.cursor.skipN j := by
    intro tabs
    rw [skipWhile, hc.rest, takeWhile_append _ fun x hx => hblank x hx tabs, List.length_replicate]
    intro x hx
    simp [List.eq_of_mem_replicate hx]
  have hhash : (s.cursor.skipN j).sees '#' = false := by
    rw [hskip.sees]
    exact decide_eq_false fun h => (hr _ h).2.1 rfl
  have hbreak : isBreak (s.cursor.skipN j).head = false := by
    rw [hskip.head]
    exact hr.inked.not_break
  refine ⟨?_, hskip⟩
  rw [toNextToken]
  simp only [hc.need, bind, Except.bind, hbom, Bool.false_eq_true, and_false, if_false, hwhile, hskip.need, hhash,
    hbreak]
  rfl

/-- A line end before a token. -/
theorem toNextToken_line {fuel : Nat} (hc : At s.cursor ('\n' :: t) col) :
    toNextToken (fuel + 1) s =
      toNextToken fuel { s with cursor := s.cursor.skipLine, keyAllowed := s.keyAllowed || !s.inFlow } := by
  have hbom : s.cursor.sees '\ufeff' = false := by
    rw [hc.sees]
    rfl
  have hwhile : ∀ tabs : Bool, s.cursor.skipWhile (fun ch => ch = some ' ' || (tabs && ch = some '\t')) =
      s.cursor := by
    intro tabs
    refine hc.skipWhile_none ?_
    intro x hx
    cases hx
    simp
  have hhash : s.cursor.sees '#' = false := by
    rw [hc.sees]
    rfl
  have hbreak : isBreak s.cursor.head = true := by
    rw [hc.head]
    rfl
  rw [toNextToken]
  simp only [hc.need, bind, Except.bind, hbom, Bool.false_eq_true, and_false, if_false, hwhile, hhash, hbreak, if_true]

/-- The next token starts a line of its own, at column `k`: the stream is there, or at the end of the line before. -/
def Arrives (s : TokenStream) (r : List Char) (k : Nat) : Prop :=
  At s.cursor r k ∧ s.keyAllowed = true ∨ ∃ col, At s.cursor ('\n' :: (List.replicate k ' ' ++ r)) col

/-- The stream at the first token of a line. -/
def landed (s : TokenStream) (c : Cursor) : TokenStream := { s with cursor := c, keyAllowed := true }

/-- Where the stream arrives depends on its cursor only. -/
theorem Arrives.land (h : Arrives s r k) (hr : Starts r) :
    r.length ≤ s.cursor.rest.length ∧ ∃ c, At c r k ∧ ∀ {s' : TokenStream}, s'.cursor = s.cursor →
      s'.keyAllowed = s.keyAllowed → s'.outer = [] →
      s'.toNextToken (s'.cursor.rest.length + 1) = .ok (s'.landed c) := by
  -- the stream is there already, or it has to pass the line end and the spaces behind it
  rcases h with ⟨hc, hkey⟩ | ⟨col, hc⟩
  · refine ⟨by rw [hc.rest], s.cursor, hc, fun {s'} hcursor hallowed _ => ?_⟩
    rw [← hcursor] at hc
    rw [(toNextToken_spaces (j := 0) hr hc).1, landed, ← hkey, ← hallowed, ← hcursor]
    rfl
  · have hline := hc.skipLine rfl (by decide)
    refine ⟨?_, s.cursor.skipLine.skipN k, ?_, fun {s'} hcursor _ houter => ?_⟩
    · rw [hc.rest, List.length_cons, List.length_append]
      omega
    · have hskip := hline.skipN
      rwa [List.length_replicate, Nat.zero_add] at hskip
    · rw [← hcursor] at hc hline
      have hlen : s'.cursor.rest.length = (List.replicate k ' ' ++ r).length + 1 := by rw [hc.rest]; rfl
      have hflow : (s'.keyAllowed || !s'.inFlow) = true := by simp [inFlow, houter]
      rw [hlen, toNextToken_line hc, hflow,
        (toNextToken_spaces (s := { s' with cursor := s'.cursor.skipLine, keyAllowed := true }) hr hline).1, ← hcursor]
      rfl

theorem Arrives.next (h : Arrives s r k) (hr : Starts r) (houter : s.outer = []) :
    r.length ≤ s.cursor.rest.length ∧ ∃ c, At c r k ∧
      s.toNextToken (s.cursor.rest.length + 1) = .ok (s.landed c) := by
  obtain ⟨hlen, c, hc, hland⟩ := h.land hr
  exact ⟨hlen, c, hc, hland rfl rfl houter⟩

/-! ## 4. Reading one token

A token closes the collections that are further right than it is (`unroll`), and is then told by its first
character.  Behind it, a comment on the same line is passed, except behind a dash. -/

/-- A token inside the innermost collection closes none. -/
theorem unroll_of_le {column : Int} (h : s.indent ≤ column) : s.unroll column = s := by
  have hclose : closeBlocks column s.mark s.indents s.indent s.queue = (s.indent, s.indents, s.queue) := by
    cases s.indents with
    | nil => rfl
    | cons outer rest => rw [closeBlocks, if_neg (by omega)]
  rw [unroll]
  split
  · rfl
  · rw [hclose]

/-- There is no comment behind these spaces. -/
theorem skipLineComment_eq {c : Cursor} {j : Nat} (hc : At c (List.replicate j ' ' ++ r) col)
    (hr : ∀ x, r.head? = some x → isBlank x = false ∧ x ≠ '#') : skipLineComment c = .ok c := by
  have htake : (c.rest.takeWhile fun ch => isBlank (some ch)).length = j := by
    rw [hc.rest, takeWhile_append _ fun x hx => (hr x hx).1, List.length_replicate]
    intro x hx
    rw [List.eq_of_mem_replicate hx]
    rfl
  have hpeek : c.peek j ≠ some '#' := by
    rw [hc.peek, List.getElem?_append_right (by simp), List.length_replicate, Nat.sub_self, ← List.head?_eq_getElem?]
    exact fun h => (hr _ h).2 rfl
  rw [skipLineComment, htake]
  exact if_neg fun h => hpeek h.2.2

/-- Reading a token that is neither the end nor a mark of a document. -/
theorem fetch_eq (hnext : s.toNextToken (s.cursor.rest.length + 1) = .ok s₁) (hc : At s₁.cursor (x :: t) col)
    (hplace : col ≠ 0 ∨ x ≠ '%' ∧ x ≠ '-' ∧ x ≠ '.') (hfetch : (s₁.unroll col).fetchContent x = .ok s₂)
    (hdone : s₂.queue.getLast?.any (·.kind = .blockEntry) = true ∨ skipLineComment s₂.cursor = .ok s₂.cursor) :
    s.fetch = .ok (s₂, false) := by
  have hcursor : (s₁.unroll col).cursor = s₁.cursor := by
    rw [unroll]
    split <;> rfl
  have hmark : s₁.mark.column = col := hc.column
  -- only at the left edge can the line be a directive or a mark of a document
  have hdirective : (decide (s₁.cursor.mark.column = 0) && decide (x = '%')) = false := by
    rw [hc.column, Bool.and_eq_false_iff, decide_eq_false_iff_not, decide_eq_false_iff_not]
    exact hplace.imp_right fun h => h.1
  have hdocument : s₁.cursor.atDocumentMark = false := by
    rcases hplace with hcol | ⟨_, hdash, hdot⟩
    · exact hc.not_atDocumentMark hcol
    · exact hc.not_atDocumentMark_of_head (by simpa using hdash) (by simpa using hdot)
  rw [fetch, hnext]
  simp only [bind, Except.bind, hmark, hcursor, hc.need, hc.head, List.head?_cons, hdirective, hdocument, hfetch,
    Bool.false_eq_true, if_false]
  by_cases hlast : s₂.queue.getLast?.any (·.kind = .blockEntry) = true
  · rw [if_pos hlast]
    rfl
  · rw [if_neg hlast, hdone.resolve_left hlast]
    rfl

/-- The columns of the block collections, and no key that has to be one. -/
structure Open (s : TokenStream) (indent : Int) (indents : List Int) : Prop where
  indent : s.indent = indent
  indents : s.indents = indents
  outer : s.outer = []
  key : ∀ k, s.key = some k → k.required = false

variable {indent : Int} {indents : List Int}

theorem Open.inFlow (h : Open s indent indents) : s.inFlow = false := by
  rw [TokenStream.inFlow, h.outer]
  rfl

/-- A key that need not be one can be given up without a fault. -/
theorem Open.quiet (h : Open s indent indents) : Quiet s := by
  refine ⟨by simp [h.outer], fun k hk => ?_⟩
  rw [PossibleKey.valid, h.key k hk]
  split
  · exact ⟨false, rfl⟩
  · exact ⟨true, rfl⟩

theorem Open.handed (h : Open s indent indents) (a b : List Token) : Open (s.handed a b) indent indents :=
  ⟨h.indent, h.indents, h.outer, h.key⟩

theorem Open.landed (h : Open s indent indents) (c : Cursor) : Open (s.landed c) indent indents :=
  ⟨h.indent, h.indents, h.outer, h.key⟩

theorem Open.dropKey (h : Open s indent indents) : s.dropKey = .ok { s with key := none } := by
  rw [TokenStream.dropKey]
  cases hkey : s.key with
  | none => simp [← hkey]
  | some k => simp [h.key k hkey]

/-- Behind the column of the innermost collection a key is possible, but not required. -/
theorem Open.saveKey (h : Open s indent indents) (hcol : indent ≠ s.mark.column) :
    ∃ key, s.saveKey = .ok { s with key } ∧ ∀ k, key = some k → k.required = false := by
  rw [TokenStream.saveKey]
  split
  · rw [h.dropKey]
    have hrequired : (!s.inFlow && s.indent == s.mark.column) = false := by
      rw [h.indent, Bool.and_eq_false_iff]
      exact Or.inr (by simpa using hcol)
    rw [hrequired]
    refine ⟨_, rfl, ?_⟩
    intro k hk
    cases hk
    rfl
  · exact ⟨s.key, rfl, h.key⟩

/-! ## 5. Scalars

Each style has its reader, and `Fits` is what all of them ask for about the columns.  In quotes and in plain
style a scalar may be a key, so that its place is remembered; a block cannot be one. -/

open Print

variable {n : Nat} {cs out : List Char} {style : Style}

/-- A written text starts with a character that a token can start with. -/
theorem form_starts (h : Form n cs style out) (r : List Char) : out ≠ [] ∧ Starts (out ++ r) := by
  have hsign : ∀ {y : Char} {t : List Char}, isInk y = true ∧ y ≠ '#' ∧ y ≠ '\ufeff' →
      y :: t ≠ [] ∧ Starts (y :: t ++ r) := by
    intro y t hy
    refine ⟨by simp, fun z hz => ?_⟩
    cases hz
    exact hy
  cases h with
  | plain h =>
    obtain ⟨y, t, rfl⟩ := List.exists_cons_of_ne_nil h.ne_nil
    have hink := (h.chars y List.mem_cons_self).resolve_left (by simpa using h.head)
    exact hsign ⟨hink, by simpa using h.noComment.1, by simpa using h.noMark⟩
  | single h => exact hsign (by decide)
  | double h => exact hsign (by decide)
  | block h hblank hbreak => exact hsign (by decide)
  | spaced h hn => exact hsign (by decide)
  | shortened h hb hn => exact hsign (by decide)

/-- One token is added. -/
structure Adds (s s₂ : TokenStream) (kind : TokenKind) (indent : Int) (indents : List Int) : Prop where
  queue : ∃ m, s₂.queue = s.queue ++ [⟨kind, m⟩]
  opened : Open s₂ indent indents

theorem adds_push {key : Option PossibleKey} {kind : TokenKind} {c : Cursor} {m : Mark} {allowed : Bool}
    (hopen : Open s indent indents) (hkey : ∀ k, key = some k → k.required = false) :
    Adds s ({ s with key, keyAllowed := allowed }.push kind m c) kind indent indents :=
  ⟨⟨m, rfl⟩, hopen.indent, hopen.indents, hopen.outer, hkey⟩

/-- A token that may be a key, or a part of one. -/
theorem fetchKeyPart_eq {read : Cursor → Except Fault (TokenKind × Cursor)} {kind : TokenKind} {c : Cursor}
    (hopen : Open s indent indents) (hcol : indent ≠ s.mark.column) (hread : read s.cursor = .ok (kind, c)) :
    ∃ s₂, s.fetchKeyPart read = .ok s₂ ∧ Adds s s₂ kind indent indents ∧ s₂.cursor = c := by
  obtain ⟨key, hsave, hkey⟩ := hopen.saveKey hcol
  have hfetch : s.fetchKeyPart read = .ok ({ s with key, keyAllowed := false }.push kind s.mark c) := by
    rw [fetchKeyPart, hsave]
    simp only [bind, Except.bind]
    rw [hread]
    rfl
  exact ⟨_, hfetch, adds_push hopen hkey, rfl⟩

/-- A scalar at column `col` stands inside the innermost collection, at `indent`, with its further lines at column
`n`, and the line behind it, at column `k`, does not belong to it. -/
structure Fits (indent : Int) (n k col : Nat) : Prop where
  nonneg : 0 ≤ indent
  inside : indent < n
  outside : (k : Int) ≤ indent
  behind : indent < col
  four : n = 4 → indent = 0

/-- The line before the next token has no comment. -/
theorem Arrives.skipLineComment (h : Arrives s r k) (hr : Starts r) :
    TokenStream.skipLineComment s.cursor = .ok s.cursor := by
  rcases h with ⟨hc, _⟩ | ⟨col, hc⟩
  · exact skipLineComment_eq (j := 0) hc hr.noComment
  · refine skipLineComment_eq (j := 0) hc fun x hx => ?_
    cases hx
    decide

theorem Fits.column_ne {s : TokenStream} (h : Fits indent n k col) (hc : At s.cursor t col) :
    indent ≠ s.mark.column := by
  have := h.behind
  rw [mark, hc.column]
  omega

/-- The token of a text in quotes. -/
def quotedKind (single : Bool) (cs : List Char) : TokenKind :=
  .scalar cs (if single then .singleQuoted else .doubleQuoted)

/-- Reads that token. -/
def quotedToken (single : Bool) (c : Cursor) : Except Fault (TokenKind × Cursor) :=
  (quotedScalar single c).map fun e => (quotedKind single e.1, e.2)

theorem fetchContent_quote (s : TokenStream) (single : Bool) :
    s.fetchContent (quoteSign single) = s.fetchKeyPart (quotedToken single) := by
  have hread : ∀ c, quotedToken single c =
      (quotedScalar single c).bind fun e => .ok (quotedKind single e.1, e.2) := by
    intro c
    rw [quotedToken]
    cases quotedScalar single c <;> rfl
  rw [funext hread]
  cases single <;> rfl

theorem fetchContent_quoted {single : Bool} {brk : Char → Bool} {piece : Char → List Char}
    (h : QuotedText single brk piece cs) (hopen : Open s indent indents) (hfits : Fits indent n k col)
    (hc : At s.cursor (quoteSign single :: (spelled brk piece n false cs ++ quoteSign single :: '\n' ::
      (List.replicate k ' ' ++ r))) col) :
    ∃ s₂, s.fetchContent (quoteSign single) = .ok s₂ ∧
      Adds s s₂ (quotedKind single cs) indent indents ∧ Arrives s₂ r k := by
  have hn : n ≠ 0 := by
    have := hfits.nonneg
    have := hfits.inside
    omega
  obtain ⟨c', col', hread, hc'⟩ := quotedScalar_eq h (by simp) hn hc
  have hkind : quotedToken single s.cursor = .ok (quotedKind single cs, c') := by
    rw [quotedToken, hread]
    rfl
  obtain ⟨s₂, hfetch, hadds, hcursor⟩ := fetchKeyPart_eq hopen (hfits.column_ne hc) hkind
  rw [← hcursor] at hc'
  exact ⟨s₂, (fetchContent_quote s single).trans hfetch, hadds, Or.inr ⟨col', hc'⟩⟩

/-- A text in a block, once its lines are read. -/
theorem fetchContent_block {text : List Char} {c' : Cursor} (hopen : Open s indent indents)
    (hread : blockScalar true indent s.cursor = .ok (text, c')) (hc' : At c' r k) :
    ∃ s₂, s.fetchContent '|' = .ok s₂ ∧ Adds s s₂ (.scalar text .literal) indent indents ∧ Arrives s₂ r k := by
  have hcontent : s.fetchContent '|' = s.fetchBlockScalar true := by
    rw [fetchContent, hopen.inFlow]
    rfl
  have hfetch : s.fetchBlockScalar true =
      .ok ({ s with key := none, keyAllowed := true }.push (.scalar text .literal) s.mark c') := by
    rw [fetchBlockScalar, hopen.dropKey]
    simp only [bind, Except.bind]
    rw [hopen.indent, hread]
    rfl
  exact ⟨_, hcontent.trans hfetch, adds_push hopen (by simp), Or.inl ⟨hc', rfl⟩⟩

/-- A plain text starts here: no other token starts with this character, or with a dash, a colon or a question mark
that is followed by such a character. -/
theorem fetchContent_start (hink : isInk x = true) (hother : isStartIndicator x false = false)
    (hnext : x = '-' ∨ x = '?' ∨ x = ':' → isBlankOrEnd (s.cursor.peek 1) = false) (hflow : s.inFlow = false)
    (hc : At s.cursor (x :: t) col) : s.fetchContent x = s.fetchPlain := by
  have hblank : isBlankOrEnd (some x) = false := by simpa [isInk] using hink
  simp only [isStartIndicator, Bool.and_false, Bool.or_false, List.mem_cons, List.not_mem_nil, or_false,
    decide_eq_false_iff_not, not_or] at hother
  have hstarts : startsPlain false s.cursor = true := by
    rw [startsPlain, hc.head]
    simp only [List.head?_cons, hblank, Bool.false_or]
    by_cases hx : x = '-' ∨ x = '?' ∨ x = ':'
    · have hpeek := hnext hx
      have hpeek' : isBlank (s.cursor.peek 1) = false := by
        rw [isBlankOrEnd, Bool.or_eq_false_iff] at hpeek
        exact hpeek.1
      rcases hx with rfl | rfl | rfl <;> simp [hpeek, hpeek']
    · simp [hx, hother]
  have hnot : ∀ y, y = '-' ∨ y = '?' ∨ y = ':' → ¬ (x = y ∧ isBlankOrEnd (s.cursor.peek 1) = true) := by
    rintro y hy ⟨rfl, hpeek⟩
    rw [hnext hy] at hpeek
    cases hpeek
  rw [fetchContent, hflow]
  simp only [hother, hstarts, if_false, if_true, Bool.and_eq_true, decide_eq_true_eq, Bool.false_or, decide_false,
    Bool.not_false, Bool.and_true, Bool.false_eq_true]
  rw [if_neg (hnot '-' (by decide)), if_neg (hnot '?' (by decide)), if_neg (hnot ':' (by decide))]

/-- A text that stands plain is taken for plain. -/
theorem fetchContent_plain_eq (h : StandsPlain (x :: cs)) (hflow : s.inFlow = false)
    (hc : At s.cursor (x :: cs ++ '\n' :: t) col) : s.fetchContent x = s.fetchPlain := by
  have hstart := h.start x cs rfl
  rw [isStartIndicator, Bool.or_eq_false_iff, Bool.and_eq_false_iff] at hstart
  obtain ⟨hother, hthree⟩ := hstart
  refine fetchContent_start ((h.chars x List.mem_cons_self).resolve_left (by simpa using h.head))
    (by rw [isStartIndicator, hother, Bool.and_false, Bool.or_false]) ?_ hflow hc
  -- behind a dash, a question mark or a colon comes a character of the text that is no blank
  intro hx
  have hcs : (cs.isEmpty || isBlank cs.head?) = false := by
    refine hthree.resolve_left fun hx' => ?_
    simp only [List.mem_cons, List.not_mem_nil, or_false, decide_eq_false_iff_not, not_or] at hx'
    tauto
  cases cs with
  | nil => simp at hcs
  | cons y cs =>
    rw [hc.peek]
    rcases h.chars y (by simp) with rfl | hy
    · simp [isBlank] at hcs
    · simpa [isInk] using hy

theorem fetchContent_plain (h : StandsPlain (x :: cs)) (hopen : Open s indent indents) (hfits : Fits indent n k col)
    (hr : Starts r) (hc : At s.cursor (x :: cs ++ '\n' :: (List.replicate k ' ' ++ r)) col) :
    ∃ s₂, s.fetchContent x = .ok s₂ ∧ Adds s s₂ (.scalar (x :: cs) .plain) indent indents ∧ Arrives s₂ r k := by
  have hcol : col ≠ 0 := by
    have := hfits.nonneg
    have := hfits.behind
    omega
  obtain ⟨c', hread, hc'⟩ :=
    plainScalar_eq h.toPlainText hr.inked (Int.lt_add_one_of_le hfits.outside) hc hcol hfits.behind
  obtain ⟨key, hsave, hkey⟩ := hopen.saveKey (hfits.column_ne hc)
  have hfetch : s.fetchPlain =
      .ok ({ s with key, keyAllowed := true }.push (.scalar (x :: cs) .plain) s.mark c') := by
    rw [fetchPlain, hsave]
    simp only [bind, Except.bind]
    rw [show TokenStream.inFlow { s with key } = false from hopen.inFlow, hopen.indent, hread]
    rfl
  exact ⟨_, (fetchContent_plain_eq h hopen.inFlow hc).trans hfetch, adds_push hopen hkey, Or.inl ⟨hc', rfl⟩⟩

/-- **A scalar is one token**, whatever its style. -/
theorem fetchContent_form (h : Form n cs style (x :: out)) (hopen : Open s indent indents)
    (hfits : Fits indent n k col) (hr : Starts r) (hc : At s.cursor (x :: out ++ (List.replicate k ' ' ++ r)) col) :
    ∃ s₂, s.fetchContent x = .ok s₂ ∧ Adds s s₂ (.scalar cs style) indent indents ∧ Arrives s₂ r k := by
  have hk : k < n := by
    have := hfits.inside
    have := hfits.outside
    omega
  -- the first character is fixed by the style, so that `written` has to be kept apart from it for the cases
  generalize hout : x :: out = written at h
  cases h with
  | plain h =>
    obtain ⟨y, t, rfl⟩ := List.exists_cons_of_ne_nil h.ne_nil
    cases hout
    exact fetchContent_plain h hopen hfits hr (by simpa using hc)
  | single h =>
    cases hout
    exact fetchContent_quoted h hopen hfits (by simpa [quoteSign] using hc)
  | double h =>
    cases hout
    exact fetchContent_quoted h hopen hfits (by simpa [quoteSign] using hc)
  | block h hblank hbreak =>
    cases hout
    obtain ⟨c', hread, hc'⟩ := blockScalar_eq h hblank hbreak hr.inked hfits.inside hk (by simpa using hc)
    exact fetchContent_block hopen hread hc'
  | spaced h hn =>
    cases hout
    subst hn
    obtain ⟨c', hread, hc'⟩ := blockScalar_four h hr.inked hk (by simpa using hc)
    -- the number four was written for a block in a collection at the left edge
    rw [← hfits.four rfl] at hread
    exact fetchContent_block hopen hread hc'
  | shortened h hb hn =>
    cases hout
    subst hn
    obtain ⟨c', hread, hc'⟩ := blockScalar_shortened h hb hr.inked hk (by simpa using hc)
    rw [← hfits.four rfl] at hread
    exact fetchContent_block hopen hread hc'

/-- From a line at column `k` on, which is inside collections at `indent` and `indents`, the stream gives these
tokens. -/
def Goes (indent : Int) (indents : List Int) (k : Nat) (r : List Char) (ks : List TokenKind) : Prop :=
  Starts r ∧ ∀ s, Open s indent indents → Arrives s r k → Emits s (s.queue.map (·.kind) ++ ks)

/-- A token is read, and the stream goes on. -/
theorem Emits.of_adds {kind : TokenKind} (hfetch : s.fetch = .ok (s₁, false)) (hadds : Adds s s₁ kind indent indents)
    (hless : s₁.cursor.rest.length < s.cursor.rest.length)
    (hgo : ∀ a b, Emits (s₁.handed a b) (b.map (·.kind) ++ ks)) :
    Emits s (s.queue.map (·.kind) ++ kind :: ks) := by
  obtain ⟨m, hqueue⟩ := hadds.queue
  refine Emits.step hfetch hadds.opened.quiet hless fun a b hab => ⟨_, hgo a b, ?_⟩
  have hkinds : s.queue.map (·.kind) ++ [kind] = a.map (·.kind) ++ b.map (·.kind) := by
    rw [← List.map_append, ← hab.queue, hqueue, List.map_append]
    rfl
  rw [← List.append_assoc, ← hkinds, List.append_assoc]
  rfl

/-- The stream goes on in the same way whatever has been handed out. -/
theorem Goes.emits (h : Goes indent indents k r ks) (hopen : Open s indent indents) (harrives : Arrives s r k)
    (a b : List Token) : Emits (s.handed a b) (b.map (·.kind) ++ ks) :=
  h.2 (s.handed a b) (hopen.handed a b) harrives

theorem Arrives.length_le (h : Arrives s r k) : s.cursor.rest.length ≤ k + r.length + 1 := by
  rcases h with ⟨hc, _⟩ | ⟨col, hc⟩
  · rw [hc.rest]
    omega
  · rw [hc.rest, List.length_cons, List.length_append, List.length_replicate]

/-- The stream with its cursor elsewhere. -/
def moved (s : TokenStream) (c : Cursor) : TokenStream := { s with cursor := c }

theorem Open.moved (h : Open s indent indents) (c : Cursor) : Open (s.moved c) indent indents :=
  ⟨h.indent, h.indents, h.outer, h.key⟩

/-- A token inside the innermost collection, behind a space. -/
theorem fetch_inside (hopen : Open s indent indents) (hcol : indent < col + 1) (hstarts : Starts (x :: t))
    (hc : At s.cursor (' ' :: x :: t) col) :
    ∃ c, At c (x :: t) (col + 1) ∧ ∀ {s₂}, (s.moved c).fetchContent x = .ok s₂ →
      skipLineComment s₂.cursor = .ok s₂.cursor → s.fetch = .ok (s₂, false) := by
  obtain ⟨hnext, hc₁⟩ := toNextToken_spaces (j := 1) hstarts hc
  have hunroll : (s.moved (s.cursor.skipN 1)).unroll ((col + 1 : Nat) : Int) = s.moved (s.cursor.skipN 1) := by
    refine unroll_of_le ?_
    rw [(hopen.moved _).indent]
    omega
  refine ⟨_, hc₁, fun {s₂} hfetch hcomment => ?_⟩
  rw [← hunroll] at hfetch
  exact fetch_eq hnext hc₁ (Or.inl (Nat.succ_ne_zero col)) hfetch (Or.inr hcomment)

/-- A scalar is read back, and the stream goes on behind it. -/
theorem emits_form (h : Form n cs style out) (hopen : Open s indent indents) (hfits : Fits indent n k (col + 1))
    (hc : At s.cursor (' ' :: (out ++ (List.replicate k ' ' ++ r))) col) (hgo : Goes indent indents k r ks) :
    Emits s (s.queue.map (·.kind) ++ .scalar cs style :: ks) := by
  obtain ⟨hne, hstarts⟩ := form_starts h (List.replicate k ' ' ++ r)
  obtain ⟨x, out, rfl⟩ := List.exists_cons_of_ne_nil hne
  obtain ⟨c, hc₁, hfetch⟩ := fetch_inside hopen hfits.behind hstarts hc
  obtain ⟨s₂, hcontent, hadds, harrives⟩ := fetchContent_form h (hopen.moved c) hfits hgo.1 hc₁
  refine Emits.of_adds (hfetch hcontent (harrives.skipLineComment hgo.1)) ⟨hadds.queue, hadds.opened⟩ ?_
    (hgo.emits hadds.opened harrives)
  have := harrives.length_le
  rw [hc.rest]
  simp only [List.length_cons, List.length_append, List.length_replicate]
  omega

/-- A word needs no escapes in a tag. -/
theorem uriChars_word {start : Mark} {c : Cursor} {w : List Char} {fuel : Nat} (hw : ∀ x ∈ w, isWord (some x) = true)
    (hc : At c (w ++ ' ' :: t) col) (hfuel : w.length < fuel) :
    uriChars start fuel c = .ok (Utf8.encodeAll w, c.skipN w.length) := by
  induction w generalizing fuel c col with
  | nil =>
    cases fuel with
    | zero => simp at hfuel
    | succ fuel =>
      rw [uriChars, hc.head]
      rfl
  | cons x w ih =>
    cases fuel with
    | zero => simp at hfuel
    | succ fuel =>
      have hx := hw x List.mem_cons_self
      have huri : isUriChar (some x) = true := by rw [isUriChar, hx, Bool.true_or]
      have hpercent : x ≠ '%' := by
        rintro rfl
        exact absurd hx (by decide)
      rw [uriChars, hc.head]
      simp only [List.cons_append, List.head?_cons, huri, if_true, hpercent, if_false, bind, Except.bind]
      rw [hc.skip.need, ih (fun y hy => hw y (List.mem_cons_of_mem _ hy)) hc.skip (Nat.lt_of_succ_lt_succ hfuel)]
      rfl

theorem tagUri_word {start : Mark} {c : Cursor} {w : List Char} (hne : w ≠ []) (hw : ∀ x ∈ w, isWord (some x) = true)
    (hc : At c (w ++ ' ' :: t) col) : tagUri start [] c = .ok (Utf8.encodeAll w, c.skipN w.length) := by
  have hlength : w.length < c.rest.length := by
    rw [hc.rest, List.length_append, List.length_cons]
    omega
  have hindex : (c.skipN w.length).mark.index ≠ c.mark.index := by
    have := List.length_pos_of_ne_nil hne
    rw [skipN_mark hc.rest]
    show c.mark.index + w.length ≠ c.mark.index
    omega
  rw [tagUri, uriChars_word hw hc hlength]
  simp only [bind, Except.bind]
  rw [if_neg (by simpa using hindex)]
  rfl

theorem tagToken_binary {c : Cursor} (hc : At c (binarySign ++ t) col) :
    ∃ c', tagToken c = .ok (.tag "!!" "binary", c') ∧ At c' (' ' :: t) (col + 8) := by
  have hc₂ : At c.skip.skip (['b', 'i', 'n', 'a', 'r', 'y'] ++ ' ' :: t) (col + 1 + 1) := hc.skip.skip
  have hc₃ := hc₂.skipN
  have hpeek : c.peek 1 = some '!' := by
    rw [hc.peek]
    rfl
  have hhandle : tagHandle false c.mark c = .ok (['!', '!'], c.skip.skip) := by
    -- the second sign ends the handle at once, so that there is no word between the two
    have hword : word c.skip = ([], c.skip) := by
      rw [word, hc.skip.skipWhile_none, hc.skip.rest]
      · rfl
      · intro x hx
        cases hx
        decide
    rw [tagHandle, hc.sees, hword]
    simp only [bind, Except.bind]
    rw [hc.skip.need, hc.skip.sees]
    rfl
  refine ⟨_, ?_, hc₃⟩
  rw [tagToken, hc.need, hpeek, hhandle]
  simp only [bind, Except.bind]
  rw [if_neg (by decide), if_pos (by decide), tagUri_word (by decide) (List.all_eq_true.mp (by decide)) hc₂]
  simp only [pure, Except.pure]
  rw [hc₃.need, hc₃.head]
  rfl

/-- The sign before base 64. -/
theorem emits_sign (hopen : Open s indent indents) (hcol : indent < col + 1)
    (hc : At s.cursor (' ' :: (binarySign ++ t)) col) (ht : ∀ x, t.head? = some x → isBlank x = false ∧ x ≠ '#')
    (hgo : ∀ s', Open s' indent indents → At s'.cursor (' ' :: t) (col + 1 + 8) →
      Emits s' (s'.queue.map (·.kind) ++ ks)) :
    Emits s (s.queue.map (·.kind) ++ .tag "!!" "binary" :: ks) := by
  have hstarts : Starts (binarySign ++ t) := by
    intro y hy
    cases hy
    decide
  obtain ⟨c, hc₁, hfetch⟩ := fetch_inside hopen hcol hstarts hc
  obtain ⟨c', hread, hc'⟩ := tagToken_binary hc₁
  have hne : indent ≠ (s.moved c).mark.column := by
    rw [mark, show (s.moved c).cursor = c from rfl, hc₁.column]
    omega
  obtain ⟨s₂, hcontent, hadds, hcursor⟩ := fetchKeyPart_eq (hopen.moved c) hne hread
  rw [← hcursor] at hc'
  refine Emits.of_adds (hfetch hcontent (skipLineComment_eq (j := 1) hc' ht)) ⟨hadds.queue, hadds.opened⟩ ?_
    fun a b => hgo _ (hadds.opened.handed a b) hc'
  rw [hc.rest, hc'.rest]
  simp [binarySign]

/-- **An item is read back**, and the stream goes on behind it. -/
theorem emits_item {i : Item} (h : Written n i out) (hopen : Open s indent indents)
    (hfits : Fits indent n k (col + 1)) (hc : At s.cursor (' ' :: (out ++ (List.replicate k ' ' ++ r))) col)
    (hgo : Goes indent indents k r ks) : Emits s (s.queue.map (·.kind) ++ (i.kinds ++ ks)) := by
  cases h with
  | text h => exact emits_form h hopen hfits hc hgo
  | code h =>
    rw [List.append_assoc] at hc
    refine emits_sign hopen hfits.behind hc (form_starts h _).2.noComment ?_
    intro s' hopen' hc'
    have hbehind := hfits.behind
    exact emits_form h hopen' ⟨hfits.nonneg, hfits.inside, hfits.outside, by omega, hfits.four⟩ hc' hgo

/-- An item starts with a character that a token can start with. -/
theorem written_starts {i : Item} (h : Written n i out) (r : List Char) : Starts (out ++ r) := by
  cases h with
  | text h => exact (form_starts h r).2
  | code h =>
    intro y hy
    cases hy
    decide

end AgentKit.Yaml.TokenStream
