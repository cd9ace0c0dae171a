import AgentKit.Proofs.Yaml.Stream
import Mathlib.Tactic
/-!
# The tokens of a sheet

A sheet is a collection of fields at the left edge: a key, a colon, and behind it an item or a list of items.  Its
tokens are found from the end backwards.  `Goes` says what a stream gives from the start of a line on, `Behind` the
same from behind a colon on, and each part of a line turns one into the other: the end of the text, a key with its
colon, an item, the dash of an entry, the end of a list.  A sheet is the product of these (`tokens_sheet`).

A key is known by its colon, and the token that says so goes before its name, into the middle of the queue.  For
this the name must still be there, which is what `Delivers.held` gives (`goes_key`).

1. Keys (`goes_key`) and what stands behind them (`behind_item`, `behind_list`).
2. Lists (`goes_entry`, `goes_close`, `behind_empty`).
3. The end (`goes_end`).
4. **The tokens of a sheet of fields** (`tokens_sheet`).
-/

namespace AgentKit.Yaml.TokenStream

open Cursor Print

variable {s s₁ s₂ : TokenStream} {ks : List TokenKind} {t r out : List Char} {x : Char} {col k : Nat} {indent : Int}
  {indents : List Int}

/-! ## 1. Keys

The first key opens the collection and the further ones find it open.  `Root` has the two cases with the token
that the first of them puts before the key, so that the rest is the same for both. -/

/-- A word that can be a key. -/
structure Name (w : List Char) : Prop where
  chars : ∀ x ∈ w, isInk x = true ∧ x ≠ ':'
  head : ∃ x t, w = x :: t ∧ isStartIndicator x true = false ∧ x ≠ '.' ∧ x.toNat < 0x80
  short : w.length ≤ 1024

/-- Behind the colon of a key in the outermost collection the stream gives these tokens. -/
structure Behind (r : List Char) (ks : List TokenKind) : Prop where
  apart : isBlankOrEnd r.head? = true
  noComment : ∀ {c col}, At c r col → skipLineComment c = .ok c
  emits : ∀ {s col}, Open s 0 [-1] → s.key = none → s.keyAllowed = false → At s.cursor r (col + 1) →
    Emits s (s.queue.map (·.kind) ++ ks)

/-- Where a key of the outermost collection stands: it is inside of it, or the first one and opens it. -/
inductive Root : Int → List Int → List TokenKind → Prop
  | first : Root (-1) [] [.blockMappingStart]
  | further : Root 0 [-1] []

/-- A key of the outermost collection stands at the left edge, so it closes nothing. -/
theorem Root.nonpos {front : List TokenKind} (h : Root indent indents front) : indent ≤ 0 := by
  cases h <;> decide

variable {q : List Token} {tok : Token} {key : PossibleKey} {front : List TokenKind}

theorem insertIdx_at (q rest : List Token) (t : Token) : (q ++ rest).insertIdx q.length t = q ++ t :: rest := by
  induction q with
  | nil => rfl
  | cons a q ih => rw [List.length_cons, List.cons_append, List.insertIdx_succ_cons, ih]; rfl

/-- **The colon puts the sign of the key before its name.** -/
theorem fetchValue_eq (hroot : Root indent indents front) (hindent : s.indent = indent) (hindents : s.indents = indents)
    (houter : s.outer = []) (hqueue : s.queue = q ++ [tok]) (hkey : s.key = some key)
    (hnumber : key.number = s.taken + q.length) (hvalid : key.valid s.mark = .ok true) (hcolumn : key.mark.column = 0) :
    ∃ s₂, s.fetchValue = .ok s₂ ∧ s₂.queue.map (·.kind) = q.map (·.kind) ++ (front ++ [.key, tok.kind, .value]) ∧
      Open s₂ 0 [-1] ∧ s₂.key = none ∧ s₂.keyAllowed = false ∧ s₂.cursor = s.cursor.skip := by
  have hplace : key.number - s.taken = q.length := by omega
  have hsome : s.validKey = .ok (some key) := by
    rw [validKey, hkey]
    simp only [bind, Except.bind]
    rw [hvalid]
    rfl
  have hinsert : s.queue.insertIdx q.length ⟨.key, key.mark⟩ = q ++ [⟨.key, key.mark⟩, tok] := by
    rw [hqueue, insertIdx_at]
  rw [fetchValue, hsome]
  simp only [bind, Except.bind]
  rw [roll]
  cases hroot with
  | first =>
    -- the start of the collection goes before the key
    rw [if_pos (by simp [inFlow, houter, hindent, hcolumn]), if_neg (by simp [hindents, maxDepth])]
    refine ⟨_, rfl, ?_, ⟨?_, ?_, houter, by simp [pushSign, push]⟩, rfl, rfl, rfl⟩
    · simp [pushSign, push, hplace, hinsert, insertIdx_at]
    · simp [pushSign, push, hcolumn]
    · simp [pushSign, push, hindent, hindents]
  -- the collection is there already
  | further =>
    rw [if_neg (by simp [hindent, hcolumn])]
    refine ⟨_, rfl, ?_, ⟨hindent, hindents, houter, by simp [pushSign, push]⟩, rfl, rfl, rfl⟩
    simp [pushSign, push, hplace, hinsert]

/-- The colon behind a key. -/
theorem emits_colon (hroot : Root indent indents front) (hindent : s.indent = indent) (hindents : s.indents = indents)
    (houter : s.outer = []) (hqueue : s.queue = q ++ [tok]) (hkey : s.key = some key)
    (hnumber : key.number = s.taken + q.length) (hvalid : key.valid s.mark = .ok true) (hcolumn : key.mark.column = 0)
    (hc : At s.cursor (':' :: r) col) (hr : Behind r ks) :
    Emits s (q.map (·.kind) ++ (front ++ .key :: tok.kind :: .value :: ks)) := by
  obtain ⟨s₂, hfetch, hkinds, hopen, hnone, hallowed, hcursor⟩ :=
    fetchValue_eq hroot hindent hindents houter hqueue hkey hnumber hvalid hcolumn
  have hc₂ := hc.skip
  rw [← hcursor] at hc₂
  have hstarts : Starts (':' :: r) := by
    intro y hy
    cases hy
    decide
  obtain ⟨hnext, _⟩ := toNextToken_spaces (j := 0) hstarts hc
  have hle : s.indent ≤ (col : Int) := by
    have := hroot.nonpos
    omega
  have hcontent : s.fetchContent ':' = .ok s₂ := by
    have hpeek : s.cursor.peek 1 = r.head? := by
      rw [hc.peek, List.head?_eq_getElem?]
      rfl
    rw [← hfetch, fetchContent, hpeek, hr.apart]
    simp
  have hstep := fetch_eq hnext hc (Or.inr (by decide))
    (by rw [← hcontent]; exact congrArg (fun s' => fetchContent s' ':') (unroll_of_le hle)) (Or.inr (hr.noComment hc₂))
  refine Emits.step hstep hopen.quiet ?_ fun a b hab => ⟨_, hr.emits (hopen.handed a b) hnone hallowed hc₂, ?_⟩
  · rw [hc.rest, hc₂.rest]
    simp
  · -- whatever of the queue is handed out now, the tokens are the same in all
    have hsplit : a.map (·.kind) ++ b.map (·.kind) = q.map (·.kind) ++ (front ++ [.key, tok.kind, .value]) := by
      rw [← hkinds, hab.queue, List.map_append]
    show _ = a.map (·.kind) ++ (b.map (·.kind) ++ ks)
    rw [← List.append_assoc (a.map (·.kind)), hsplit]
    simp

variable {w : List Char}

theorem Name.starts (h : Name w) (r : List Char) : Starts (w ++ r) := by
  obtain ⟨x, t, rfl, hstart, _, hascii⟩ := h.head
  intro y hy
  cases hy
  refine ⟨(h.chars x List.mem_cons_self).1, ?_, ?_⟩
  · rintro rfl
    exact absurd hstart (by decide)
  · rintro rfl
    exact absurd hascii (by decide)

theorem Name.plainScalar {c : Cursor} (h : Name w) (hr : isBlankOrEnd r.head? = true)
    (hc : At c (w ++ ':' :: r) col) : Yaml.plainScalar false indent c = .ok (w, false, c.skipN w.length) := by
  obtain ⟨x, t, rfl, hstart, hdot, _⟩ := h.head
  have hne : ∀ y, isStartIndicator y true = true → x ≠ y := by
    rintro y hy rfl
    rw [hstart] at hy
    cases hy
  -- none of its characters is a colon, and the first is not one of a document mark or a comment
  refine plainScalar_word (by simp) ?_ hr hc (hc.not_atDocumentMark_of_head ?_ ?_) ?_
  · intro a y b hab
    obtain ⟨hink, hcolon⟩ := h.chars y (by rw [hab]; simp)
    exact ⟨hink, fun hy => absurd hy hcolon⟩
  · simpa using hne '-' (by decide)
  · simpa using hdot
  · simpa using hne '#' (by decide)

/-- The stream behind a name at `c`, which may be a key. -/
def named (s : TokenStream) (w : List Char) (c : Cursor) (required : Bool) : TokenStream :=
  { s with key := some ⟨required, s.taken + s.queue.length, c.mark⟩, keyAllowed := false }.push (.scalar w .plain)
    c.mark (c.skipN w.length)

/-- A name at the left edge, up to its colon. -/
theorem fetch_name (hname : Name w) (hindent : indent ≤ 0) (hopen : Open s indent indents)
    (harrives : Arrives s (w ++ ':' :: r) 0) (hr : isBlankOrEnd r.head? = true) :
    (w ++ ':' :: r).length ≤ s.cursor.rest.length ∧ ∃ c required, At c (w ++ ':' :: r) 0 ∧
      s.fetch = .ok (s.named w c required, false) := by
  obtain ⟨hlen, c, hc, hnext⟩ := harrives.next (hname.starts _) hopen.outer
  refine ⟨hlen, c, (!s.inFlow && s.indent == c.mark.column), hc, ?_⟩
  have hread : Yaml.plainScalar false (s.indent + 1) c = .ok (w, false, c.skipN w.length) := hname.plainScalar hr hc
  have hskip := hc.skipN
  obtain ⟨x, t, hw, hstart, hdot, _⟩ := hname.head
  have hne : ∀ y, isStartIndicator y true = true → x ≠ y := by
    rintro y hy rfl
    rw [hstart] at hy
    cases hy
  have hc' : At c (x :: (t ++ ':' :: r)) 0 := by
    rw [hw] at hc
    exact hc
  have hopen₁ := hopen.landed c
  have hunroll : (s.landed c).unroll ((0 : Nat) : Int) = s.landed c :=
    unroll_of_le (by rw [hopen₁.indent]; exact hindent)
  -- no other token starts with the first character of a name
  have hplain : (s.landed c).fetchContent x = (s.landed c).fetchPlain := by
    refine fetchContent_start (hname.chars x (by simp [hw])).1 ?_ ?_ hopen₁.inFlow hc'
    · rw [isStartIndicator, Bool.or_eq_false_iff] at hstart
      rw [isStartIndicator, hstart.1, Bool.and_false, Bool.or_false]
    · intro hx
      rcases hx with hx | hx | hx
      · exact absurd hx (hne '-' (by decide))
      · exact absurd hx (hne '?' (by decide))
      · exact absurd hx (hne ':' (by decide))
  have hfetch : (s.landed c).fetchPlain = .ok (s.named w c (!s.inFlow && s.indent == c.mark.column)) := by
    rw [fetchPlain, TokenStream.saveKey, hopen₁.dropKey]
    simp only [landed, inFlow, hopen.outer, List.isEmpty_nil, Bool.not_true, if_true, bind, Except.bind, pure,
      Except.pure]
    rw [hread, named, hopen.outer]
    rfl
  refine fetch_eq hnext hc' (Or.inr ⟨hne '%' (by decide), hne '-' (by decide), hdot⟩)
    (by rw [hunroll, hplain, hfetch]) (Or.inr ?_)
  refine skipLineComment_eq (j := 0) hskip fun y hy => ?_
  cases hy
  decide

/-- **A key and its colon**, and the start of the collection before the first key. -/
theorem goes_key (hname : Name w) (hroot : Root indent indents front) (hr : Behind r ks) :
    Goes indent indents 0 (w ++ ':' :: r) (front ++ .key :: .scalar w .plain :: .value :: ks) := by
  refine ⟨hname.starts _, fun s hopen harrives => ?_⟩
  obtain ⟨hlen, c, required, hc, hfetch⟩ := fetch_name hname hroot.nonpos hopen harrives hr.apart
  have hskip := hc.skipN
  have hmark : (c.skipN w.length).mark =
      { c.mark with index := c.mark.index + w.length, column := c.mark.column + w.length } :=
    skipN_mark hc.rest
  -- the name is short and on one line, so it can still be a key when the colon comes
  have hvalid : PossibleKey.valid ⟨required, s.taken + s.queue.length, c.mark⟩ (c.skipN w.length).mark = .ok true := by
    have hshort := hname.short
    rw [PossibleKey.valid, hmark]
    refine if_neg ?_
    simp only [Bool.or_eq_true, decide_eq_true_eq, not_or]
    omega
  have hquiet : Quiet (s.named w c required) := by
    refine ⟨by simp [named, push, hopen.outer], fun k hk => ?_⟩
    cases hk
    exact ⟨true, hvalid⟩
  refine Emits.step hfetch hquiet ?_ fun a b hab => ?_
  · show (c.skipN w.length).rest.length < _
    obtain ⟨x, t, hw, _⟩ := hname.head
    rw [hskip.rest]
    rw [hw] at hlen
    simp only [List.length_cons, List.length_append] at hlen ⊢
    omega
  · -- the name is not handed out before the colon
    have hheld : s.taken + a.length ≤ s.taken + s.queue.length := hab.held _ rfl hvalid (Nat.le_add_right _ _)
    have hqueue : s.queue ++ [⟨.scalar w .plain, c.mark⟩] = a ++ b := hab.queue
    obtain ⟨q, hq, hb⟩ : ∃ q, s.queue = a ++ q ∧ b = q ++ [⟨.scalar w .plain, c.mark⟩] := by
      rcases List.append_eq_append_iff.mp hqueue with ⟨u, hu, hu'⟩ | ⟨u, hu, hu'⟩
      · have hnil : u = [] := by
          rw [hu, List.length_append] at hheld
          exact List.eq_nil_of_length_eq_zero (by omega)
        rw [hnil] at hu hu'
        exact ⟨[], by rw [hu, List.append_nil, List.append_nil], hu'.symm⟩
      · exact ⟨u, hu, hu'⟩
    refine ⟨_, emits_colon hroot hopen.indent hopen.indents hopen.outer hb rfl ?_ hvalid hc.column hskip hr, ?_⟩
    · show s.taken + s.queue.length = s.taken + a.length + q.length
      rw [hq, List.length_append, Nat.add_assoc]
    · rw [hq, List.map_append, List.append_assoc]

/-- A scalar behind a key. -/
theorem behind_item {i : Item} (h : Written 4 i out) (hgo : Goes 0 [-1] 0 r ks) :
    Behind (' ' :: (out ++ r)) (i.kinds ++ ks) where
  apart := rfl
  noComment hc := skipLineComment_eq (j := 1) hc (written_starts h r).noComment
  emits hopen _ _ hc :=
    emits_item h hopen (k := 0) ⟨by decide, by decide, by decide, by omega, fun _ => rfl⟩ hc hgo

/-- A list behind a key starts on the next line. -/
theorem behind_list (hgo : Goes 0 [-1] 4 r ks) : Behind ('\n' :: (List.replicate 4 ' ' ++ r)) ks where
  apart := rfl
  noComment hc := by
    refine skipLineComment_eq (j := 0) hc fun y hy => ?_
    cases hy
    decide
  -- the dash is the next token, at the start of a line
  emits hopen _ _ hc := hgo.2 _ hopen (Or.inr ⟨_, hc⟩)

/-! ## 2. Lists

A list is a collection of its own, four columns in.  It is opened by its first dash, and closed by the next key
or by the end of the text, which are further left.  The empty list is written in brackets. -/

/-- The entries of a list: inside of it, or the first one, which opens it. -/
inductive Listed : Int → List Int → List TokenKind → Prop
  | first : Listed 0 [-1] [.blockSequenceStart]
  | further : Listed 4 [0, -1] []

/-- A dash opens a list, unless it is inside of one. -/
theorem rollHere_listed (hlisted : Listed indent indents front) (hopen : Open s indent indents)
    (hcolumn : s.mark.column = 4) :
    ∃ s', s.rollHere .blockSequenceStart = .ok s' ∧ Open s' 4 [0, -1] ∧
      s'.queue.map (·.kind) = s.queue.map (·.kind) ++ front ∧ s'.cursor = s.cursor := by
  rw [rollHere, roll, hopen.inFlow, hopen.indent, hopen.indents, hcolumn]
  cases hlisted with
  | first =>
    rw [if_pos (by decide), if_neg (by decide), Nat.add_sub_cancel_left, List.insertIdx_length_self]
    exact ⟨_, rfl, ⟨rfl, rfl, hopen.outer, hopen.key⟩, List.map_append, rfl⟩
  | further =>
    rw [if_neg (by decide)]
    exact ⟨s, rfl, hopen, (List.append_nil _).symm, rfl⟩

theorem fetch_dash (hlisted : Listed indent indents front) (hopen : Open s indent indents)
    (harrives : Arrives s ('-' :: ' ' :: t) 4) :
    t.length + 2 ≤ s.cursor.rest.length ∧ ∃ s₂, s.fetch = .ok (s₂, false) ∧
      s₂.queue.map (·.kind) = s.queue.map (·.kind) ++ (front ++ [.blockEntry]) ∧ Open s₂ 4 [0, -1] ∧
      At s₂.cursor (' ' :: t) 5 := by
  have hstarts : Starts ('-' :: ' ' :: t) := by
    intro y hy
    cases hy
    decide
  obtain ⟨hlen, c, hc, hnext⟩ := harrives.next hstarts hopen.outer
  have hopen₁ := hopen.landed c
  have hunroll : (s.landed c).unroll ((4 : Nat) : Int) = s.landed c := by
    refine unroll_of_le ?_
    rw [hopen₁.indent]
    cases hlisted <;> decide
  have hcontent : (s.landed c).fetchContent '-' = (s.landed c).fetchBlockEntry := by
    have hpeek : c.peek 1 = some ' ' := by
      rw [hc.peek]
      rfl
    rw [fetchContent, show (s.landed c).cursor = c from rfl, hpeek]
    rfl
  obtain ⟨s', hroll, hopen', hkinds, hcursor⟩ := rollHere_listed hlisted hopen₁ hc.column
  have hfetch : ((s.landed c).unroll ((4 : Nat) : Int)).fetchContent '-' =
      .ok ({ s' with key := none, keyAllowed := true }.pushSign .blockEntry) := by
    rw [hunroll, hcontent, fetchBlockEntry, if_neg (by simp [landed])]
    simp only [bind, Except.bind, hroll]
    rw [hopen'.dropKey]
    rfl
  refine ⟨hlen, _, fetch_eq hnext hc (Or.inl (by decide)) hfetch (Or.inl (by simp [pushSign, push])), ?_,
    ⟨hopen'.indent, hopen'.indents, hopen'.outer, by simp [pushSign, push]⟩, ?_⟩
  · rw [← List.append_assoc, show s.queue = (s.landed c).queue from rfl, ← hkinds]
    exact List.map_append
  · show At s'.cursor.skip _ _
    rw [hcursor]
    exact hc.skip

/-- **An entry of a list.** -/
theorem goes_entry {i : Item} (h : Written 6 i out) (hlisted : Listed indent indents front) (hk : k ≤ 4)
    (hgo : Goes 4 [0, -1] k r ks) :
    Goes indent indents 4 ('-' :: ' ' :: (out ++ (List.replicate k ' ' ++ r)))
      (front ++ .blockEntry :: (i.kinds ++ ks)) := by
  refine ⟨?_, fun s hopen harrives => ?_⟩
  · intro y hy
    cases hy
    decide
  · obtain ⟨hlen, s₂, hfetch, hkinds, hopen₂, hc₂⟩ := fetch_dash hlisted hopen harrives
    refine Emits.step hfetch hopen₂.quiet ?_ fun a b hab => ?_
    · rw [hc₂.rest, List.length_cons]
      omega
    · -- the item stands behind the dash and the space, and its further lines two columns behind the dash
      have hfits : Fits 4 6 k (5 + 1) := ⟨by decide, by decide, by omega, by decide, by decide⟩
      refine ⟨_, emits_item h (hopen₂.handed a b) hfits hc₂ hgo, ?_⟩
      have hsplit : a.map (·.kind) ++ b.map (·.kind) = s.queue.map (·.kind) ++ (front ++ [.blockEntry]) := by
        rw [← hkinds, hab.queue, List.map_append]
      show _ = a.map (·.kind) ++ (b.map (·.kind) ++ _)
      rw [← List.append_assoc (a.map (·.kind)), hsplit]
      simp

/-- The stream with a list closed. -/
def closed (s : TokenStream) (m : Mark) : TokenStream :=
  { s with indent := 0, indents := [-1], queue := s.queue ++ [⟨.blockEnd, m⟩] }

theorem unroll_list (hopen : Open s 4 [0, -1]) : s.unroll 0 = s.closed s.mark := by
  rw [unroll, hopen.inFlow, hopen.indent, hopen.indents]
  rfl

/-- At the left edge the list ends. -/
theorem goes_close (hgo : Goes 0 [-1] 0 r ks) : Goes 4 [0, -1] 0 r (.blockEnd :: ks) := by
  refine ⟨hgo.1, fun s hopen harrives => ?_⟩
  obtain ⟨_, c, hc, hland⟩ := harrives.land hgo.1
  have hcolumn : (s.landed c).mark.column = 0 := hc.column
  -- the stream with the list closed already goes on in the same way
  have hclosed : ((s.closed c.mark).landed c).unroll 0 = (s.closed c.mark).landed c := unroll_of_le (Int.le_refl 0)
  have hnext : (s.closed c.mark).toNextToken ((s.closed c.mark).cursor.rest.length + 1) =
      .ok ((s.closed c.mark).landed c) := hland rfl rfl hopen.outer
  have hfetch : s.fetch = (s.closed c.mark).fetch := by
    rw [fetch, fetch, hland rfl rfl hopen.outer, hnext]
    simp only [bind, Except.bind]
    rw [show ((s.closed c.mark).landed c).mark = (s.landed c).mark from rfl, hcolumn, Nat.cast_zero, hclosed,
      unroll_list (hopen.landed c)]
    rfl
  have hemits := Emits.congr hfetch rfl (hgo.2 (s.closed c.mark) ⟨rfl, rfl, hopen.outer, hopen.key⟩ harrives)
  -- the end of the list is in the queue of that stream, and is one of the tokens to come here
  have hqueue : (s.closed c.mark).queue.map (·.kind) = s.queue.map (·.kind) ++ [.blockEnd] := List.map_append
  rw [hqueue, List.append_assoc] at hemits
  exact hemits

/-- The stream inside an empty list. -/
def bracketed (s : TokenStream) (c : Cursor) : TokenStream :=
  { s.moved c with outer := [none], key := none, keyAllowed := true }.pushSign .flowSequenceStart

/-- Behind the colon of a key no further key is allowed, so the bracket is not remembered as the start of one. -/
theorem fetchContent_bracket {c : Cursor} (houter : s.outer = []) (hkey : s.key = none)
    (hallowed : s.keyAllowed = false) : (s.moved c).fetchContent '[' = .ok (s.bracketed c) := by
  have hsave : (s.moved c).saveKey = .ok (s.moved c) := by
    rw [saveKey, show (s.moved c).keyAllowed = false from hallowed]
    rfl
  show (s.moved c).fetchFlowStart .flowSequenceStart = _
  rw [fetchFlowStart, hsave]
  simp only [bind, Except.bind]
  rw [show (s.moved c).outer = [] from houter, show (s.moved c).key = none from hkey, if_neg (by decide)]
  rfl

/-- The end of an empty list. -/
theorem emits_bracket (hindent : s.indent = 0) (hindents : s.indents = [-1]) (houter : s.outer = [none])
    (hkey : s.key = none) (hc : At s.cursor (']' :: '\n' :: r) col) (hgo : Goes 0 [-1] 0 r ks) :
    Emits s (s.queue.map (·.kind) ++ .flowSequenceEnd :: ks) := by
  have hstarts : Starts (']' :: '\n' :: r) := by
    intro y hy
    cases hy
    decide
  obtain ⟨hnext, _⟩ := toNextToken_spaces (j := 0) hstarts hc
  have hunroll : s.unroll (col : Int) = s := unroll_of_le (by omega)
  have hdrop : s.dropKey = .ok s := by
    rw [dropKey, hkey]
  have hfetch : (s.unroll (col : Int)).fetchContent ']' =
      .ok ({ s with key := none, outer := [], keyAllowed := false }.pushSign .flowSequenceEnd) := by
    rw [hunroll]
    show s.fetchFlowEnd .flowSequenceEnd = _
    rw [fetchFlowEnd, hdrop]
    simp only [bind, Except.bind]
    rw [houter]
    rfl
  have hc₂ : At s.cursor.skip ('\n' :: r) (col + 1) := hc.skip
  have hcomment : skipLineComment s.cursor.skip = .ok s.cursor.skip := by
    refine skipLineComment_eq (j := 0) hc₂ fun y hy => ?_
    cases hy
    decide
  have hadds : Adds s ({ s with key := none, outer := [], keyAllowed := false }.pushSign .flowSequenceEnd)
      .flowSequenceEnd 0 [-1] := ⟨⟨_, rfl⟩, hindent, hindents, rfl, by simp [pushSign, push]⟩
  refine Emits.of_adds (fetch_eq hnext hc (Or.inr (by decide)) hfetch (Or.inr hcomment)) hadds ?_
    (hgo.emits hadds.opened (Or.inr ⟨_, hc₂⟩))
  show s.cursor.skip.rest.length < _
  rw [hc.rest, hc₂.rest]
  simp

/-- An empty list behind a key. -/
theorem behind_empty (hgo : Goes 0 [-1] 0 r ks) :
    Behind (' ' :: '[' :: ']' :: '\n' :: r) (.flowSequenceStart :: .flowSequenceEnd :: ks) where
  apart := rfl
  noComment hc := by
    refine skipLineComment_eq (j := 1) hc fun y hy => ?_
    cases hy
    decide
  emits {s col} hopen hkey hallowed hc := by
    have hstarts : Starts ('[' :: ']' :: '\n' :: r) := by
      intro y hy
      cases hy
      decide
    obtain ⟨c, hc₁, hfetch⟩ := fetch_inside hopen (by omega) hstarts hc
    have hcomment : skipLineComment c.skip = .ok c.skip := by
      refine skipLineComment_eq (j := 0) hc₁.skip fun y hy => ?_
      cases hy
      decide
    -- inside the brackets there is no key
    have hquiet : Quiet (s.bracketed c) := ⟨by simp [bracketed, pushSign, push], by simp [bracketed, pushSign, push]⟩
    refine Emits.step (hfetch (fetchContent_bracket hopen.outer hkey hallowed) hcomment) hquiet ?_ fun a b hab => ?_
    · show c.skip.rest.length < _
      rw [hc.rest, hc₁.skip.rest]
      simp
    · refine ⟨_, emits_bracket hopen.indent hopen.indents rfl rfl hc₁.skip hgo, ?_⟩
      have hsplit : a.map (·.kind) ++ b.map (·.kind) = s.queue.map (·.kind) ++ [.flowSequenceStart] := by
        rw [← List.map_append, ← hab.queue]
        exact List.map_append
      show _ = a.map (·.kind) ++ (b.map (·.kind) ++ _)
      rw [← List.append_assoc (a.map (·.kind)), hsplit]
      simp

/-! ## 3. The end

At the end of the text the collections that are still open are closed. -/

/-- The stream with the outermost collection closed. -/
def finished (s : TokenStream) : TokenStream :=
  { s with indent := -1, indents := [], queue := s.queue ++ [⟨.blockEnd, s.mark⟩] }

theorem fetchEnd_eq (hopen : Open s 0 [-1]) (hcolumn : s.cursor.mark.column = 0) :
    s.fetchEnd = .ok ({ s.finished with key := none, keyAllowed := false }.push .streamEnd s.mark s.cursor) := by
  have hunroll : s.unroll (-1) = s.finished := by
    rw [unroll, hopen.inFlow, hopen.indent, hopen.indents]
    rfl
  have hdrop : s.finished.dropKey = .ok { s.finished with key := none } :=
    Open.dropKey (⟨rfl, rfl, hopen.outer, hopen.key⟩ : Open s.finished (-1) [])
  rw [fetchEnd]
  simp only [hcolumn, if_true]
  rw [hunroll]
  simp only [bind, Except.bind]
  rw [hdrop]
  rfl

/-- **The end of the text** closes the outermost collection and the stream. -/
theorem goes_end : Goes 0 [-1] 0 [] [.blockEnd, .streamEnd] := by
  have hstarts : Starts [] := by
    intro y hy
    cases hy
  refine ⟨hstarts, fun s hopen harrives => ?_⟩
  obtain ⟨_, c, hc, hnext⟩ := harrives.next hstarts hopen.outer
  have hopen₁ := hopen.landed c
  have hunroll : (s.landed c).unroll 0 = s.landed c := unroll_of_le (Int.le_of_eq hopen₁.indent)
  have hfetch : s.fetch = .ok ({ (s.landed c).finished with key := none, keyAllowed := false }.push .streamEnd
      (s.landed c).mark (s.landed c).cursor, true) := by
    rw [fetch, hnext]
    simp only [bind, Except.bind]
    rw [show (s.landed c).mark.column = 0 from hc.column, Nat.cast_zero, hunroll,
      show (s.landed c).cursor.need 4 = .ok () from hc.need 4, show (s.landed c).cursor.head = none from hc.head,
      fetchEnd_eq hopen₁ hc.column]
    rfl
  have hemits := Emits.last hfetch rfl hopen.outer
  have hkinds : ((s.landed c).finished.queue ++ [Token.mk .streamEnd (s.landed c).mark]).map (·.kind) =
      s.queue.map (·.kind) ++ [.blockEnd, .streamEnd] := by
    simp [finished, landed]
  rw [← hkinds]
  exact hemits

/-! ## 4. Sheets

A sheet is given by its fields together with the characters that they are written in, since one item can be
written in several ways.  The theorems go through a sheet from its last field to its first. -/

/-- What stands behind a key: an item, or a list of them. -/
inductive Content where
  | one (i : Item)
  | many (items : List Item)

/-- The tokens of the entries of a list. -/
def entryKinds (items : List Item) : List TokenKind := items.flatMap fun i => .blockEntry :: i.kinds

/-- The tokens of what stands behind a key. -/
def Content.kinds : Content → List TokenKind
  | .one i => i.kinds
  | .many [] => [.flowSequenceStart, .flowSequenceEnd]
  | .many (i :: items) => .blockSequenceStart :: (entryKinds (i :: items) ++ [.blockEnd])

/-- The lines of a list. -/
def entryLines (outs : List (List Char)) : List Char :=
  outs.flatMap fun out => List.replicate 4 ' ' ++ '-' :: ' ' :: out

/-- The characters of what stands behind a key. -/
inductive Content.Written : Content → List Char → Prop
  | one {i : Item} {out : List Char} (h : Print.Written 4 i out) : Written (.one i) (' ' :: out)
  | none : Written (.many []) (' ' :: '[' :: ']' :: ['\n'])
  | many {i : Item} {items : List Item} {out : List Char} {outs : List (List Char)}
      (h : List.Forall₂ (Print.Written 6) (i :: items) (out :: outs)) :
      Written (.many (i :: items)) ('\n' :: entryLines (out :: outs))

/-- The entries of a list behind the first one, and the line behind them. -/
theorem goes_entries {items : List Item} {outs : List (List Char)} (h : List.Forall₂ (Print.Written 6) items outs)
    (hgo : Goes 0 [-1] 0 r ks) :
    ∃ k r', k ≤ 4 ∧ entryLines outs ++ r = List.replicate k ' ' ++ r' ∧
      Goes 4 [0, -1] k r' (entryKinds items ++ .blockEnd :: ks) := by
  induction h with
  -- no further entry: the list is closed by what comes next
  | nil => exact ⟨0, r, by decide, rfl, goes_close hgo⟩
  | @cons i out items outs hi _ ih =>
    obtain ⟨k, r', hk, hlines, hgo'⟩ := ih
    refine ⟨4, '-' :: ' ' :: (out ++ (entryLines outs ++ r)), Nat.le_refl 4, by simp [entryLines], ?_⟩
    have hentry := goes_entry hi .further hk hgo'
    rw [← hlines] at hentry
    simpa [entryKinds] using hentry

theorem behind_content {content : Content} (h : content.Written out) (hgo : Goes 0 [-1] 0 r ks) :
    Behind (out ++ r) (content.kinds ++ ks) := by
  cases h with
  | one h => exact behind_item h hgo
  | none => exact behind_empty hgo
  | @many i items out outs h =>
    obtain ⟨hi, hitems⟩ := List.forall₂_cons.mp h
    obtain ⟨k, r', hk, hlines, hgo'⟩ := goes_entries hitems hgo
    have hfirst := behind_list (goes_entry hi .first hk hgo')
    rw [← hlines] at hfirst
    simpa [entryLines, Content.kinds, entryKinds] using hfirst

/-- A key with what stands behind it. -/
abbrev Field := List Char × Content

/-- The tokens of a field. -/
def fieldKinds (f : Field) : List TokenKind := .key :: .scalar f.1 .plain :: .value :: f.2.kinds

/-- The characters of a field. -/
inductive Field.Written : Field → List Char → Prop
  | mk {w out : List Char} {content : Content} (hname : Name w) (h : content.Written out) :
      Written (w, content) (w ++ ':' :: out)

theorem goes_fields {fields : List Field} {outs : List (List Char)} (h : List.Forall₂ Field.Written fields outs) :
    Goes 0 [-1] 0 outs.flatten (fields.flatMap fieldKinds ++ [.blockEnd, .streamEnd]) := by
  induction h with
  | nil => exact goes_end
  | @cons f out fields outs hf _ ih =>
    cases hf with
    | mk hname h => simpa [fieldKinds] using goes_key hname .further (behind_content h ih)

/-- **The tokens of a sheet of fields.** -/
theorem tokens_sheet {f : Field} {fields : List Field} {out : List Char} {outs : List (List Char)}
    (h : List.Forall₂ Field.Written (f :: fields) (out :: outs)) :
    ∃ ts, tokens ⟨(out :: outs).flatten, none⟩ = (ts, none) ∧
      ts.map (·.kind) = .blockMappingStart :: ((f :: fields).flatMap fieldKinds ++ [.blockEnd, .streamEnd]) := by
  obtain ⟨hf, hfields⟩ := List.forall₂_cons.mp h
  have hgo : Goes (-1) [] 0 (out :: outs).flatten
      (.blockMappingStart :: ((f :: fields).flatMap fieldKinds ++ [.blockEnd, .streamEnd])) := by
    cases hf with
    | mk hname hcontent =>
      simpa [fieldKinds] using goes_key hname .first (behind_content hcontent (goes_fields hfields))
  -- the stream starts at the left edge with nothing open, and a key is allowed
  refine hgo.2 { cursor := Cursor.ofInput ⟨(out :: outs).flatten, none⟩ } ⟨rfl, rfl, rfl, by simp⟩
    (Or.inl ⟨⟨rfl, rfl, rfl⟩, rfl⟩) _ ?_
  show (out :: outs).flatten.length < (out :: outs).flatten.length + 2
  omega

end AgentKit.Yaml.TokenStream
