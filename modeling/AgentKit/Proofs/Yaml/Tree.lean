import AgentKit.Yaml.Decode
import AgentKit.Proofs.Yaml.Sheet
import Mathlib.Tactic
/-!
# From tokens to values

The nodes of a sheet are read from its tokens, and its entries from its nodes.  A token carries its place as well
as its kind, and a node its line, but no value depends on them.  So tokens are known by their kinds only
(`exists_token`, `exists_tokens`), and nodes up to their line (`IsItem`, `IsContent`, `IsField`).

A reader of nodes is run by rewriting: `peek_bind`, `skip_bind` and `bind_of` say what the next step does to the
tokens that are left.  Decoding goes on in a state of its own, which counts nodes; without aliases there is nothing
to stop it, and `Gives` says that a step has its result whatever the count.

Both the reader and the decoder are given a bound on their steps.  The reader's is taken from the number of tokens
and the decoder's from the number of nodes, so each lemma asks for a bound above the number of what it reads, and
only the last theorem has to know how the two bounds are chosen.

A sheet shows little of what the reader could meet: a map at the root, keys that are plain, and behind each key one
scalar, a block list of scalars, or the empty list in its flow form.  There are no anchors, no merge keys and no
tag but that of base 64.  `Stands` says the rest: what the key and the content of a field come to.

1. Steps of the reader.
2. Items (`node_item`), 3. lists (`blockItems_eq`), 4. fields (`blockEntries_eq`), 5. documents (`document_eq`).
6. Values (`gives_assignAll`, `gives_rootMap`).
7. **A sheet of fields is read back** (`readMap_sheet`).
-/

namespace AgentKit.Yaml

open TokenStream Print

/-- The reader with these tokens left. -/
def NodeReader.behind (s : NodeReader) (rest : List Token) : NodeReader := { s with rest }

theorem NodeReader.behind_behind (s : NodeReader) (a b : List Token) : (s.behind a).behind b = s.behind b := rfl

namespace Reading

variable {α β : Type} {s : NodeReader} {t : Token} {rest : List Token}

/-! ## 1. Steps

What the reader is about to see is always given as an equation for `s.rest`.  A step is then one rewrite: looking
at the token, passing it, or going on behind a reader whose result is known.  The `dsimp only` between two of
them resolves the case distinction on the kind of the token. -/

theorem peek_eq (h : s.rest = t :: rest) : peek s = .ok (t, s) := by
  cases s
  cases h
  rfl

/-- A step whose result is known is left behind. -/
theorem bind_of {m : Reading α} {a : α} {s' : NodeReader} (h : m s = .ok (a, s')) (f : α → Reading β) :
    (m >>= f) s = f a s' := by
  show (m s).bind (fun e => f e.1 e.2) = _
  rw [h]
  rfl

theorem peek_bind (h : s.rest = t :: rest) (f : Token → Reading α) : (peek >>= f) s = f t s := bind_of (peek_eq h) f

/-- The first token is passed, and nothing but the tokens left has changed. -/
theorem skip_bind (h : s.rest = t :: rest) (f : Unit → Reading α) : (skip >>= f) s = f () (s.behind rest) := by
  show f () { s with rest := s.rest.drop 1 } = _
  rw [h]
  rfl

/-! ## 2. Items

A scalar is read in one step, whether it stands in a block or in flow: it has no anchor, and at most a tag. -/

/-- A scalar without a tag before it has no properties. -/
theorem properties_scalar {text : List Char} {style : Style} {start m : Mark}
    (h : s.rest = ⟨.scalar text style, m⟩ :: rest) : properties start s = .ok (([], none), s) := by
  rw [properties, peek_bind h]
  rfl

theorem get_bind (f : NodeReader → Reading α) : (get >>= f) s = f s s := rfl

/-- A tag is its handle's stem with the suffix behind it, where the handle is known. -/
theorem fullTag_eq {handle suffix stem : Bytes} {start place : Mark} (hne : handle ≠ [])
    (hlook : s.handles.lookup handle = some stem) (hstem : stem ≠ []) :
    fullTag start place handle suffix s = .ok (stem ++ suffix, s) := by
  rw [fullTag, if_neg (by simpa using hne), get_bind, hlook]
  dsimp only
  rw [if_neg (by simp [hstem])]
  rfl

theorem node_scalar {text : List Char} {style : Style} {m : Mark} (fuel : Nat) (block indentless : Bool)
    (h : s.rest = ⟨.scalar text style, m⟩ :: rest) : node (fuel + 1) block indentless s =
      .ok (.scalar (m.line + 1) [] (Utf8.encodeAll text) style, s.behind rest) := by
  rw [node, peek_bind h]
  dsimp only
  rw [bind_of (properties_scalar h)]
  dsimp only
  rw [peek_bind h]
  dsimp only
  rw [bind_of (rfl : register none s = .ok (none, s)), skip_bind h]
  rfl

theorem node_tagged {handle suffix stem : Bytes} {text : List Char} {style : Style} {m m' : Mark} (fuel : Nat)
    (block indentless : Bool) (h : s.rest = ⟨.tag handle suffix, m⟩ :: ⟨.scalar text style, m'⟩ :: rest)
    (hne : handle ≠ []) (hlook : s.handles.lookup handle = some stem) (hstem : stem ≠ []) :
    node (fuel + 1) block indentless s =
      .ok (.scalar (m.line + 1) (stem ++ suffix) (Utf8.encodeAll text) style, s.behind rest) := by
  have hprops : properties m s = .ok ((stem ++ suffix, none), s.behind (⟨.scalar text style, m'⟩ :: rest)) := by
    rw [properties, peek_bind h]
    dsimp only
    rw [skip_bind h, peek_bind rfl]
    dsimp only
    rw [bind_of (fullTag_eq (s := s.behind (⟨.scalar text style, m'⟩ :: rest)) hne hlook hstem)]
    rfl
  rw [node, peek_bind h]
  dsimp only
  rw [bind_of hprops]
  dsimp only
  rw [peek_bind rfl]
  dsimp only
  rw [bind_of (rfl : register none _ = .ok (none, _)), skip_bind rfl]
  rfl

/-- The scalar of an item, on some line. -/
def IsItem (i : Item) (n : Node) : Prop := ∃ line, n = .scalar line i.tag (Utf8.encodeAll i.text) i.style

/-- The first token of some whose kinds are known. -/
theorem exists_token {ts : List Token} {kind : TokenKind} {ks : List TokenKind} (h : ts.map (·.kind) = kind :: ks) :
    ∃ m ts', ts = ⟨kind, m⟩ :: ts' ∧ ts'.map (·.kind) = ks := by
  obtain ⟨t, ts', rfl, rfl, hks⟩ := List.map_eq_cons_iff.mp h
  exact ⟨t.start, ts', rfl, hks⟩

theorem exists_tokens {ts : List Token} {ks ks' : List TokenKind} (h : ts.map (·.kind) = ks ++ ks') :
    ∃ a b, ts = a ++ b ∧ a.map (·.kind) = ks ∧ b.map (·.kind) = ks' := by
  obtain ⟨a, b, rfl, ha, hb⟩ := List.map_eq_append_iff.mp h
  exact ⟨a, b, rfl, ha, hb⟩

/-- **An item is one scalar.** -/
theorem node_item {i : Item} {ts : List Token} (fuel : Nat) (block indentless : Bool) (h : s.rest = ts ++ rest)
    (hkinds : ts.map (·.kind) = i.kinds) (hhandles : s.handles = standardHandles) :
    ∃ n, node (fuel + 1) block indentless s = .ok (n, s.behind rest) ∧ IsItem i n := by
  obtain ⟨binary, text, style⟩ := i
  -- base 64 has its tag before it, and the handle of this tag is one of those that are always known
  cases binary with
  | false =>
    obtain ⟨m, ts, rfl, hnil⟩ := exists_token hkinds
    rw [List.map_eq_nil_iff.mp hnil] at h
    exact ⟨_, node_scalar fuel block indentless h, _, rfl⟩
  | true =>
    obtain ⟨m, ts₁, rfl, hkinds₁⟩ := exists_token hkinds
    obtain ⟨m', ts₂, rfl, hnil⟩ := exists_token hkinds₁
    rw [List.map_eq_nil_iff.mp hnil] at h
    exact ⟨_, node_tagged fuel block indentless h (by decide) (by rw [hhandles]; rfl) (by decide), _, rfl⟩

/-- A token that starts a node. -/
def StartsNode (kind : TokenKind) : Prop :=
  kind ≠ .blockEntry ∧ kind ≠ .blockEnd ∧ kind ≠ .key ∧ kind ≠ .value

/-- Behind a dash, an item is not taken for the lack of one. -/
theorem item_starts (i : Item) : ∃ kind ks, i.kinds = kind :: ks ∧ StartsNode kind := by
  obtain ⟨binary, text, style⟩ := i
  cases binary with
  | false => exact ⟨_, _, rfl, by simp [StartsNode]⟩
  | true => exact ⟨_, _, rfl, by simp [StartsNode]⟩

/-! ## 3. Lists

An entry without a node is read as an empty scalar.  The reader finds this out by the token behind the dash, and
`StartsNode` is what that token must not be. -/

/-- Behind a dash comes the item, and then the rest of the list. -/
theorem blockItems_entry {fuel : Nat} {m start : Mark} (h : s.rest = ⟨.blockEntry, m⟩ :: t :: rest)
    (hkind : StartsNode t.kind) : blockItems (fuel + 1) start s =
      (node fuel true false >>= fun n => blockItems fuel start >>= fun ns => pure (n :: ns))
        (s.behind (t :: rest)) := by
  rw [blockItems, peek_bind h]
  dsimp only
  rw [skip_bind h, peek_bind rfl]
  -- the two kinds that would end an empty entry are excluded, and all others are read in the same way
  obtain ⟨kind, m'⟩ := t
  cases kind with
  | blockEntry => exact absurd rfl hkind.1
  | blockEnd => exact absurd rfl hkind.2.1
  | _ => rfl

/-- **The entries of a list are its items.** -/
theorem blockItems_eq {items : List Item} {ts : List Token} {fuel : Nat} (start : Mark) (h : s.rest = ts ++ rest)
    (hkinds : ts.map (·.kind) = entryKinds items ++ [.blockEnd]) (hhandles : s.handles = standardHandles)
    (hfuel : items.length + 1 < fuel) :
    ∃ ns, blockItems fuel start s = .ok (ns, s.behind rest) ∧ List.Forall₂ IsItem items ns := by
  induction items generalizing s ts fuel with
  | nil =>
    cases fuel with
    | zero => omega
    | succ fuel =>
      obtain ⟨m, ts, rfl, hnil⟩ := exists_token hkinds
      rw [List.map_eq_nil_iff.mp hnil] at h
      refine ⟨[], ?_, .nil⟩
      rw [blockItems, peek_bind h]
      dsimp only
      rw [skip_bind h]
      rfl
  | cons i items ih =>
    obtain ⟨fuel, rfl⟩ : ∃ f, fuel = f + 2 := ⟨fuel - 2, by simp only [List.length_cons] at hfuel; omega⟩
    -- the tokens of the list fall into the dash, those of the first item and those of the others
    have hsplit : entryKinds (i :: items) ++ [.blockEnd] =
        .blockEntry :: (i.kinds ++ (entryKinds items ++ [.blockEnd])) := by
      simp [entryKinds]
    rw [hsplit] at hkinds
    obtain ⟨m, ts₁, rfl, hkinds₁⟩ := exists_token hkinds
    obtain ⟨a, b, rfl, ha, hb⟩ := exists_tokens hkinds₁
    obtain ⟨kind, ks, hi, hstarts⟩ := item_starts i
    obtain ⟨m', a', rfl, _⟩ := exists_token (ha.trans hi)
    have hs : s.rest = ⟨.blockEntry, m⟩ :: ⟨kind, m'⟩ :: (a' ++ (b ++ rest)) := by
      rw [h]
      simp
    obtain ⟨n, hn, hitem⟩ := node_item (s := s.behind (⟨kind, m'⟩ :: (a' ++ (b ++ rest)))) fuel true false rfl ha
      hhandles
    obtain ⟨ns, hns, hitems⟩ := ih (s := s.behind (b ++ rest)) rfl hb hhandles
      (by simp only [List.length_cons] at hfuel; omega : items.length + 1 < fuel + 1)
    refine ⟨n :: ns, ?_, .cons hitem hitems⟩
    rw [blockItems_entry hs hstarts, bind_of hn, NodeReader.behind_behind, bind_of hns]
    rfl

/-! ## 4. Fields

A field is a key, its sign and a content.  Key and content are read by the same function, `blockPart`, which asks
whether a node starts there at all. -/

/-- The node of what stands behind a key. -/
def IsContent : Content → Node → Prop
  | .one i, n => IsItem i n
  | .many items, n => ∃ line ns, n = .sequence line [] ns ∧ List.Forall₂ IsItem items ns

/-- Behind the sign of a key, a content is not taken for the lack of one. -/
theorem content_starts (c : Content) : ∃ kind ks, c.kinds = kind :: ks ∧ StartsNode kind := by
  cases c with
  | one i => exact item_starts i
  | many items =>
    cases items with
    | nil => exact ⟨_, _, rfl, by simp [StartsNode]⟩
    | cons i items => exact ⟨_, _, rfl, by simp [StartsNode]⟩

theorem properties_none {kind : TokenKind} {m start : Mark} (h : s.rest = ⟨kind, m⟩ :: rest)
    (hkind : kind = .flowSequenceStart ∨ kind = .blockSequenceStart ∨ kind = .blockMappingStart) :
    properties start s = .ok (([], none), s) := by
  rw [properties, peek_bind h]
  rcases hkind with rfl | rfl | rfl <;> rfl

theorem node_list {ns : List Node} {m : Mark} {s' : NodeReader} (fuel : Nat) (indentless : Bool)
    (h : s.rest = ⟨.blockSequenceStart, m⟩ :: rest) (hitems : blockItems fuel m (s.behind rest) = .ok (ns, s')) :
    node (fuel + 1) true indentless s = .ok (.sequence (m.line + 1) [] ns, s') := by
  rw [node, peek_bind h]
  dsimp only
  rw [bind_of (properties_none h (by simp))]
  dsimp only
  rw [peek_bind h]
  dsimp only
  rw [bind_of (rfl : register none s = .ok (none, s)), skip_bind h, bind_of hitems]
  rfl

/-- An empty list is written in its flow form. -/
theorem node_empty {m m' : Mark} (fuel : Nat) (block indentless : Bool)
    (h : s.rest = ⟨.flowSequenceStart, m⟩ :: ⟨.flowSequenceEnd, m'⟩ :: rest) :
    node (fuel + 2) block indentless s = .ok (.sequence (m.line + 1) [] [], s.behind rest) := by
  have hitems : flowItems (fuel + 1) m true (s.behind (⟨.flowSequenceEnd, m'⟩ :: rest)) = .ok ([], s.behind rest) := by
    rw [flowItems, peek_bind rfl]
    dsimp only
    rw [skip_bind rfl]
    rfl
  rw [node, peek_bind h]
  dsimp only
  rw [bind_of (properties_none h (by simp))]
  dsimp only
  rw [peek_bind h]
  dsimp only
  rw [bind_of (rfl : register none s = .ok (none, s)), skip_bind h, bind_of hitems]
  rfl

theorem length_entryKinds (items : List Item) : items.length ≤ (entryKinds items).length := by
  induction items with
  | nil => exact Nat.zero_le _
  | cons i items ih =>
    rw [entryKinds, List.flatMap_cons, ← entryKinds]
    simp only [List.length_cons, List.length_append]
    omega

theorem node_content {c : Content} {ts : List Token} {fuel : Nat} (h : s.rest = ts ++ rest)
    (hkinds : ts.map (·.kind) = c.kinds) (hhandles : s.handles = standardHandles) (hfuel : c.kinds.length + 2 ≤ fuel) :
    ∃ n, node fuel true true s = .ok (n, s.behind rest) ∧ IsContent c n := by
  obtain ⟨fuel, rfl⟩ : ∃ f, fuel = f + 2 := ⟨fuel - 2, by omega⟩
  -- one item, the empty list, or a list in block form
  cases c with
  | one i => exact node_item (fuel + 1) true true h hkinds hhandles
  | many items =>
    cases items with
    | nil =>
      obtain ⟨m, ts₁, rfl, hkinds₁⟩ := exists_token hkinds
      obtain ⟨m', ts₂, rfl, hnil⟩ := exists_token hkinds₁
      rw [List.map_eq_nil_iff.mp hnil] at h
      exact ⟨_, node_empty fuel true true h, _, _, rfl, .nil⟩
    | cons i items =>
      obtain ⟨m, ts₁, rfl, hkinds₁⟩ := exists_token hkinds
      have hlen : (i :: items).length + 1 < fuel + 1 := by
        have := length_entryKinds (i :: items)
        simp only [Content.kinds, List.length_cons, List.length_append, List.length_nil] at hfuel this ⊢
        omega
      obtain ⟨ns, hns, hitems⟩ := blockItems_eq (s := s.behind (ts₁ ++ rest)) m rfl hkinds₁ hhandles hlen
      exact ⟨_, node_list (fuel + 1) true h hns, _, ns, rfl, hitems⟩

/-- A key or a value that is there. -/
theorem blockPart_eq {fuel : Nat} {sign : Mark} (h : s.rest = t :: rest) (hkind : StartsNode t.kind) :
    blockPart (fuel + 1) sign s = node fuel true true s := by
  rw [blockPart, peek_bind h]
  obtain ⟨kind, m⟩ := t
  cases kind with
  | blockEnd => exact absurd rfl hkind.2.1
  | key => exact absurd rfl hkind.2.2.1
  | value => exact absurd rfl hkind.2.2.2
  | _ => rfl

/-- The nodes of a field. -/
def IsField (f : Field) (e : Node × Node) : Prop :=
  (∃ line, e.1 = .scalar line [] (Utf8.encodeAll f.1) .plain) ∧ IsContent f.2 e.2

/-- One field is read, and the rest of the collection comes behind it. -/
theorem blockEntries_field {f : Field} {a : List Token} {m m' m'' : Mark} {fuel : Nat} (start : Mark)
    (h : s.rest = ⟨.key, m⟩ :: ⟨.scalar f.1 .plain, m'⟩ :: ⟨.value, m''⟩ :: (a ++ rest))
    (ha : a.map (·.kind) = f.2.kinds) (hhandles : s.handles = standardHandles) (hfuel : f.2.kinds.length + 5 ≤ fuel) :
    ∃ e, IsField f e ∧ blockEntries (fuel + 1) start s =
      (blockEntries fuel start >>= fun es => pure (e :: es)) (s.behind rest) := by
  obtain ⟨fuel, rfl⟩ : ∃ n, fuel = n + 2 := ⟨fuel - 2, by omega⟩
  obtain ⟨kind, ks, hc, hstarts⟩ := content_starts f.2
  obtain ⟨m₃, a', rfl, _⟩ := exists_token (ha.trans hc)
  obtain ⟨v, hv, hcontent⟩ := node_content (s := s.behind (⟨kind, m₃⟩ :: (a' ++ rest))) rfl ha hhandles
    (by omega : f.2.kinds.length + 2 ≤ fuel)
  obtain ⟨fuel, rfl⟩ : ∃ n, fuel = n + 1 := ⟨fuel - 1, by omega⟩
  -- the key, and the value behind its sign
  have hkey : blockPart (fuel + 3) m
        (s.behind (⟨.scalar f.1 .plain, m'⟩ :: ⟨.value, m''⟩ :: ⟨kind, m₃⟩ :: (a' ++ rest))) =
      .ok (.scalar (m'.line + 1) [] (Utf8.encodeAll f.1) .plain,
        s.behind (⟨.value, m''⟩ :: ⟨kind, m₃⟩ :: (a' ++ rest))) := by
    rw [blockPart_eq rfl (by simp [StartsNode]), node_scalar _ true true rfl]
    rfl
  have hvalue : blockValue (fuel + 3) (s.behind (⟨.value, m''⟩ :: ⟨kind, m₃⟩ :: (a' ++ rest))) =
      .ok (v, s.behind rest) := by
    rw [blockValue, peek_bind rfl]
    dsimp only
    rw [skip_bind rfl, NodeReader.behind_behind, blockPart_eq rfl hstarts, hv]
    rfl
  refine ⟨(_, v), ⟨⟨m'.line + 1, rfl⟩, hcontent⟩, ?_⟩
  rw [blockEntries, peek_bind h]
  dsimp only
  rw [skip_bind h, List.cons_append, bind_of hkey, bind_of hvalue]

/-- **The entries of a collection are its fields.** -/
theorem blockEntries_eq {fields : List Field} {ts : List Token} {fuel : Nat} {start : Mark} (h : s.rest = ts ++ rest)
    (hkinds : ts.map (·.kind) = fields.flatMap fieldKinds ++ [.blockEnd]) (hhandles : s.handles = standardHandles)
    (hfuel : ts.length + 5 ≤ fuel) :
    ∃ es, blockEntries fuel start s = .ok (es, s.behind rest) ∧ List.Forall₂ IsField fields es := by
  induction fields generalizing s ts fuel with
  | nil =>
    obtain ⟨fuel, rfl⟩ : ∃ n, fuel = n + 1 := ⟨fuel - 1, by omega⟩
    obtain ⟨m, ts, rfl, hnil⟩ := exists_token hkinds
    rw [List.map_eq_nil_iff.mp hnil] at h
    refine ⟨[], ?_, .nil⟩
    rw [blockEntries, peek_bind h]
    dsimp only
    rw [skip_bind h]
    rfl
  | cons f fields ih =>
    obtain ⟨fuel, rfl⟩ : ∃ n, fuel = n + 1 := ⟨fuel - 1, by omega⟩
    -- key, name, sign and content of the first field, and the others behind them
    rw [List.flatMap_cons, fieldKinds, List.append_assoc] at hkinds
    obtain ⟨m, ts₁, rfl, hkinds₁⟩ := exists_token hkinds
    obtain ⟨m', ts₂, rfl, hkinds₂⟩ := exists_token hkinds₁
    obtain ⟨m'', ts₃, rfl, hkinds₃⟩ := exists_token hkinds₂
    obtain ⟨a, b, rfl, ha, hb⟩ := exists_tokens hkinds₃
    have hs : s.rest = ⟨.key, m⟩ :: ⟨.scalar f.1 .plain, m'⟩ :: ⟨.value, m''⟩ :: (a ++ (b ++ rest)) := by
      rw [h]
      simp
    have hlen : a.length = f.2.kinds.length := by rw [← ha, List.length_map]
    simp only [List.length_cons, List.length_append] at hfuel
    obtain ⟨e, he, hfield⟩ := blockEntries_field start hs ha hhandles (by omega : f.2.kinds.length + 5 ≤ fuel)
    obtain ⟨es, hes, hfields⟩ := ih (s := s.behind (b ++ rest)) rfl hb hhandles (by omega : b.length + 5 ≤ fuel)
    refine ⟨e :: es, ?_, .cons he hfields⟩
    rw [hfield, bind_of hes]
    rfl

/-! ## 5. Documents

A sheet has no directives, so that only the handles known to every document are there when its root is read. -/

theorem node_map {es : List (Node × Node)} {m : Mark} {s' : NodeReader} (fuel : Nat) (indentless : Bool)
    (h : s.rest = ⟨.blockMappingStart, m⟩ :: rest) (hentries : blockEntries fuel m (s.behind rest) = .ok (es, s')) :
    node (fuel + 1) true indentless s = .ok (.mapping (m.line + 1) [] es, s') := by
  rw [node, peek_bind h]
  dsimp only
  rw [bind_of (properties_none h (by simp))]
  dsimp only
  rw [peek_bind h]
  dsimp only
  rw [bind_of (rfl : register none s = .ok (none, s)), skip_bind h, bind_of hentries]
  rfl

/-- The handles that are always known. -/
theorem directives_eq {m : Mark} (fuel : Nat) (h : s.rest = ⟨.blockMappingStart, m⟩ :: rest)
    (hhandles : s.handles = []) :
    directives (fuel + 1) false s = .ok ((), { s with handles := standardHandles }) := by
  rw [directives, peek_bind h]
  cases s
  cases hhandles
  rfl

/-- **The first document of a sheet is the map of its fields.** -/
theorem document_eq {fields : List Field} {ts : List Token} {fuel : Nat}
    (hkinds : ts.map (·.kind) = .blockMappingStart :: (fields.flatMap fieldKinds ++ [.blockEnd, .streamEnd]))
    (hfuel : ts.length + 6 ≤ fuel) :
    ∃ line es s', document fuel { rest := ts, fault := none } = .ok (some (.mapping line [] es), s') ∧
      List.Forall₂ IsField fields es := by
  obtain ⟨fuel, rfl⟩ : ∃ n, fuel = n + 1 := ⟨fuel - 1, by omega⟩
  obtain ⟨m, ts₁, rfl, hkinds₁⟩ := exists_token hkinds
  rw [List.append_cons] at hkinds₁
  obtain ⟨a, b, rfl, ha, hb⟩ := exists_tokens hkinds₁
  obtain ⟨m', b', rfl, _⟩ := exists_token hb
  simp only [List.length_cons, List.length_append] at hfuel
  -- the reader once the handles are known
  let s : NodeReader := ⟨⟨.blockMappingStart, m⟩ :: (a ++ ⟨.streamEnd, m'⟩ :: b'), none, standardHandles, [], 0, []⟩
  obtain ⟨es, hes, hfields⟩ := blockEntries_eq (s := s.behind (a ++ ⟨.streamEnd, m'⟩ :: b')) rfl ha rfl
    (by omega : a.length + 5 ≤ fuel)
  have hnode : node (fuel + 1) true false s =
      .ok (.mapping (m.line + 1) [] es, s.behind (⟨.streamEnd, m'⟩ :: b')) := node_map fuel false rfl hes
  refine ⟨m.line + 1, es, s.behind (⟨.streamEnd, m'⟩ :: b'), ?_, hfields⟩
  rw [document, peek_bind rfl]
  dsimp only
  rw [bind_of (directives_eq fuel rfl rfl), bind_of hnode, peek_bind rfl]
  rfl

end Reading

namespace Decoding

open Yaml.Reading

variable {α β : Type}

/-! ## 6. Values

Nodes are decoded one after the other, and each of them is counted.  The count matters only for aliases, of which
a sheet has none; and a mismatch of types is noted rather than raised, so `Steady` asks that none has been noted. -/

/-- No alias has been met, and everything fits. -/
def Steady (p : Progress) : Prop := p.aliased = 0 ∧ p.mismatches = []

/-- The step gives this result and meets no alias. -/
def Gives (m : Decoding α) (a : α) : Prop := ∀ p, Steady p → ∃ p', m p = .ok (a, p') ∧ Steady p'

theorem gives_pure (a : α) : Gives (pure a) a := fun p hp => ⟨p, rfl, hp⟩

theorem Gives.bind {m : Decoding α} {a : α} {f : α → Decoding β} {b : β} (hm : Gives m a) (hf : Gives (f a) b) :
    Gives (m >>= f) b := by
  intro p hp
  obtain ⟨p₁, heq, hp₁⟩ := hm p hp
  obtain ⟨p₂, heq₂, hp₂⟩ := hf p₁ hp₁
  refine ⟨p₂, ?_, hp₂⟩
  show (m p).bind (fun e => f e.1 e.2) = _
  rw [heq]
  exact heq₂

/-- Counting is harmless while no alias has been met. -/
theorem gives_count : Gives (count false) () := by
  intro p hp
  have hfew : excessive { p with decoded := p.decoded + 1 } = false := by
    simp [excessive, hp.1]
  refine ⟨{ p with decoded := p.decoded + 1 }, ?_, hp⟩
  show (if excessive { p with decoded := p.decoded + 1 } then _ else _ : Decoding Unit) _ = _
  rw [hfew]
  rfl

theorem gives_lift {m : Except Refusal α} {a : α} (h : m = .ok a) : Gives (liftM m) a := by
  intro p hp
  refine ⟨p, ?_, hp⟩
  rw [h]
  rfl

variable {anchored : List (Nat × Node)}

/-- An item is the text that it says. -/
theorem gives_item {i : Item} {n : Node} {t : Bytes} (fuel : Nat) (h : IsItem i n) (hmean : i.Says t) :
    Gives (value anchored (fuel + 1) [] n) (some (.text t)) := by
  obtain ⟨line, rfl⟩ := h
  rw [value]
  refine gives_count.bind ?_
  exact (gives_lift hmean).bind (gives_pure _)

theorem gives_items {items : List Item} {ns : List Node} {ts : List Bytes} {fuel : Nat}
    (h : List.Forall₂ IsItem items ns) (hmean : List.Forall₂ Item.Says items ts) (hfuel : ns.length < fuel) :
    Gives (values anchored fuel [] ns) (ts.map .text) := by
  induction h generalizing ts fuel with
  | nil =>
    cases hmean
    cases fuel <;> exact gives_pure []
  | @cons i n items ns hn hns ih =>
    cases hmean with
    | @cons _ t _ ts ht hts =>
      obtain ⟨fuel, rfl⟩ : ∃ f, fuel = f + 2 := ⟨fuel - 2, by simp only [List.length_cons] at hfuel; omega⟩
      rw [values]
      refine (gives_item fuel hn ht).bind ?_
      refine (ih hts (by simp only [List.length_cons] at hfuel; omega)).bind ?_
      exact gives_pure _

/-- The value of what stands behind a key. -/
inductive Means : Content → Value → Prop
  | one {i : Item} {t : Bytes} (h : i.Says t) : Means (.one i) (.text t)
  | many {items : List Item} {ts : List Bytes} (h : List.Forall₂ Item.Says items ts) :
      Means (.many items) (.list (ts.map .text))

/-- An item is a single node. -/
theorem sizes_items {items : List Item} {ns : List Node} (h : List.Forall₂ IsItem items ns) :
    Node.sizes ns = ns.length := by
  induction h with
  | nil => rfl
  | @cons i n items ns hn _ ih =>
    obtain ⟨line, rfl⟩ := hn
    rw [Node.sizes, Node.size, ih, List.length_cons, Nat.add_comm]

/-- What stands behind a key has its value. -/
theorem gives_content {c : Content} {n : Node} {v : Value} {fuel : Nat} (h : IsContent c n) (hmeans : Means c v)
    (hfuel : n.size < fuel) : Gives (value anchored fuel [] n) (some v) := by
  obtain ⟨fuel, rfl⟩ : ∃ f, fuel = f + 1 := ⟨fuel - 1, by omega⟩
  cases hmeans with
  | one hmean => exact gives_item fuel h hmean
  -- the list has one node more than it has items
  | many hmean =>
    obtain ⟨line, ns, rfl, hitems⟩ := h
    rw [Node.size, sizes_items hitems] at hfuel
    rw [value]
    refine gives_count.bind ?_
    exact (gives_items hitems hmean (by omega)).bind (gives_pure _)

/-- The name and the value of a field. -/
structure Stands (f : Field) (e : Bytes × Value) : Prop where
  name : e.1 = Utf8.encodeAll f.1
  text : scalarValue [] e.1 .plain = .ok (.text e.1)
  noMerge : e.1 ≠ "<<"
  value : Means f.2 e.2

/-- An entry under a key that is not there yet. -/
theorem assign_new {name : Bytes} {v : Value} {entries : List (Bytes × Value)} (h : name ∉ entries.map (·.1)) :
    assign (.text name) v (entries.map fun e => (.text e.1, e.2)) =
      (entries ++ [(name, v)]).map fun e => (.text e.1, e.2) := by
  induction entries with
  | nil => rfl
  | cons e entries ih =>
    rw [List.map_cons, List.mem_cons, not_or] at h
    rw [List.map_cons, assign, if_neg (by simpa [Value.sameKey] using h.1), ih h.2]
    rfl

/-- **The fields are assigned one after the other.** -/
theorem gives_assignAll {fields : List Field} {es : List (Node × Node)} {entries done : List (Bytes × Value)}
    {fuel : Nat} (h : List.Forall₂ IsField fields es) (hstands : List.Forall₂ Stands fields entries)
    (hnodup : ((done ++ entries).map (·.1)).Nodup) (hfuel : Node.entrySizes es < fuel) :
    Gives (assignAll anchored fuel [] true { entries := done.map fun e => (.text e.1, e.2) } es)
      { entries := (done ++ entries).map fun e => (.text e.1, e.2) } := by
  induction h generalizing entries done fuel with
  | nil =>
    cases hstands
    rw [List.append_nil]
    cases fuel <;> exact gives_pure _
  | @cons f e fields es he _ ih =>
    cases hstands with
    | @cons _ entry _ entries hentry hentries =>
      obtain ⟨key, v⟩ := e
      obtain ⟨⟨line, hkey⟩, hcontent⟩ := he
      obtain ⟨name, val⟩ := entry
      have hname : key = .scalar line [] name .plain := by
        rw [show name = _ from hentry.name]
        exact hkey
      -- no earlier entry has this name, so nothing is overwritten and the entry is added behind the others
      have hnew : name ∉ done.map (·.1) := by
        rw [List.map_append, List.nodup_append] at hnodup
        exact fun hmem => hnodup.2.2 name hmem name List.mem_cons_self rfl
      rw [hname, Node.entrySizes, Node.size] at hfuel
      obtain ⟨fuel, rfl⟩ : ∃ n, fuel = n + 2 := ⟨fuel - 2, by omega⟩
      have hmerge : isMerge key = false := by
        rw [hname, isMerge]
        have hne : (name == ("<<" : Bytes)) = false := beq_eq_false_iff_ne.mpr hentry.noMerge
        rw [hne, Bool.false_and]
      have htext : Gives (textKey anchored (fuel + 1) [] key) (some (.text name)) := by
        rw [hname, textKey]
        refine gives_count.bind ?_
        exact (gives_lift hentry.text).bind (gives_pure _)
      -- the key, the value, and the entry
      rw [assignAll, hmerge]
      refine htext.bind ?_
      refine (gives_content hcontent hentry.value (by omega : v.size < fuel + 1)).bind ?_
      dsimp only
      rw [assign_new hnew]
      have hrest := ih hentries (by rwa [List.append_assoc] : ((done ++ [(name, val)] ++ entries).map (·.1)).Nodup)
        (by omega : Node.entrySizes es < fuel + 1)
      rwa [List.append_assoc] at hrest

/-- The key of an entry is written plain. -/
def Keyed (e : Node × Node) (entry : Bytes × Value) : Prop :=
  (∃ line, e.1 = .scalar line [] entry.1 .plain) ∧ entry.1 ≠ "<<"

/-- Of the fields, only their names matter for what is asked of the keys as a whole. -/
theorem keyed_of_stands {fields : List Field} {es : List (Node × Node)} {entries : List (Bytes × Value)}
    (h : List.Forall₂ IsField fields es) (hstands : List.Forall₂ Stands fields entries) :
    List.Forall₂ Keyed es entries := by
  induction h generalizing entries with
  | nil =>
    cases hstands
    exact .nil
  | @cons f e fields es he _ ih =>
    cases hstands with
    | cons hentry hentries =>
      obtain ⟨⟨line, hkey⟩, _⟩ := he
      exact .cons ⟨⟨line, by rw [hkey, hentry.name]⟩, hentry.noMerge⟩ (ih hentries)

theorem exists_keyed {es : List (Node × Node)} {entries : List (Bytes × Value)} (h : List.Forall₂ Keyed es entries)
    {e : Node × Node} (he : e ∈ es) : ∃ entry ∈ entries, Keyed e entry := by
  induction h with
  | nil => simp at he
  | @cons e' entry es entries hentry _ ih =>
    rcases List.mem_cons.mp he with rfl | he
    · exact ⟨entry, List.mem_cons_self, hentry⟩
    · obtain ⟨entry', hmem, hkeyed⟩ := ih he
      exact ⟨entry', List.mem_cons_of_mem _ hmem, hkeyed⟩

/-- Keys are compared by their texts, so different names are never reported as repeated. -/
theorem repeatedKeys_eq {es : List (Node × Node)} {entries : List (Bytes × Value)}
    (h : List.Forall₂ Keyed es entries) (hnodup : (entries.map (·.1)).Nodup) : repeatedKeys es = [] := by
  induction h with
  | nil => rfl
  | @cons e entry es entries hentry hentries ih =>
    rw [List.map_cons, List.nodup_cons] at hnodup
    have hnone : es.filter (fun e' => sameText e.1 e'.1) = [] := by
      rw [List.filter_eq_nil_iff]
      intro e' he'
      obtain ⟨entry', hmem, ⟨line', hkey'⟩, _⟩ := exists_keyed hentries he'
      obtain ⟨⟨line, hkey⟩, _⟩ := hentry
      rw [hkey, hkey', sameText, beq_iff_eq]
      intro heq
      exact hnodup.1 (heq ▸ List.mem_map_of_mem hmem)
    obtain ⟨key, v⟩ := e
    rw [repeatedKeys, hnone, ih hnodup.2]
    rfl

/-- **The map of a sheet.**  Its keys are looked at before the entries are assigned, for repetitions, and once
more behind them, for the sign of merging. -/
theorem gives_mapping {fields : List Field} {es : List (Node × Node)} {entries : List (Bytes × Value)} {fuel : Nat}
    (h : List.Forall₂ IsField fields es) (hstands : List.Forall₂ Stands fields entries)
    (hnodup : (entries.map (·.1)).Nodup) (hfuel : Node.entrySizes es + 1 < fuel) :
    Gives (mapping anchored fuel [] true {} es) (some { entries := entries.map fun e => (.text e.1, e.2) }) := by
  obtain ⟨fuel, rfl⟩ : ∃ n, fuel = n + 1 := ⟨fuel - 1, by omega⟩
  have hkeyed := keyed_of_stands h hstands
  -- no key is the one for merging, so nothing is merged in once the entries are there
  have hmerge : es.filter (fun e => isMerge e.1) = [] := by
    rw [List.filter_eq_nil_iff]
    intro e he
    obtain ⟨entry, _, ⟨line, hkey⟩, hne⟩ := exists_keyed hkeyed he
    simp [hkey, isMerge, hne]
  have hnodup' : (([] ++ entries : List (Bytes × Value)).map (·.1)).Nodup := hnodup
  have hassign : Gives (assignAll anchored fuel [] true {} es) { entries := entries.map fun e => (.text e.1, e.2) } :=
    gives_assignAll h hstands hnodup' (by omega : Node.entrySizes es < fuel)
  rw [mapping, repeatedKeys_eq hkeyed hnodup]
  refine hassign.bind ?_
  rw [show es.filter _ = [] from hmerge]
  exact gives_pure _

/-- The root of a document, with its keys as texts again. -/
theorem gives_rootMap {d : Document} {fields : List Field} {es : List (Node × Node)} {entries : List (Bytes × Value)}
    {fuel line : Nat} (hd : d.root = .mapping line [] es) (h : List.Forall₂ IsField fields es)
    (hstands : List.Forall₂ Stands fields entries)
    (hnodup : (entries.map (·.1)).Nodup) (hfuel : Node.entrySizes es + 1 < fuel) :
    Gives (rootMap fuel d) entries := by
  have hback : (entries.map fun e => (Value.text e.1, e.2)).map (fun e => (e.1.keyText, e.2)) = entries := by
    rw [List.map_map]
    exact List.map_id entries
  rw [rootMap, hd]
  refine gives_count.bind (gives_count.bind ((gives_mapping h hstands hnodup hfuel).bind ?_))
  show Gives (pure ((entries.map fun e => (Value.text e.1, e.2)).map fun e => (e.1.keyText, e.2))) entries
  rw [hback]
  exact gives_pure _

end Decoding

/-! ## 7. Sheets

The tokens, the document and the values are put together, with the bounds that each of the two readers is given. -/

/-- **A sheet of fields is read back.** -/
theorem readMap_sheet {f : Field} {fields : List Field} {out : List Char} {outs : List (List Char)}
    {entries : List (Bytes × Value)} (h : List.Forall₂ Field.Written (f :: fields) (out :: outs))
    (hallowed : Allowed (out :: outs).flatten) (hstands : List.Forall₂ Decoding.Stands (f :: fields) entries)
    (hnodup : (entries.map (·.1)).Nodup) : readMap (Utf8.encodeAll (out :: outs).flatten) = .ok entries := by
  obtain ⟨ts, htokens, hkinds⟩ := tokens_sheet h
  obtain ⟨line, es, s', hdocument, hfields⟩ :=
    Reading.document_eq hkinds (by omega : ts.length + 6 ≤ 3 * ts.length + 8)
  -- a name is in ASCII, so the sheet does not start with the mark of another encoding
  have hinput : Input.ofBytes (Utf8.encodeAll (out :: outs).flatten) = ⟨(out :: outs).flatten, none⟩ := by
    obtain ⟨hf, _⟩ := List.forall₂_cons.mp h
    cases hf with
    | mk hname _ =>
      obtain ⟨x, t, rfl, _, _, hascii⟩ := hname.head
      exact Input.ofBytes_encodeAll _ _ hascii hallowed
  have hdoc : Document.ofBytes (Utf8.encodeAll (out :: outs).flatten) =
      .ok (some ⟨.mapping line [] es, s'.anchored⟩) := by
    rw [Document.ofBytes, hinput, htokens]
    simp only [bind, Except.bind, StateT.run]
    rw [hdocument]
    rfl
  -- the bound is quadratic in the number of nodes, which leaves more than enough
  have hfuel : Node.entrySizes es + 1 <
      4 * (Node.size (.mapping line [] es) + 8) * (Node.size (.mapping line [] es) + 8) := by
    rw [Node.size]
    nlinarith
  obtain ⟨p, hroot, _, hfits⟩ := Decoding.gives_rootMap (d := ⟨.mapping line [] es, s'.anchored⟩) rfl hfields hstands
    hnodup hfuel {} ⟨rfl, rfl⟩
  rw [readMap, hdoc]
  simp only [bind, Except.bind, StateT.run]
  rw [hroot]
  simp only [hfits]
  rfl

end AgentKit.Yaml
