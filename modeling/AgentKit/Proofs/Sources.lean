import AgentKit.Proofs.Characters
import AgentKit.Proofs.Walking
/-!
# Trees while the disk changes

A tree is read while something else is written.  Here it is said which trees can be read safely, and what
a tree that fails now and then has to do with the tree it would be otherwise.

1. Listings are tidy (`Tree.list_tidy`): names, in ascending order.
2. `Tree.FailsMore` relates a tree to one that gives the same answers but fails in fewer calls.
3. `Tree.Apart` says that a tree has nothing to do with a part of the disk.  **To a walk it looks the same
   whatever happens there** (`Tree.seesAlike`), and so do the files in it (`Tree.openFile_eq`).

A tree is a directory on the disk, or a set of files in memory, or one of these with faults added.  Only the first
kind looks at the disk, so only for it is there something to show; but every lemma has a case for each kind, since
walks and copies are the same for all of them.

For a directory on the disk it is not enough that it and the part `P` that changes are not inside each other.  A link in
the directory may lead into `P`, and reading the file behind it then sees what has been written there.  Links to
directories are not entered by a walk, so the ways to what is read are over directories, with at most one link
at the end.  That is why `Apart` asks for the trails of links in the directory and for nothing else.
-/

namespace AgentKit

open Disk

/-! ## 1. Listings

A walk needs of a listing that its items are named and come in order.  On disk the names are those of entries of
a sound disk; in memory they are cut out of longer names, and it has to be shown that what is cut out is a name. -/

/-- The first part of a text is what is before the first separator. -/
theorem Bytes.head?_splitOn (sep : UInt8) : ∀ t : Bytes,
    (splitOn sep t).head? = some (t.takeWhile (· ≠ sep))
  | [] => rfl
  | b :: t => by
    have ih := head?_splitOn sep t
    rw [splitOn]
    by_cases hb : b = sep
    · simp [hb]
    · rw [if_neg hb, List.takeWhile_cons_of_pos (by simpa using hb)]
      cases h : splitOn sep t with
      | nil => exact absurd h (splitOn_ne_nil sep t)
      | cons p ps =>
        rw [h, List.head?_cons, Option.some.injEq] at ih
        rw [List.head?_cons, ih]

theorem Path.isName_of_isTreeName {t n : Bytes} (ht : isTreeName t = true) (hdot : t ≠ ".")
    (hn : n ∈ Bytes.splitOn (byte '/') t) : IsName n := by
  rcases (isTreeName_iff.mp ht).2 with h | ⟨ns, hne, hns, rfl⟩
  · exact absurd h hdot
  · rw [splitOn_join hne fun m hm => (hns m hm).no_slash] at hn
    exact hns n hn

/-- **The next name on the way to something is a name.** -/
theorem Path.childToward?_isName {dir path n : Bytes} (hpath : isTreeName path = true)
    (h : childToward? dir path = some n) : IsName n := by
  unfold childToward? at h
  dsimp only at h
  split at h
  · rename_i rest hrest
    split at h
    · cases h
    · rename_i hdot
      cases h
      refine isName_of_isTreeName hpath hdot ?_
      -- It is the first part of the rest, and the parts of the rest are parts of the whole.
      have hmem : rest.takeWhile (· ≠ byte '/') ∈ Bytes.splitOn (byte '/') rest :=
        List.mem_of_mem_head? (Bytes.head?_splitOn _ rest)
      split at hrest
      · cases hrest
        exact hmem
      · split at hrest
        · rename_i hpre
          cases hrest
          obtain ⟨rest, rfl⟩ := List.isPrefixOf_iff_prefix.mp hpre
          have hdrop : (dir ++ Bytes.ofString "/" ++ rest).drop (dir.length + 1) = rest :=
            List.drop_left' (by simp [slash_eq])
          rw [hdrop] at hmem ⊢
          rw [List.append_assoc, slash_eq, List.singleton_append, Bytes.splitOn_append_cons]
          exact List.mem_append_right _ hmem
        · cases hrest
  · cases h

/-- All names in memory may name something in a tree.  On disk this is a matter of the disk. -/
def Tree.Proper : Tree → Prop
  | .onDisk _ => True
  | .inMemory m => ∀ e ∈ m.entries, Path.isTreeName e.1 = true
  | .faulty _ t => t.Proper

/-- A call succeeds if no fault is planned for it and it would succeed anyway. -/
theorem Fault.orElse_eq_ok {α : Type} {faults : List Fault} {operation name : Bytes} {call : TreeCall}
    {answer : Except Failure α} {a : α} :
    orElse faults operation name call answer = .ok a ↔
      cause? faults name call = none ∧ answer = .ok a := by
  unfold orElse
  cases cause? faults name call <;> simp

theorem tidy_filterMap {ns : List Bytes} {kind? : Bytes → Option Kind}
    (hnames : ∀ n ∈ ns, Path.IsName n) (hasc : ns.Pairwise (· < ·)) :
    Walk.Tidy (ns.filterMap fun n => (kind? n).map fun k => ⟨n, k⟩) := by
  constructor
  · intro l hl
    obtain ⟨n, hn, h⟩ := List.mem_filterMap.mp hl
    obtain ⟨k, -, rfl⟩ := Option.map_eq_some_iff.mp h
    exact hnames n hn
  · refine hasc.filterMap _ fun m n hlt a ha b hb => ?_
    obtain ⟨k, -, rfl⟩ := Option.map_eq_some_iff.mp ha
    obtain ⟨k', -, rfl⟩ := Option.map_eq_some_iff.mp hb
    exact hlt

theorem Memory.list_ok {m : Memory} {dir : Bytes} {ls : List Listed} (h : m.list dir = .ok ls) :
    ls = m.items dir := by
  obtain ⟨e, -, h⟩ := except_bind_ok.mp h
  obtain ⟨-, h⟩ := Fault.orElse_eq_ok.mp h
  cases e with
  | dir mode => exact (Except.ok.inj h).symm
  | file mode content => cases h
  | link target => cases h

/-- What is in a directory in memory is what lies on the way to some entry. -/
theorem Memory.mem_children {m : Memory} {dir n : Bytes} :
    n ∈ m.children dir ↔ ∃ e ∈ m.entries, Path.childToward? dir e.1 = some n := by
  rw [children, Bytes.mem_sort, List.mem_eraseDups, List.mem_filterMap]

/-- A name on the way to another one may be in a tree if that one may. -/
theorem Path.isTreeName_of_append {a b : Bytes} (h : isTreeName (a ++ byte '/' :: b) = true) :
    isTreeName a = true := by
  have hparts : ∀ n ∈ Bytes.splitOn (byte '/') a, IsName n := fun n hn =>
    isName_of_isTreeName h (append_slash_ne_dot a b)
      (Bytes.splitOn_append_cons (byte '/') b a ▸ List.mem_append_left _ hn)
  exact isTreeName_iff.mpr ⟨((Utf8.isValid_append_ascii (by decide) a b).mp (isTreeName_iff.mp h).1).1,
    Or.inr ⟨_, Bytes.splitOn_ne_nil _ a, hparts, (join_splitOn a).symm⟩⟩

/-- Seen from the root of a walk, a name that a tree may have stays one. -/
theorem Path.isTreeName_join {root : Bytes} {q : List Bytes} (hne : q ≠ []) (hq : ∀ n ∈ q, IsName n)
    (h : isTreeName (nameAt root q) = true) : isTreeName (join q) = true := by
  refine isTreeName_iff.mpr ⟨?_, Or.inr ⟨q, hne, hq, rfl⟩⟩
  have hvalid := (isTreeName_iff.mp h).1
  by_cases hroot : root = "."
  · rwa [hroot, nameAt_dot hne hq] at hvalid
  · rw [nameAt_of_ne hroot hne, Utf8.isValid_append_ascii (by decide)] at hvalid
    exact hvalid.2

/-- What can be opened has a name that a tree may have: it is an entry, or on the way to one, or the top. -/
theorem Memory.isTreeName_of_opened {m : Memory} (hm : ∀ e ∈ m.entries, Path.isTreeName e.1 = true)
    {name : Bytes} {e : Entry} (h : m.opened name = .ok e) : Path.isTreeName name = true := by
  obtain ⟨-, h⟩ := Fault.orElse_eq_ok.mp h
  unfold get? at h
  cases hlookup : m.entries.lookup name with
  | some f => exact hm _ (mem_of_lookup hlookup)
  | none =>
    rw [hlookup] at h
    dsimp only at h
    split at h
    · rename_i f hf
      split at hf
      · rename_i hway
        rcases Bool.or_eq_true_iff.mp hway with hdot | hany
        · rw [of_decide_eq_true hdot]
          decide
        · obtain ⟨⟨n, f⟩, hmem, hpre⟩ := List.any_eq_true.mp hany
          obtain ⟨rest, rfl⟩ := List.isPrefixOf_iff_prefix.mp hpre
          have hn := hm _ hmem
          rw [slash_eq, List.append_assoc, List.singleton_append] at hn
          exact Path.isTreeName_of_append hn
      · cases hf
    · cases h

theorem Memory.list_tidy {m : Memory} (hm : ∀ e ∈ m.entries, Path.isTreeName e.1 = true)
    {dir : Bytes} {ls : List Listed} (h : m.list dir = .ok ls) : Walk.Tidy ls := by
  have hitems : m.items dir = (m.children dir).filterMap fun n =>
      ((m.get? (Path.child dir n)).map Entry.kind).map fun k => ⟨n, k⟩ := by
    simp only [items, Option.map_map]
    rfl
  rw [list_ok h, hitems]
  refine tidy_filterMap (fun n hn => ?_) (Bytes.sort_pairwise_lt (nodup_eraseDups _))
  obtain ⟨e, he, hn⟩ := mem_children.mp hn
  exact Path.childToward?_isName (hm e he) hn

theorem le_foldl_max : ∀ {l : List Nat} {b : Nat}, b ≤ l.foldl max b ∧ ∀ a ∈ l, a ≤ l.foldl max b
  | [], b => ⟨Nat.le_refl b, by simp⟩
  | c :: l, b => by
    obtain ⟨hb, hl⟩ := le_foldl_max (l := l) (b := max b c)
    refine ⟨Nat.le_trans (Nat.le_max_left b c) hb, fun a ha => ?_⟩
    rcases List.mem_cons.mp ha with rfl | ha
    · exact Nat.le_trans (Nat.le_max_right b a) hb
    · exact hl a ha

theorem Memory.length_lt_depth {m : Memory} {e : Bytes × Entry} (he : e ∈ m.entries) :
    (Bytes.splitOn (byte '/') e.1).length < m.depth :=
  Nat.lt_succ_of_le (le_foldl_max.2 _ (List.mem_map.mpr ⟨e, he, rfl⟩))

theorem Memory.exists_of_mem_items {m : Memory} {dir : Bytes} {ls : List Listed} {l : Listed}
    (h : m.list dir = .ok ls) (hl : l ∈ ls) :
    ∃ e ∈ m.entries, Path.childToward? dir e.1 = some l.name := by
  rw [list_ok h] at hl
  obtain ⟨n, hn, hl⟩ := List.mem_filterMap.mp hl
  obtain ⟨f, -, rfl⟩ := Option.map_eq_some_iff.mp hl
  exact mem_children.mp hn

theorem listing_eq_filterMap (d : Disk) (p : Place) :
    ((d.listing p).map fun (n, k) => (⟨n, k⟩ : Listed)) =
      (d.children p).filterMap fun n =>
        ((d.get? (p ++ [n])).map Entry.kind).map fun k => ⟨n, k⟩ := by
  simp only [listing, List.map_filterMap, Option.map_map]
  rfl

/-- **Listings are tidy.** -/
theorem Tree.list_tidy {d : Disk} (hd : d.Sound) : ∀ {t : Tree}, t.Proper → ∀ {dir : Bytes}
    {ls : List Listed}, t.list d dir = .ok ls → Walk.Tidy ls
  | .onDisk root, _, dir, ls, h => by
    obtain ⟨⟨p, e⟩, -, h⟩ := except_bind_ok.mp h
    cases h
    rw [listing_eq_filterMap]
    refine tidy_filterMap (fun n hn => ?_) (children_ascending d p)
    obtain ⟨e, he⟩ := mem_children.mp hn
    exact hd.names _ e he n (by simp)
  | .inMemory m, hm, dir, ls, h => Memory.list_tidy hm h
  | .faulty faults t, ht, dir, ls, h =>
    Tree.list_tidy hd (t := t) ht (Fault.orElse_eq_ok.mp (Fault.orElse_eq_ok.mp h).2).2

/-! ## 2. Trees that fail more

Faults are used to ask what happens when a source fails half way.  The tree with faults is compared with the one
without them: at each call the answer is the same, or there is a failure. -/

/-- What comes out of an open file, or less of it with a failure behind. -/
structure Reading.FailsMore (r r' : Reading) : Prop where
  place : r.place = r'.place
  info : r.info = r'.info ∨ ∃ f, r.info = .error f
  content : (r.content = r'.content ∧ r.failure = r'.failure) ∨
    (r.content <+: r'.content ∧ r.failure ≠ none)

/-- The tree `t` answers as `t'` does, except that some of its calls may fail. -/
structure Tree.FailsMore (t t' : Tree) : Prop where
  depth : t.depth = t'.depth
  stat : ∀ d name, t.stat d name = t'.stat d name ∨ ∃ f, t.stat d name = .error f
  list : ∀ d name, t.list d name = t'.list d name ∨ ∃ f, t.list d name = .error f
  openFile : ∀ d name, (∃ f, t.openFile d name = .error f) ∨
    ∃ r r', t.openFile d name = .ok r ∧ t'.openFile d name = .ok r' ∧ r.FailsMore r'

/-- Every tree fails as often as itself, so that what is shown about faulty trees holds for the others too. -/
theorem Tree.FailsMore.refl (t : Tree) : t.FailsMore t := by
  refine ⟨rfl, fun _ _ => Or.inl rfl, fun _ _ => Or.inl rfl, fun d name => ?_⟩
  cases h : t.openFile d name with
  | error f => exact Or.inl ⟨f, rfl⟩
  | ok r => exact Or.inr ⟨r, r, rfl, rfl, rfl, Or.inl rfl, Or.inl ⟨rfl, rfl⟩⟩

theorem Fault.orElse_cases {α : Type} (faults : List Fault) (operation name : Bytes)
    (call : TreeCall) (answer : Except Failure α) :
    orElse faults operation name call answer = answer ∨
      ∃ f, orElse faults operation name call answer = .error f := by
  unfold orElse
  cases cause? faults name call with
  | none => exact Or.inl rfl
  | some cause => exact Or.inr ⟨_, rfl⟩

/-- Faults only add failures. -/
theorem Tree.faulty_failsMore (faults : List Fault) (t : Tree) : (faulty faults t).FailsMore t := by
  refine ⟨rfl, fun d name => Fault.orElse_cases .., fun d name => ?_, fun d name => ?_⟩
  · rw [list]
    -- Listing is opening and then reading, and each may have its fault.
    rcases Fault.orElse_cases faults "open" name .opening
      (Fault.orElse faults "readdir" name .listing (t.list d name)) with h | h
    · rw [h]
      exact Fault.orElse_cases ..
    · exact Or.inr h
  · rw [openFile]
    cases hc : Fault.cause? faults name .opening with
    | some cause =>
      left
      rw [Fault.orElse, hc]
      exact ⟨_, rfl⟩
    | none =>
      rw [Fault.orElse, hc]
      cases ho : t.openFile d name with
      | error f => exact Or.inl ⟨f, rfl⟩
      | ok r =>
        refine Or.inr ⟨_, r, rfl, rfl, rfl, Fault.orElse_cases .., ?_⟩
        unfold Fault.cut
        cases Fault.reading? faults name with
        | none => exact Or.inl ⟨rfl, rfl⟩
        | some cut => exact Or.inr ⟨List.take_prefix _ _, by simp⟩

/-- To a walk it looks like the other tree, except that calls may fail. -/
theorem Tree.FailsMore.seesAlike {w : Walk.Scope} {t : Tree} {d d' : Disk} (h : t.FailsMore w.tree)
    (hsee : Walk.SeesAlike False w w.tree d d') : Walk.SeesAlike True w t d d' := by
  have hlossy : ∀ {α : Type} {a b c : Except Failure α}, (a = b ∨ ∃ f, a = .error f) →
      Walk.Answers False b c → Walk.Answers True a c := by
    intro α a b c ha hb
    rcases hb with rfl | ⟨hfalse, -⟩
    · exact ha.imp_right fun hf => ⟨trivial, hf⟩
    · exact hfalse.elim
  exact ⟨h.depth, fun hdir => hlossy (h.list d' _) (hsee.list hdir),
    fun hdir hls hl hk => hlossy (h.stat d' _) (hsee.stat hdir hls hl hk)⟩

/-! ## 3. Trees apart from a part of the disk

First for two places on the disk, then for trees.  The proof follows a name through the tree: from the path of
the tree to its root (`RootAt`), from there over directories (`Paved`), and at the end perhaps over a link. -/

namespace Disk

/-- The directories at `S` and `P` have nothing to do with each other: neither is inside the other, and
no link in `S` leads over `P`. -/
structure Apart (d : Disk) (S P : Place) : Prop where
  not_inside : ¬ P <+: S
  not_around : ¬ S <+: P
  links : ∀ q target, S <+: q → d.get? q = some (.link target) →
    ∀ r ∈ d.trailWithin maxLinks (linkStart q.dropLast target) (hops target), ¬ P <+: r

variable {d d' : Disk} {S P r : Place} {q : List Bytes}

/-- The places that an entry leads over, if it is a link.  With it `Apart` can be decided for a given disk by
looking at its entries. -/
def linkTrail (d : Disk) (q : Place) : Entry → List Place
  | .link target => d.trailWithin maxLinks (linkStart q.dropLast target) (hops target)
  | .file .. | .dir _ => []

/-- Whether two places are apart can be read off the entries. -/
theorem apart_of_entries (hin : ¬ P <+: S) (haround : ¬ S <+: P)
    (h : ∀ x ∈ d.entries, ∀ r ∈ d.linkTrail x.1 x.2, ¬ P <+: r) : d.Apart S P :=
  ⟨hin, haround, fun _ _ _ hl => h _ (link_mem_entries hl)⟩

theorem Apart.keeps (h : d.Apart S P) (hk : Keeps d d') : d'.Apart S P := by
  refine ⟨h.not_inside, h.not_around, fun q target hq hl => ?_⟩
  rw [trailWithin_congr hk.link]
  exact h.links q target hq ((hk.link q target).mp hl)

/-- What is in one of two directories that are not inside each other is not in the other. -/
theorem outside_of_prefix (hin : ¬ P <+: S) (haround : ¬ S <+: P) (hr : S <+: r) : ¬ P <+: r := by
  intro hP
  rcases List.prefix_or_prefix_of_prefix hP hr with h | h
  · exact hin h
  · exact haround h

theorem Apart.outside (h : d.Apart S P) (hr : S <+: r) : ¬ P <+: r :=
  outside_of_prefix h.not_inside h.not_around hr

/-- What is read over directories of `S`, links at the end included, is not in `P`. -/
theorem Apart.trail (h : d.Apart S P) (hpaved : d.Paved S q) {n : Bytes}
    (hq : ∀ m ∈ q ++ [n], Path.IsName m) {k : Nat} (hk : k ≤ maxLinks) :
    ∀ r ∈ d.trailWithin k S (q ++ [n]), ¬ P <+: r := by
  intro r hr
  have hn : Path.IsName n := hq n (by simp)
  have hSq : S <+: S ++ q := List.prefix_append S q
  obtain ⟨out, hout, hstep⟩ := d.trailWithin_eq k
  rw [hout] at hr
  rcases hpaved.trail (fun m hm => hq m (List.mem_append_left _ hm)) hr with hr | hr
  · exact h.outside hr
  by_cases hl : ∃ t, d.get? (S ++ q ++ [n]) = some (.link t)
  · obtain ⟨t, hl⟩ := hl
    rw [trailNames_link ⟨hn.ne_dot, hn.ne_up⟩ hl] at hr
    rcases List.mem_cons.mp hr with rfl | hr
    · exact h.outside hSq
    · -- Behind the link, which counts as one.
      rw [List.append_nil] at hr
      have hlink := h.links _ t (hSq.trans (List.prefix_append _ [n])) hl
      rw [List.dropLast_concat] at hlink
      obtain ⟨j, rfl, hr⟩ := hstep _ _ r hr
      exact hlink r (trailWithin_subset (Nat.le_of_succ_le hk) _ _ hr)
  · rw [trailNames_on ⟨hn.ne_dot, hn.ne_up⟩ fun t ht => hl ⟨t, ht⟩] at hr
    rcases List.mem_cons.mp hr with rfl | hr
    · exact h.outside hSq
    · rw [trailNames, List.mem_singleton] at hr
      subst hr
      exact h.outside (hSq.trans (List.prefix_append _ [n]))

end Disk

namespace Tree

variable {d d' : Disk} {S P p : Place} {dir root path : Bytes} {q : List Bytes} {e : Entry}

/-- The root of the tree in the directory `dir` is the directory at `S`. -/
def RootAt (d : Disk) (dir root : Bytes) (S : Place) : Prop :=
  ∃ path m, pathOf dir root = .ok path ∧ d.find true path = .ok (S, .dir m)

/-- A name in a tree on disk is followed from the root of the tree on. -/
theorem RootAt.follow (h : RootAt d dir root S) : ∃ k ≤ maxLinks, ∀ {q path}, q ≠ [] →
    (∀ n ∈ q, Path.IsName n) → pathOf dir (Path.nameAt root q) = .ok path → ∀ {d'}, Keeps d d' →
      followWithin d' true maxLinks (d'.start path) (Path.names path) = followWithin d' true k S q := by
  obtain ⟨path, m, hpath, hfind⟩ := h
  obtain ⟨hloc, hS, -⟩ := find_eq_ok.mp hfind
  obtain ⟨-, hfol⟩ := locate_eq_ok.mp hloc
  obtain ⟨-, -, -, habs, hnames, -⟩ := pathOf_ok hpath
  -- A dot at the end of the path would stand between the root and the names behind it, so it is taken away
  -- first.
  have hbase : Follows d true maxLinks (d.start path)
      (Path.names dir ++ if root = "." then [] else Path.names root) S := by
    rw [hnames, Bool.true_or] at hfol
    by_cases hroot : root = "."
    · subst hroot
      -- The dot does not lead on.
      obtain ⟨r, hr, m', hm', hsearch⟩ := hfol.cut (by decide)
      obtain ⟨k, -, heq⟩ := hr.append_eq hm'
      have hdot := heq d true (Path.names ".") (Keeps.refl d) (by decide)
      rw [followWithin_eq_ok.mpr hfol] at hdot
      have hnil : followWithin d true k r (Path.names ".") = .ok r :=
        (followWithin_dot ⟨m', hm', hsearch⟩).trans followWithin_nil
      rw [hnil, Except.ok.injEq] at hdot
      rw [if_pos rfl, List.append_nil, hdot]
      exact hr
    · rw [if_neg hroot]
      exact hfol
  obtain ⟨k, hk, heq⟩ := hbase.append_eq hS
  refine ⟨k, hk, fun {q path'} hq hqn hpath' {d'} hkeeps => ?_⟩
  obtain ⟨-, -, -, habs', hnames', -⟩ := pathOf_ok hpath'
  have hstart : d'.start path' = d.start path := by
    rw [hkeeps.start, Disk.start, Disk.start, habs, habs']
  rw [hstart, hnames', Path.names_nameAt hq hqn, ← List.append_assoc]
  exact heq d' true q hkeeps hq

/-- What is found over directories is where the names say. -/
theorem RootAt.place (h : RootAt d dir root S) (hq : ∀ n ∈ q, Path.IsName n) (hpaved : d.Paved S q)
    (hpath : pathOf dir (Path.nameAt root q) = .ok path) (hfind : d.find true path = .ok (p, e)) :
    p = S ++ q := by
  by_cases hnil : q = []
  · subst hnil
    obtain ⟨path', m, hpath', hfind'⟩ := h
    rw [Path.nameAt_nil, hpath', Except.ok.injEq] at hpath
    subst hpath
    rw [hfind', Except.ok.injEq, Prod.mk.injEq] at hfind
    rw [← hfind.1, List.append_nil]
  · obtain ⟨k, -, hfol⟩ := h.follow
    have hloc := (locate_eq_ok.mp (find_eq_ok.mp hfind).1).2
    have heq := hfol hnil hq hpath (Keeps.refl d)
    rw [Bool.true_or] at hloc
    rw [followWithin_eq_ok.mpr hloc] at heq
    exact hpaved.follows hq (followWithin_eq_ok.mp heq.symm)

/-- **What is read from a tree is found alike, whatever happens in `P`.** -/
theorem RootAt.find_eq (h : RootAt d dir root S) (hap : d.Apart S P) (hk : Keeps d d')
    (hag : AgreeOutside P d d') (hno : NoLinkIn P d) (hpaved : d.Paved S q) {n : Bytes}
    (hq : ∀ m ∈ q ++ [n], Path.IsName m)
    (hpath : pathOf dir (Path.nameAt root (q ++ [n])) = .ok path) :
    d'.find true path = d.find true path := by
  obtain ⟨k, hkl, hfol⟩ := h.follow
  have htrail := hap.trail hpaved hq hkl
  have hd := hfol (by simp) hq hpath (Keeps.refl d)
  refine find_congr ?_ fun r hr => ?_
  · rw [hd, hfol (by simp) hq hpath hk]
    exact followWithin_agree hag hno k _ _ htrail
  · rw [followWithin_eq_ok.mpr hr] at hd
    have hr' := followWithin_eq_ok.mp hd.symm
    exact hag r (htrail r (List.mem_of_getLast? hr'.getLast?_trail))

/-- A call on a name is made on the path that the name has, if it has one. -/
theorem onPathOf_eq_ok {α : Type} {call operation name : Bytes} {act : Bytes → Except Errno α} {a : α} :
    onPathOf dir call operation name act = .ok a ↔ ∃ path, pathOf dir name = .ok path ∧ act path = .ok a := by
  unfold onPathOf
  cases pathOf dir name with
  | error f => simp
  | ok path => simp [explain_eq_ok]

theorem rootAt_of_stat {info : Info} (h : (Tree.onDisk dir).stat d root = .ok info)
    (hdir : info.isDir = true) : ∃ S, RootAt d dir root S := by
  obtain ⟨path, hpath, hs⟩ := onPathOf_eq_ok.mp h
  obtain ⟨S, e, hfind, rfl⟩ := statusOf_eq_ok.mp hs
  obtain ⟨m, rfl⟩ := info_isDir.mp hdir
  exact ⟨S, path, m, hpath, hfind⟩

theorem list_onDisk {name : Bytes} {ls : List Listed} :
    (Tree.onDisk dir).list d name = .ok ls ↔
      ∃ path p e, pathOf dir name = .ok path ∧ d.find true path = .ok (p, e) ∧
        readable e.info.mode = true ∧ ls = (d.listing p).map fun (n, k) => ⟨n, k⟩ := by
  rw [list, except_bind_ok]
  constructor
  · rintro ⟨⟨p, e⟩, h, hls⟩
    cases hls
    obtain ⟨path, hpath, ho⟩ := onPathOf_eq_ok.mp h
    obtain ⟨hfind, hread⟩ := openedAt_eq_ok.mp ho
    exact ⟨path, p, e, hpath, hfind, hread, rfl⟩
  · rintro ⟨path, p, e, hpath, hfind, hread, rfl⟩
    exact ⟨(p, e), onPathOf_eq_ok.mpr ⟨path, hpath, openedAt_eq_ok.mpr ⟨hfind, hread⟩⟩, rfl⟩

theorem list_of_faulty {faults : List Fault} {t : Tree} {name : Bytes} {ls : List Listed}
    (h : (Tree.faulty faults t).list d name = .ok ls) : t.list d name = .ok ls :=
  (Fault.orElse_eq_ok.mp (Fault.orElse_eq_ok.mp h).2).2

/-- **What can be listed has a name that a tree may have.**  On disk a name without a path is refused, and in
memory a directory is listed itself or on the way to something that is. -/
theorem isTreeName_of_list : ∀ {t : Tree} {name : Bytes} {ls : List Listed}, t.Proper →
    t.list d name = .ok ls → Path.isTreeName name = true
  | .onDisk dir, name, ls, _, h => by
    obtain ⟨path, p, e, hpath, -⟩ := list_onDisk.mp h
    exact (pathOf_ok hpath).2.1
  | .inMemory m, name, ls, hm, h => by
    obtain ⟨e, ho, -⟩ := except_bind_ok.mp h
    exact Memory.isTreeName_of_opened hm ho
  | .faulty faults t, name, ls, ht, h => isTreeName_of_list (t := t) ht (list_of_faulty h)

/-- The directories that a walk on disk lists are those below its root, on ways without links. -/
theorem RootAt.entered {exclude : List Bytes} (h : RootAt d dir root S) (hd : d.Sound)
    {name : Bytes} (he : Walk.Entered ⟨.onDisk dir, root, exclude⟩ d name) :
    ∃ q, (∀ n ∈ q, Path.IsName n) ∧ name = Path.nameAt root q ∧ d.Paved S q := by
  induction he with
  | root =>
    obtain ⟨path, m, -, hfind⟩ := h
    refine ⟨[], by simp, rfl, fun r hr => ⟨m, ?_⟩⟩
    rw [List.prefix_nil.mp hr, List.append_nil]
    exact (find_eq_ok.mp hfind).2.1
  -- What is listed as a directory is one on the disk and not a link to one, so the way goes on without links.
  | @item dir' ls l _ hls hl hk ih =>
    obtain ⟨q, hq, rfl, hpaved⟩ := ih
    obtain ⟨path, p, e, hpath, hfind, -, rfl⟩ := list_onDisk.mp hls
    obtain ⟨⟨n, k⟩, hmem, rfl⟩ := List.mem_map.mp hl
    obtain ⟨f, hf, hfk⟩ := mem_listing.mp hmem
    have hp := h.place hq hpaved hpath hfind
    subst hp
    have hn : Path.IsName n := hd.listing_isName hmem
    dsimp only at hk
    subst hk
    cases f with
    | dir m =>
      rw [List.append_assoc] at hf
      exact ⟨q ++ [n], Walk.forall_isName_append hq (by simpa using hn),
        (Path.nameAt_concat root q n).symm, hpaved.concat hf⟩
    | file m c => cases hfk
    | link t => cases hfk

/-- The tree has nothing to do with what is at `P` and below. -/
def Apart (root : Bytes) (d : Disk) (P : Place) : Tree → Prop
  | .onDisk dir => ∀ path, pathOf dir root = .ok path → d.Apart (d.goal path) P
  | .inMemory _ => True
  | .faulty _ t => t.Apart root d P

/-- A tree that is apart from `P` stays apart while a copy is made. -/
theorem Apart.keeps (hk : Keeps d d') : ∀ {t : Tree}, t.Apart root d P → t.Apart root d' P
  | .onDisk _, h => fun path hpath => by
    rw [hk.goal_eq]
    exact (h path hpath).keeps hk
  | .inMemory _, _ => trivial
  | .faulty _ t, h => Apart.keeps hk (t := t) h

/-- A look at a name depends on what is found there. -/
theorem onPathOf_congr {α : Type} {call operation name : Bytes} {act act' : Bytes → Except Errno α}
    (h : ∀ path, pathOf dir name = .ok path → act' path = act path) :
    onPathOf dir call operation name act' = onPathOf dir call operation name act := by
  unfold onPathOf
  cases hp : pathOf dir name with
  | error f => rfl
  | ok path => exact congrArg (explain operation name) (h path hp)

/-- What a walk comes to is found alike, whatever happens in `P`, and not there. -/
theorem RootAt.find_item {exclude : List Bytes} (h : RootAt d dir root S) (hd : d.Sound)
    (hap : d.Apart S P) (hk : Keeps d d') (hag : AgreeOutside P d d') (hno : NoLinkIn P d)
    {dir' : Bytes} {ls : List Listed} {l : Listed}
    (hdir' : Walk.Entered ⟨.onDisk dir, root, exclude⟩ d dir')
    (hls : (Tree.onDisk dir).list d dir' = .ok ls) (hl : l ∈ ls)
    (hpath : pathOf dir (Path.child dir' l.name) = .ok path) :
    d'.find true path = d.find true path := by
  obtain ⟨q, hq, rfl, hpaved⟩ := h.entered hd hdir'
  obtain ⟨-, p, -, -, -, -, rfl⟩ := list_onDisk.mp hls
  obtain ⟨⟨n, k⟩, hmem, rfl⟩ := List.mem_map.mp hl
  rw [← Path.nameAt_concat] at hpath
  have hn : Path.IsName n := hd.listing_isName hmem
  have hqn : ∀ m ∈ q ++ [n], Path.IsName m := Walk.forall_isName_append hq (by simpa using hn)
  exact h.find_eq hap hk hag hno hpaved hqn hpath

/-- **A directory on disk looks the same whatever happens in `P`.** -/
theorem seesAlike_onDisk {exclude : List Bytes} (hd : d.Sound) (h : RootAt d dir root S)
    (hap : d.Apart S P) (hk : Keeps d d') (hag : AgreeOutside P d d') (hno : NoLinkIn P d) :
    Walk.SeesAlike False ⟨.onDisk dir, root, exclude⟩ (.onDisk dir) d d' := by
  refine ⟨rfl, fun {dir'} hdir' => Or.inl ?_, fun {dir' ls l} hdir' hls hl _ => Or.inl ?_⟩
  · obtain ⟨q, hq, rfl, hpaved⟩ := h.entered hd hdir'
    have hsame : ∀ path, pathOf dir (Path.nameAt root q) = .ok path →
        d'.openedAt path = d.openedAt path := by
      intro path hpath
      have hfind : d'.find true path = d.find true path := by
        -- The root itself may be reached over links, so it is not a case of the others.
        cases q using List.reverseRecOn with
        | nil =>
          obtain ⟨path', m, hpath', hfind'⟩ := h
          rw [Path.nameAt_nil, hpath', Except.ok.injEq] at hpath
          subst hpath
          rw [hfind', find_keeps hk hfind' (hk.dir _ m (find_eq_ok.mp hfind').2.1)]
        | append_singleton q n =>
          exact h.find_eq hap hk hag hno (fun r hr => hpaved r (hr.trans (List.prefix_append q [n])))
            hq hpath
      rw [openedAt, openedAt, hfind]
    rw [list, list, onPathOf_congr hsame]
    cases ho : onPathOf dir "readdir" "open" (Path.nameAt root q) d.openedAt with
    | error f => rfl
    | ok pe =>
      obtain ⟨path, hpath, ho⟩ := onPathOf_eq_ok.mp ho
      have hp : pe.1 = S ++ q := h.place hq hpaved hpath (openedAt_eq_ok.mp ho).1
      -- The items of the directory are in the tree, and so not in `P`.
      have hlisting : d'.listing pe.1 = d.listing pe.1 := by
        refine listing_congr fun n => hag _ (hap.outside ?_)
        rw [hp, List.append_assoc]
        exact List.prefix_append S _
      simp only [bind, Except.bind, hlisting]
  · rw [stat, stat]
    refine onPathOf_congr fun path hpath => ?_
    rw [statusOf, statusOf, h.find_item hd hap hk hag hno hdir' hls hl hpath]

theorem entered_of_faulty {faults : List Fault} {t : Tree} {exclude : List Bytes} {name : Bytes}
    (h : Walk.Entered ⟨.faulty faults t, root, exclude⟩ d name) :
    Walk.Entered ⟨t, root, exclude⟩ d name := by
  induction h with
  | root => exact .root
  | item _ hls hl hkind ih => exact .item ih (list_of_faulty hls) hl hkind

/-- What holds of the place that the root's path leads to holds of the root. -/
theorem rootAt_of_goal {info : Info} {X : Place → Prop}
    (h : ∀ path, pathOf dir root = .ok path → X (d.goal path))
    (hstat : (Tree.onDisk dir).stat d root = .ok info) (hdir : info.isDir = true) :
    ∃ S, RootAt d dir root S ∧ X S := by
  obtain ⟨S, path, m, hpath, hfind⟩ := rootAt_of_stat hstat hdir
  exact ⟨S, ⟨path, m, hpath, hfind⟩, goal_of_find hfind ▸ h path hpath⟩

theorem Apart.rootAt {info : Info} (h : (Tree.onDisk dir).Apart root d P)
    (hstat : (Tree.onDisk dir).stat d root = .ok info) (hdir : info.isDir = true) :
    ∃ S, RootAt d dir root S ∧ d.Apart S P := rootAt_of_goal h hstat hdir

section

variable (hd : d.Sound) (hk : Keeps d d') (hag : AgreeOutside P d d') (hno : NoLinkIn P d)

include hd hk hag hno

/-- **To a walk the tree looks the same whatever happens in `P`.** -/
theorem seesAlike : ∀ {t : Tree} {exclude : List Bytes} {info : Info}, t.Apart root d P →
    t.stat d root = .ok info → info.isDir = true → Walk.SeesAlike False ⟨t, root, exclude⟩ t d d'
  | .onDisk dir, exclude, info, hap, hstat, hdir => by
    obtain ⟨S, hS, hap⟩ := hap.rootAt hstat hdir
    exact seesAlike_onDisk hd hS hap hk hag hno
  | .inMemory m, _, _, _, _, _ => ⟨rfl, fun _ => Or.inl rfl, fun _ _ _ _ => Or.inl rfl⟩
  | .faulty faults t, exclude, info, hap, hstat, hdir => by
    have ih : Walk.SeesAlike False ⟨t, root, exclude⟩ t d d' :=
      seesAlike hap (Fault.orElse_eq_ok.mp hstat).2 hdir
    refine ⟨rfl, fun h => ?_, fun h hls hl hkind => ?_⟩
    · rcases ih.list (entered_of_faulty h) with heq | ⟨hfalse, -⟩
      · exact Or.inl (congrArg (fun a => Fault.orElse faults _ _ _ (Fault.orElse faults _ _ _ a)) heq)
      · exact hfalse.elim
    · rcases ih.stat (entered_of_faulty h) (list_of_faulty hls) hl hkind with heq | ⟨hfalse, -⟩
      · exact Or.inl (congrArg (Fault.orElse faults _ _ _) heq)
      · exact hfalse.elim

/-- **Files are read the same whatever happens in `P`.** -/
theorem openFile_eq : ∀ {t : Tree} {exclude : List Bytes} {info : Info}, t.Apart root d P →
    t.stat d root = .ok info → info.isDir = true → ∀ {dir' : Bytes} {ls : List Listed} {l : Listed},
      Walk.Entered ⟨t, root, exclude⟩ d dir' → t.list d dir' = .ok ls → l ∈ ls →
      t.openFile d' (Path.child dir' l.name) = t.openFile d (Path.child dir' l.name)
  | .onDisk dir, exclude, info, hap, hstat, hdir, dir', ls, l, hdir', hls, hl => by
    obtain ⟨S, hS, hap⟩ := hap.rootAt hstat hdir
    have hopened : ∀ path, pathOf dir (Path.child dir' l.name) = .ok path →
        d'.openedAt path = d.openedAt path := by
      intro path hpath
      rw [openedAt, openedAt, hS.find_item hd hap hk hag hno hdir' hls hl hpath]
    rw [openFile, openFile, openIn, openIn, onPathOf_congr hopened]
  | .inMemory m, _, _, _, _, _, _, _, _, _, _, _ => rfl
  | .faulty faults t, exclude, info, hap, hstat, hdir, dir', ls, l, hdir', hls, hl => by
    have heq := openFile_eq (t := t) hap (Fault.orElse_eq_ok.mp hstat).2 hdir
      (entered_of_faulty hdir') (list_of_faulty hls) hl
    exact congrArg (fun a => Fault.orElse faults _ _ _ (Except.map _ a)) heq

theorem openFile_visited {w : Walk.Scope} {x : Visit} (hap : w.tree.Apart w.root d P)
    (hx : x ∈ (Walk.trace w d).1) : w.tree.openFile d' x.name = w.tree.openFile d x.name := by
  obtain ⟨info, hstat, hinfo⟩ := Walk.root_of_mem_trace hx
  obtain ⟨hdir, hls, hl, he, -⟩ := Walk.met_of_mem_trace hx
  rw [he]
  exact openFile_eq hd hk hag hno hap hstat hinfo hdir hls hl

end

/-- The root is found as before.  Where it was not found, a copy may have made it by now, so this is one way
only. -/
theorem stat_root (hk : Keeps d d') (hag : AgreeOutside P d d') : ∀ {t : Tree} {info : Info},
    t.Apart root d P → t.stat d root = .ok info → t.stat d' root = .ok info
  | .onDisk dir, info, hap, hstat => by
    obtain ⟨path, hpath, hs⟩ := onPathOf_eq_ok.mp hstat
    obtain ⟨S, e, hfind, rfl⟩ := statusOf_eq_ok.mp hs
    have hout : ¬ P <+: S := goal_of_find hfind ▸ (hap path hpath).not_inside
    have hS' : d'.get? S = some e := (hag S hout).trans (find_eq_ok.mp hfind).2.1
    exact onPathOf_eq_ok.mpr ⟨path, hpath, statusOf_eq_ok.mpr ⟨S, e, find_keeps hk hfind hS', rfl⟩⟩
  | .inMemory _, _, _, hstat => hstat
  | .faulty faults t, _, hap, hstat => by
    obtain ⟨hcause, hstat⟩ := Fault.orElse_eq_ok.mp hstat
    exact Fault.orElse_eq_ok.mpr ⟨hcause, stat_root hk hag (t := t) hap hstat⟩

/-- Which call it is that opens a file shows only where the file has no path. -/
theorem openWhole_eq_ok {t : Tree} {name : Bytes} {r : Reading} :
    t.openWhole d name = .ok r ↔ t.openFile d name = .ok r := by
  cases t with
  | onDisk dir => simp only [openWhole, openFile, openIn, except_bind_ok, onPathOf_eq_ok]
  | inMemory m => exact Iff.rfl
  | faulty faults t => exact Iff.rfl

theorem read_eq_ok {t : Tree} {name content : Bytes} : t.read d name = .ok content ↔
    ∃ r, t.openFile d name = .ok r ∧ r.failure = none ∧ r.content = content := by
  rw [read, except_bind_ok]
  refine exists_congr fun r => and_congr openWhole_eq_ok ?_
  cases r.failure with
  | none =>
    constructor
    · intro h
      exact ⟨rfl, Except.ok.inj h⟩
    · exact fun h => congrArg Except.ok h.2
  | some f =>
    constructor
    · intro h
      cases h
    · intro h
      cases h.1

/-- A walk through the source comes to the same. -/
theorem trace_eq {w : Walk.Scope} {info : Info} (hd : d.Sound) (hk : Keeps d d')
    (hag : AgreeOutside P d d') (hno : NoLinkIn P d) (hap : w.tree.Apart w.root d P)
    (hstat : w.tree.stat d w.root = .ok info) : Walk.trace w d' = Walk.trace w d :=
  Walk.trace_congr (fun _ hs hdir => seesAlike hd hk hag hno hap hs hdir)
    ((stat_root hk hag hap hstat).trans hstat.symm)

end Tree

end AgentKit
