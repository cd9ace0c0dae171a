import AgentKit.Proofs.Reaching
/-!
# What there is, and what a walk visits

A walk finds its way by listing directories.  It ends at the first directory that cannot be listed and at the
first link that cannot be looked at, so what it comes to depends on its own order.  Here its visits are
compared with what stands in the tree, of which nothing is said about reading it.

1. `Tree.Holds`: what stands below the root, on disk or in memory, whether or not a call can show it.  **A
   listing shows exactly that** (`Tree.Holds.mem_list`).
2. `Ahead`: depth-first order.
3. `Fails`: what ends a walk.  **A walk ends at the first such thing** (`trace_ends`).
4. **What a walk visits** (`run_visits`): the entries that are not excluded, no link to a directory among
   them, in depth-first order and up to the first thing that ends the walk.

`Reaching` describes the visits of a walk by `Reached` and `Blocked`, which are made of the calls that a walk makes.
A reader of such a statement has to believe that what is not reached does not matter.  Here the specification is made
of the entries themselves: what stands where, and which of them are excluded.  The bridge between the two is short
(`Reached.holds`, `reached_or_blocked`): what is reached stands there, and what stands there is reached unless something
on the way to it cannot be listed.
-/

namespace AgentKit

open Disk

/-! ## 1. What stands in a tree

On disk an entry stands at a place.  In memory there are only names with slashes in them, and directories that no
entry is for are there because something is below them.  `Holds` is defined for each kind of tree in its own
terms. -/

namespace Path

/-- The way to what has `child dir n` on its way begins with `n`. -/
theorem childToward?_child {dir n rest : Bytes} (hn : IsName n)
    (hrest : rest = [] ∨ ∃ r, rest = byte '/' :: r) : childToward? dir (child dir n ++ rest) = some n := by
  have hslash : ∀ b ∈ n, decide (b ≠ byte '/') = true :=
    fun b hb => decide_eq_true fun heq => hn.no_slash (heq ▸ hb)
  have htake : (n ++ rest).takeWhile (fun b => decide (b ≠ byte '/')) = n := by
    rw [List.takeWhile_append_of_pos hslash]
    rcases hrest with rfl | ⟨r, rfl⟩
    · simp
    · rw [List.takeWhile_cons_of_neg (by simp), List.append_nil]
  unfold childToward? child
  -- The dot is left out of names, so this case is for itself.
  by_cases hdir : dir = "."
  · have hdot : n ++ rest ≠ "." := by
      rcases hrest with rfl | ⟨r, rfl⟩
      · rw [List.append_nil]
        exact hn.ne_dot
      · exact append_slash_ne_dot n r
    rw [if_pos hdir, if_pos hdir]
    dsimp only
    rw [if_neg hdot, htake]
  · have hpath : dir ++ Bytes.ofString "/" ++ n ++ rest = dir ++ byte '/' :: (n ++ rest) := by
      simp [slash_eq]
    have hdrop : (dir ++ byte '/' :: (n ++ rest)).drop (dir.length + 1) = n ++ rest := by
      rw [List.drop_append, List.drop_eq_nil_of_le (Nat.le_succ _)]
      simp
    have hpre : (dir ++ Bytes.ofString "/").isPrefixOf (dir ++ byte '/' :: (n ++ rest)) = true :=
      List.isPrefixOf_iff_prefix.mpr ⟨n ++ rest, by simp [slash_eq]⟩
    rw [if_neg hdir, if_neg hdir, hpath, if_pos hpre]
    dsimp only
    rw [if_neg (append_slash_ne_dot dir _), hdrop, htake]

end Path

namespace Memory

variable {m : Memory} {dir n : Bytes} {k : Kind} {e : Entry}

theorem child_ne_dot (hn : Path.IsName n) : Path.child dir n ≠ "." := by
  unfold Path.child
  split
  · exact hn.ne_dot
  · rw [slash_eq, List.append_assoc]
    exact Path.append_slash_ne_dot dir n

/-- What stands in a directory in memory is among its children: it is an entry itself, or on the way to one. -/
theorem mem_children_of_get? (hn : Path.IsName n) (h : m.get? (Path.child dir n) = some e) :
    n ∈ m.children dir := by
  rw [mem_children]
  unfold get? at h
  split at h
  · rename_i e' hlookup
    obtain ⟨before, behind, hsplit, -⟩ := List.lookup_eq_some_iff.mp hlookup
    have hway : Path.childToward? dir (Path.child dir n ++ []) = some n := Path.childToward?_child hn (Or.inl rfl)
    rw [List.append_nil] at hway
    exact ⟨(Path.child dir n, e'), by simp [hsplit], hway⟩
  · rw [decide_eq_false (child_ne_dot hn), Bool.false_or] at h
    split at h
    · rename_i hany
      obtain ⟨e', he', hpre⟩ := List.any_eq_true.mp hany
      obtain ⟨rest, hrest⟩ := List.isPrefixOf_iff_prefix.mp hpre
      refine ⟨e', he', ?_⟩
      rw [← hrest, slash_eq, List.append_assoc, List.singleton_append]
      exact Path.childToward?_child hn (Or.inr ⟨rest, rfl⟩)
    · cases h

/-- The items of a directory are what stands under the names in it. -/
theorem mem_items (hn : Path.IsName n) :
    (⟨n, k⟩ : Listed) ∈ m.items dir ↔ ∃ e, m.get? (Path.child dir n) = some e ∧ e.kind = k := by
  unfold items
  rw [List.mem_filterMap]
  constructor
  · rintro ⟨n', -, h⟩
    obtain ⟨e, he, heq⟩ := Option.map_eq_some_iff.mp h
    cases heq
    exact ⟨e, he, rfl⟩
  · rintro ⟨e, he, rfl⟩
    exact ⟨n, mem_children_of_get? hn he, by rw [he]; rfl⟩

end Memory

namespace Tree

variable {d : Disk} {root : Bytes} {q : List Bytes} {n : Bytes} {k k' : Kind}

/-- What stands below `root` over the names `q`, whether or not it can be read.  On disk it is at the place to
which these names lead from the root's, and in memory under the name that they make, in directories. -/
def Holds (root : Bytes) (d : Disk) (q : List Bytes) (k : Kind) : Tree → Prop
  | .onDisk dir => ∃ S e, RootAt d dir root S ∧ d.get? (S ++ q) = some e ∧ e.kind = k
  | .inMemory m => (∀ n ∈ q, Path.IsName n) ∧
      (∀ p, p <+: q → p ≠ q → ∃ mode, m.get? (Path.nameAt root p) = some (.dir mode)) ∧
      ∃ e, m.get? (Path.nameAt root q) = some e ∧ e.kind = k
  | .faulty _ t => t.Holds root d q k

theorem RootAt.unique {dir : Bytes} {S S' : Place} (h : RootAt d dir root S) (h' : RootAt d dir root S') :
    S = S' := by
  obtain ⟨path, m, hpath, hfind⟩ := h
  obtain ⟨path', m', hpath', hfind'⟩ := h'
  rw [hpath, Except.ok.injEq] at hpath'
  subst hpath'
  rw [hfind, Except.ok.injEq, Prod.mk.injEq] at hfind'
  exact hfind'.1

theorem Holds.names (hd : d.Sound) : ∀ {t : Tree}, t.Holds root d q k → ∀ n ∈ q, Path.IsName n
  | .onDisk _, ⟨_, _, _, he, _⟩ => hd.names_below he
  | .inMemory _, h => h.1
  | .faulty _ t, h => Holds.names hd (t := t) h

/-- An entry has one kind. -/
theorem Holds.kind_eq : ∀ {t : Tree}, t.Holds root d q k → t.Holds root d q k' → k = k'
  | .onDisk _, ⟨_, _, hS, he, hk⟩, ⟨_, _, hS', he', hk'⟩ => by
    cases hS.unique hS'
    rw [he, Option.some.injEq] at he'
    rw [← hk, ← hk', he']
  | .inMemory _, ⟨_, _, _, he, hk⟩, ⟨_, _, _, he', hk'⟩ => by
    rw [he, Option.some.injEq] at he'
    rw [← hk, ← hk', he']
  | .faulty _ t, h, h' => Holds.kind_eq (t := t) h h'

/-- A root that is a directory stands in the tree. -/
theorem holds_root {info : Info} (hdir : info.isDir = true) : ∀ {t : Tree}, t.stat d root = .ok info →
    t.Holds root d [] .dir
  | .onDisk _, h => by
    obtain ⟨S, hroot⟩ := rootAt_of_stat h hdir
    have hroot' := hroot
    obtain ⟨path, m, -, hfind⟩ := hroot
    refine ⟨S, .dir m, hroot', ?_, rfl⟩
    rw [List.append_nil]
    exact (find_eq_ok.mp hfind).2.1
  | .inMemory m, h => by
    obtain ⟨e, hopen, hinfo⟩ := except_bind_ok.mp h
    obtain ⟨-, hget⟩ := Fault.orElse_eq_ok.mp hopen
    obtain ⟨-, hinfo⟩ := Fault.orElse_eq_ok.mp hinfo
    cases hinfo
    obtain ⟨mode, rfl⟩ := info_isDir.mp hdir
    refine ⟨by simp, fun p hp hne => absurd (List.prefix_nil.mp hp) hne, .dir mode, ?_, rfl⟩
    rw [Path.nameAt_nil]
    split at hget
    · rename_i e he
      cases hget
      exact he
    · cases hget
  | .faulty _ t, h => holds_root hdir (t := t) (Fault.orElse_eq_ok.mp h).2

/-- What stands somewhere stands in a directory. -/
theorem Holds.parent (hd : d.Sound) : ∀ {t : Tree}, t.Holds root d (q ++ [n]) k → t.Holds root d q .dir
  | .onDisk _, ⟨S, e, hS, he, _⟩ => by
    rw [← List.append_assoc] at he
    obtain ⟨m, hm⟩ := hd.parents _ n e he
    exact ⟨S, .dir m, hS, hm, rfl⟩
  | .inMemory _, ⟨hnames, hdirs, _⟩ => by
    have hpre : q <+: q ++ [n] := List.prefix_append q [n]
    obtain ⟨mode, hmode⟩ := hdirs q hpre (by simp)
    refine ⟨fun m hm => hnames m (List.mem_append_left _ hm), fun p hp hne => ?_, _, hmode, rfl⟩
    refine hdirs p (hp.trans hpre) fun heq => hne (hp.eq_of_length_le ?_)
    simp [heq]
  | .faulty _ t, h => Holds.parent hd (t := t) h

/-- On the way to what stands somewhere there are directories. -/
theorem Holds.dir_of_prefix {r : List Bytes} {t : Tree} (hd : d.Sound) (h : t.Holds root d r k)
    (hq : q <+: r) (hne : q ≠ r) : t.Holds root d q .dir := by
  induction r using List.reverseRecOn generalizing k with
  | nil => exact absurd (List.prefix_nil.mp hq) hne
  | append_singleton r n ih =>
    rcases List.prefix_concat_iff.mp hq with rfl | hq
    · exact absurd rfl hne
    · by_cases hqr : q = r
      · exact hqr ▸ h.parent hd
      · exact ih (h.parent hd) hq hqr

/-- **A listing shows what stands in the directory.** -/
theorem Holds.mem_list (hd : d.Sound) : ∀ {t : Tree} {ls : List Listed}, t.Proper → t.Holds root d q .dir →
    t.list d (Path.nameAt root q) = .ok ls → ((⟨n, k⟩ : Listed) ∈ ls ↔ t.Holds root d (q ++ [n]) k)
  | .onDisk dir, ls, _, h, hls => by
    have hnames := h.names hd
    obtain ⟨S, e, hS, he, hk⟩ := h
    obtain ⟨m, rfl⟩ := Walk.kind_eq_dir hk
    rw [Walk.list_eq_listing hd hS hnames he hls, List.mem_map]
    constructor
    · rintro ⟨⟨n', k'⟩, hmem, heq⟩
      cases heq
      obtain ⟨e, he, hk⟩ := mem_listing.mp hmem
      exact ⟨S, e, hS, by rwa [← List.append_assoc], hk⟩
    · rintro ⟨S', e, hS', he, hk⟩
      cases hS.unique hS'
      exact ⟨(n, k), mem_listing.mpr ⟨e, by rwa [List.append_assoc], hk⟩, rfl⟩
  | .inMemory m, ls, ht, ⟨hnames, hdirs, e, he, hk⟩, hls => by
    obtain ⟨mode, rfl⟩ := Walk.kind_eq_dir hk
    have htidy := Memory.list_tidy ht hls
    rw [Memory.list_ok hls] at htidy ⊢
    constructor
    · intro hmem
      have hn : Path.IsName n := htidy.names _ hmem
      obtain ⟨e, he', hk⟩ := (Memory.mem_items hn).mp hmem
      refine ⟨Walk.forall_isName_append hnames (by simpa using hn), fun p hp hne => ?_, e, ?_, hk⟩
      · rcases List.prefix_concat_iff.mp hp with rfl | hp
        · exact absurd rfl hne
        · by_cases hpq : p = q
          · exact ⟨mode, hpq ▸ he⟩
          · exact hdirs p hp hpq
      · rwa [Path.nameAt_concat]
    · rintro ⟨hnames', -, e, he', hk⟩
      rw [Path.nameAt_concat] at he'
      exact (Memory.mem_items (hnames' n (by simp))).mpr ⟨e, he', hk⟩
  | .faulty _ t, ls, ht, h, hls => Holds.mem_list hd (t := t) ht h (list_of_faulty hls)

end Tree

namespace Walk

variable {w : Scope} {d : Disk} {q r : List Bytes} {k : Kind} {x : Visit} {info : Info}

/-! ## 2. Depth-first order

`Ahead` says what depth-first order is without mentioning how lists are compared.  It is the order of lists of
names (`ahead_iff_lt`), which is what the proofs use. -/

/-- `q` comes before `r`: it is on the way to `r`, or where the two ways part its name is the lesser. -/
def Ahead (q r : List Bytes) : Prop :=
  (q <+: r ∧ q ≠ r) ∨ ∃ p m n, p ++ [m] <+: q ∧ p ++ [n] <+: r ∧ m < n

theorem ahead_of_lt : ∀ {q r : List Bytes}, q < r → Ahead q r
  | _, [], h => absurd h (List.not_lt_nil _)
  | [], _ :: _, _ => Or.inl ⟨List.nil_prefix, by simp⟩
  | m :: q, n :: r, h => by
    rcases List.cons_lt_cons_iff.mp h with hmn | ⟨rfl, hqr⟩
    · exact Or.inr ⟨[], m, n, ⟨q, rfl⟩, ⟨r, rfl⟩, hmn⟩
    · rcases ahead_of_lt hqr with ⟨hpre, hne⟩ | ⟨p, m', n', hq, hr, hlt⟩
      · exact Or.inl ⟨List.cons_prefix_cons.mpr ⟨rfl, hpre⟩, by simpa using hne⟩
      · exact Or.inr ⟨m :: p, m', n', List.cons_prefix_cons.mpr ⟨rfl, hq⟩,
          List.cons_prefix_cons.mpr ⟨rfl, hr⟩, hlt⟩

theorem ahead_iff_lt : Ahead q r ↔ q < r := by
  refine ⟨?_, ahead_of_lt⟩
  rintro (⟨hpre, hne⟩ | ⟨p, m, n, hq, hr, hmn⟩)
  · exact lt_of_prefix hpre hne.symm
  · exact lt_of_names hmn hq hr

/-- Of lists in order the one that has all that comes before its members in the other is a beginning of it. -/
theorem prefix_of_pairwise {α : Type} {R : α → α → Prop} (hasymm : ∀ {a b}, R a b → ¬ R b a) :
    ∀ {xs ys : List α}, xs.Pairwise R → ys.Pairwise R → xs ⊆ ys →
      (∀ x ∈ xs, ∀ y ∈ ys, R y x → y ∈ xs) → xs <+: ys
  | [], _, _, _, _, _ => List.nil_prefix
  | x :: xs, [], _, _, hsub, _ => absurd (hsub List.mem_cons_self) List.not_mem_nil
  | x :: xs, y :: ys, hx, hy, hsub, hclosed => by
    obtain ⟨hxlt, hxs⟩ := List.pairwise_cons.mp hx
    obtain ⟨hylt, hys⟩ := List.pairwise_cons.mp hy
    -- The first of all in the larger list comes before everything else, so it is in the smaller one too and
    -- comes first there.
    have hxy : x = y := by
      rcases List.mem_cons.mp (hsub List.mem_cons_self) with heq | hmem
      · exact heq
      · have hyx := hylt x hmem
        rcases List.mem_cons.mp (hclosed x List.mem_cons_self y List.mem_cons_self hyx) with heq | hmem
        · exact heq.symm
        · exact absurd (hxlt y hmem) (hasymm hyx)
    subst hxy
    refine List.cons_prefix_cons.mpr ⟨rfl, prefix_of_pairwise hasymm hxs hys (fun a ha => ?_) ?_⟩
    · rcases List.mem_cons.mp (hsub (List.mem_cons_of_mem _ ha)) with rfl | hmem
      · exact absurd (hxlt a ha) (hasymm (hxlt a ha))
      · exact hmem
    · intro a ha b hb hba
      rcases List.mem_cons.mp
        (hclosed a (List.mem_cons_of_mem _ ha) b (List.mem_cons_of_mem _ hb) hba) with rfl | hmem
      · exact absurd (hylt b hb) (hasymm (hylt b hb))
      · exact hmem

/-! ## 3. Where a walk ends

The failure of a walk names what could not be read.  That it is the first such thing is an invariant of the same
kind as `Covers`, and it is proved along the same recursion. -/

/-- What ends a walk, and for what cause: a directory that cannot be listed, the root for one, or a link that
cannot be looked at.  Neither it nor a directory on the way to it is excluded. -/
inductive Fails (w : Scope) (d : Disk) (b : List Bytes) (cause : Failure) : Prop
  | dir : w.tree.Holds w.root d b .dir → Kept w.exclude b →
      w.tree.list d (Path.nameAt w.root b) = .error cause → Fails w d b cause
  | link : w.tree.Holds w.root d b .link → Kept w.exclude b →
      w.tree.stat d (Path.nameAt w.root b) = .error cause → Fails w d b cause

theorem Reached.holds (hd : d.Sound) (ht : w.tree.Proper) (h : Reached w d q k) :
    w.tree.Holds w.root d q k := by
  induction h with
  | root hstat hdir => exact Tree.holds_root hdir hstat
  | item _ hls hl _ ih => exact (ih.mem_list hd ht hls).mp hl

/-- If the trace ends with a failure, then at the first thing that blocks it in `B`, which the failure names. -/
def Ends (w : Scope) (d : Disk) (B : List Bytes → Prop) (tr : Trace) : Prop :=
  ∀ g, tr.2 = some g → ∃ b cause, B b ∧ Blocked w d b ∧ Fails w d b cause ∧
    g = unreadable (Path.nameAt w.root b) cause ∧ ∀ b', B b' → Blocked w d b' → ¬ b' < b

section Ends

variable {A B B' : List Bytes → Prop} {a b tr : Trace}

theorem Ends.of_ok (h : tr.2 = none) : Ends w d B tr := by
  intro g hg
  rw [h] at hg
  cases hg

theorem Ends.congr (h : Ends w d B tr) (hB : ∀ r, Blocked w d r → (B r ↔ B' r)) : Ends w d B' tr := by
  intro g hg
  obtain ⟨b, cause, hb, hblk, hfails, heq, hfirst⟩ := h g hg
  exact ⟨b, cause, (hB b hblk).mp hb, hblk, hfails, heq,
    fun b' hb' hblk' => hfirst b' ((hB b' hblk').mpr hb') hblk'⟩

/-- If the first part ends with a failure, then the obstacle there comes before all those of the second. -/
theorem Ends.chain (hcovers : Covers w d A B a) (ha : Ends w d B a) (hb : Ends w d B' b)
    (hlt : ∀ r s, B r → B' s → r < s) : Ends w d (fun r => B r ∨ B' r) (Walk.chain a b) := by
  obtain ⟨xs, f⟩ := a
  cases f with
  | none =>
    -- The first part came to its end, so nothing blocks there.
    intro g hg
    obtain ⟨b, cause, hmem, hblk, hfails, heq, hfirst⟩ := hb g hg
    refine ⟨b, cause, Or.inr hmem, hblk, hfails, heq, fun b' hb' hblk' => ?_⟩
    rcases hb' with hb' | hb'
    · exact absurd hblk' (hcovers.ok.mp rfl b' hb')
    · exact hfirst b' hb' hblk'
  | some f =>
    intro g hg
    obtain ⟨b, cause, hmem, hblk, hfails, heq, hfirst⟩ := ha g hg
    refine ⟨b, cause, Or.inl hmem, hblk, hfails, heq, fun b' hb' hblk' => ?_⟩
    rcases hb' with hb' | hb'
    · exact hfirst b' hb' hblk'
    · exact List.lt_asymm (hlt b b' hmem hb')

/-- A directory or a link that cannot be read comes before all that is below it. -/
theorem Ends.here {cause : Failure} (hblk : Blocked w d q) (hfails : Fails w d q cause) :
    Ends w d (q <+: ·) ([], some (unreadable (Path.nameAt w.root q) cause)) := by
  intro g hg
  cases hg
  exact ⟨q, cause, List.prefix_refl q, hblk, hfails, rfl, fun b' hpre _ => List.not_lt.mpr hpre.le⟩

variable (hd : d.Sound) (ht : w.tree.Proper)

include hd ht

theorem traceItem_ends {ls : List Listed} {l : Listed} {inside : Bytes → Trace}
    (hq : Reached w d q .dir) (hls : w.tree.list d (Path.nameAt w.root q) = .ok ls) (hl : l ∈ ls)
    (hin : Reached w d (q ++ [l.name]) .dir →
      Ends w d (q ++ [l.name] <+: ·) (inside (Path.nameAt w.root (q ++ [l.name])))) :
    Ends w d (q ++ [l.name] <+: ·)
      (traceItem w d inside (Path.child (Path.nameAt w.root q) l.name) l.kind) := by
  have ho : Orderly w d := orderly hd ht
  have hnames : ∀ n ∈ q ++ [l.name], Path.IsName n :=
    forall_isName_append (hq.names ho.tidy) (by simpa using (ho.tidy _ _ hls).names l hl)
  rw [← Path.nameAt_concat]
  unfold traceItem
  rw [Path.relativeTo_nameAt (by simp) hnames]
  by_cases hex : Exclusion.excludes w.exclude (Path.join (q ++ [l.name])) = true
  · rw [if_pos hex]
    exact .of_ok rfl
  rw [if_neg hex]
  have hreach : Reached w d (q ++ [l.name]) l.kind := .item hq hls hl (by simpa using hex)
  cases hk : l.kind with
  | file => exact .of_ok rfl
  | dir =>
    rw [hk] at hreach
    exact hin hreach
  | link =>
    rw [hk] at hreach
    dsimp only
    cases hstat : w.tree.stat d (Path.nameAt w.root (q ++ [l.name])) with
    | error cause => exact .here (.link hreach hstat) (.link (hreach.holds hd ht) hreach.kept hstat)
    | ok info =>
      refine .of_ok ?_
      dsimp only
      split <;> rfl

theorem traceItems_ends {ls : List Listed} {inside : Bytes → Trace} (hq : Reached w d q .dir)
    (hls : w.tree.list d (Path.nameAt w.root q) = .ok ls)
    (hcovers : ∀ p, Reached w d p .dir → p.length = q.length + 1 →
      Covers w d (fun r => p <+: r ∧ r ≠ p) (p <+: ·) (inside (Path.nameAt w.root p)))
    (hin : ∀ p, Reached w d p .dir → p.length = q.length + 1 →
      Ends w d (p <+: ·) (inside (Path.nameAt w.root p))) :
    ∀ {part : List Listed}, part ⊆ ls → Tidy part →
      Ends w d (fun r => ∃ l ∈ part, q ++ [l.name] <+: r)
        (traceItems w d inside (Path.nameAt w.root q) part)
  | [], _, _ => .of_ok rfl
  | l :: part, hpart, htidy => by
    obtain ⟨hless, hasc⟩ := List.pairwise_cons.mp htidy.ascending
    have hrest := traceItems_ends hq hls hcovers hin (fun _ hm => hpart (List.mem_cons_of_mem _ hm))
      ⟨fun m hm => htidy.names m (List.mem_cons_of_mem _ hm), hasc⟩
    have hl : l ∈ ls := hpart List.mem_cons_self
    have hitem := traceItem_ends hd ht hq hls hl fun hr => hin _ hr (by simp)
    have hfirst := traceItem_covers (orderly hd ht) hq hls hl fun hr => hcovers _ hr (by simp)
    refine (Ends.chain hfirst hitem hrest ?_).congr fun r _ => by simp
    rintro r s hr ⟨m, hm, hs⟩
    exact lt_of_names (hless m hm) hr hs

theorem traceDirectory_ends : ∀ (depth : Nat) {q : List Bytes}, Reached w d q .dir →
    w.tree.depth ≤ q.length + depth →
      Ends w d (q <+: ·) (traceDirectory w d depth (Path.nameAt w.root q))
  | 0, q, hq, hdepth => absurd ((orderly hd ht).depth q hq) (Nat.not_lt.mpr hdepth)
  | depth + 1, q, hq, hdepth => by
    have ho : Orderly w d := orderly hd ht
    rw [traceDirectory]
    cases hls : w.tree.list d (Path.nameAt w.root q) with
    | error cause => exact .here (.dir hq hls) (.dir (hq.holds hd ht) hq.kept hls)
    | ok ls =>
      have hitems := traceItems_ends hd ht hq hls
        (fun p hp hlen => traceDirectory_covers ho depth hp (by omega))
        (fun p hp hlen => traceDirectory_ends depth hp (by omega)) (fun _ hm => hm) (ho.tidy _ _ hls)
      refine hitems.congr fun r hblk => ⟨?_, fun hpre => ?_⟩
      · rintro ⟨l, -, hpre⟩
        exact (List.prefix_append q _).trans hpre
      · obtain ⟨k, hk⟩ := hblk.reached
        -- The directory itself could be listed, so an obstacle is below it.
        have hne : r ≠ q := by
          rintro rfl
          obtain ⟨f, herr⟩ := (blocked_dir_iff ho hq).mp hblk
          exact absurd (hls.symm.trans herr) (by simp)
        obtain ⟨ls', l, -, hls', hl, hpre', -⟩ := hk.through ho hpre hne
        rw [hls, Except.ok.injEq] at hls'
        exact ⟨l, hls' ▸ hl, hpre'⟩

/-- **A walk ends at the first thing that blocks it.** -/
theorem trace_ends (hroot : w.tree.stat d w.root = .ok info) (hdir : info.isDir = true) :
    Ends w d (fun _ => True) (trace w d) := by
  unfold trace
  rw [hroot]
  dsimp only
  rw [if_pos hdir]
  have htop : Reached w d [] .dir := .root hroot hdir
  exact (traceDirectory_ends hd ht w.tree.depth htop (Nat.le_add_left _ _)).congr fun r _ => by simp

end Ends

/-! ## 4. What is visited of what there is

A visit is due to every entry that is kept and is no link to a directory.  Which of them are made is then a
matter of the first thing that fails: those before it, and the visit to it if it is a directory, for that is made
before it is listed. -/

/-- The link at the end of `q` leads to a directory. -/
def LeadsToDir (w : Scope) (d : Disk) (q : List Bytes) : Prop :=
  w.tree.Holds w.root d q .link ∧
    ∃ info, w.tree.stat d (Path.nameAt w.root q) = .ok info ∧ info.isDir = true

/-- The visit that is due to an entry below the root: neither it nor a directory on the way to it is excluded,
and it is no link to a directory. -/
structure Due (w : Scope) (d : Disk) (q : List Bytes) (x : Visit) : Prop where
  below : q ≠ []
  kept : Kept w.exclude q
  noDetour : ¬ LeadsToDir w d q
  stands : ∃ k, w.tree.Holds w.root d q k ∧ x = w.visitAt q (k = .dir)

section Due

variable (hd : d.Sound) (ht : w.tree.Proper) (hroot : w.tree.stat d w.root = .ok info)
  (hdir : info.isDir = true)

theorem Due.path_eq (hd : d.Sound) (h : Due w d q x) : x.path = q := by
  obtain ⟨k, hk, rfl⟩ := h.stands
  exact visitAt_path (hk.names hd) _

include hd ht hroot hdir in
/-- What stands in the tree and is kept is reached, or something on the way to it blocks. -/
theorem reached_or_blocked (hkept : Kept w.exclude q) (h : w.tree.Holds w.root d q k) :
    Reached w d q k ∨ ∃ p, p <+: q ∧ p ≠ q ∧ Blocked w d p := by
  induction q using List.reverseRecOn generalizing k with
  | nil =>
    cases h.kind_eq (Tree.holds_root hdir hroot)
    exact Or.inl (.root hroot hdir)
  | append_singleton q n ih =>
    have hpre : q <+: q ++ [n] := List.prefix_append q [n]
    have hparent := h.parent hd
    -- Along the way: as long as directories are reached they can be listed, or one of them blocks.
    rcases ih (hkept.of_prefix hpre) hparent with hreach | ⟨p, hp, -, hblk⟩
    · cases hls : w.tree.list d (Path.nameAt w.root q) with
      | error cause => exact Or.inr ⟨q, hpre, by simp, .dir hreach hls⟩
      | ok ls =>
        exact Or.inl (.item hreach hls ((hparent.mem_list hd ht hls).mpr h)
          (hkept _ (by simp) (List.prefix_refl _)))
    · refine Or.inr ⟨p, hp.trans hpre, ?_, hblk⟩
      rintro rfl
      exact absurd hp.length_le (by simp)

include hd ht hroot hdir in
/-- What fails blocks the walk, unless something on the way to it does so already. -/
theorem Fails.blocked {cause : Failure} (h : Fails w d q cause) : ∃ p, p <+: q ∧ Blocked w d p := by
  cases h with
  | dir hholds hkept hls =>
    rcases reached_or_blocked hd ht hroot hdir hkept hholds with hreach | ⟨p, hp, -, hblk⟩
    · exact ⟨q, List.prefix_refl q, .dir hreach hls⟩
    · exact ⟨p, hp, hblk⟩
  | link hholds hkept hstat =>
    rcases reached_or_blocked hd ht hroot hdir hkept hholds with hreach | ⟨p, hp, -, hblk⟩
    · exact ⟨q, List.prefix_refl q, .link hreach hstat⟩
    · exact ⟨p, hp, hblk⟩

include hd ht in
theorem Blocked.fails (h : Blocked w d q) : ∃ cause, Fails w d q cause := by
  cases h with
  | dir hreach hls => exact ⟨_, .dir (hreach.holds hd ht) hreach.kept hls⟩
  | link hreach hstat => exact ⟨_, .link (hreach.holds hd ht) hreach.kept hstat⟩

include hd ht in
/-- What is shown is due. -/
theorem Shown.due {isDir : Bool} (hq : q ≠ []) (h : Shown w d q isDir) : Due w d q (w.visitAt q isDir) := by
  cases h with
  | dir hreach =>
    have hholds := hreach.holds hd ht
    exact ⟨hq, hreach.kept, fun hlead => absurd (hlead.1.kind_eq hholds) (by simp), .dir, hholds, rfl⟩
  | file hreach =>
    have hholds := hreach.holds hd ht
    exact ⟨hq, hreach.kept, fun hlead => absurd (hlead.1.kind_eq hholds) (by simp), .file, hholds, rfl⟩
  | link hreach hstat hnot =>
    refine ⟨hq, hreach.kept, ?_, .link, hreach.holds hd ht, rfl⟩
    rintro ⟨-, info, hstat', hinfo⟩
    cases hstat.symm.trans hstat'
    rw [hnot] at hinfo
    cases hinfo

/-- What is due and reached is shown, unless it is a link that cannot be looked at. -/
theorem Due.shown (h : Due w d q x)
    (hreach : ∀ k, w.tree.Holds w.root d q k → Reached w d q k) :
    Shown w d q x.isDir ∧ x = w.visitAt q x.isDir ∨ Blocked w d q ∧ x.isDir = false := by
  obtain ⟨-, -, hlead, k, hk, rfl⟩ := h
  have hr := hreach k hk
  cases k with
  | dir => exact Or.inl ⟨.dir hr, rfl⟩
  | file => exact Or.inl ⟨.file hr, rfl⟩
  | link =>
    cases hstat : w.tree.stat d (Path.nameAt w.root q) with
    | error cause => exact Or.inr ⟨.link hr hstat, rfl⟩
    | ok info =>
      refine Or.inl ⟨.link hr hstat ?_, rfl⟩
      cases hinfo : info.isDir with
      | false => rfl
      | true => exact absurd ⟨hk, info, hstat, hinfo⟩ hlead

include hd ht hroot hdir in
/-- A walk makes the visits that are due before anything that blocks it, and the visit to a directory that
blocks it. -/
theorem mem_trace_due : x ∈ (trace w d).1 ↔
    ∃ q, Due w d q x ∧ ∀ b, Blocked w d b → q < b ∨ q = b ∧ x.isDir = true := by
  have ho : Orderly w d := orderly hd ht
  rw [mem_trace_iff ho]
  constructor
  · rintro ⟨q, isDir, hq, hs, rfl, hbefore⟩
    refine ⟨q, hs.due hd ht hq, fun b hblk => ?_⟩
    rcases List.le_iff_lt_or_eq.mp (List.not_lt.mp (hbefore b hblk)) with hlt | rfl
    · exact Or.inl hlt
    · refine Or.inr ⟨rfl, ?_⟩
      cases hs with
      | dir => rfl
      | file hreach => exact absurd hblk (not_blocked_file ho hreach)
      | link hreach hstat =>
        obtain ⟨f, herr⟩ := (blocked_link_iff ho hreach).mp hblk
        exact absurd (hstat.symm.trans herr) (by simp)
  · rintro ⟨q, hdue, hbefore⟩
    -- Nothing on the way to `q` blocks, for that would come before `q`.
    have hreach : ∀ k, w.tree.Holds w.root d q k → Reached w d q k := by
      intro k hk
      refine (reached_or_blocked hd ht hroot hdir hdue.kept hk).resolve_right ?_
      rintro ⟨p, hp, hne, hblk⟩
      rcases hbefore p hblk with hlt | ⟨heq, -⟩
      · have hgt : p < q := lt_of_prefix hp hne.symm
        exact List.lt_asymm hlt hgt
      · exact hne heq.symm
    rcases hdue.shown hreach with ⟨hs, hx⟩ | ⟨hblk, hfile⟩
    · refine ⟨q, x.isDir, hdue.below, hs, hx, fun b hblk hlt => ?_⟩
      rcases hbefore b hblk with hgt | ⟨rfl, -⟩
      · exact List.lt_asymm hgt hlt
      · exact List.lt_irrefl q hlt
    · rcases hbefore q hblk with hlt | ⟨-, hisDir⟩
      · exact absurd hlt (List.lt_irrefl q)
      · rw [hfile] at hisDir
        cases hisDir

include hd ht hroot hdir in
/-- A walk comes to its end if nothing fails. -/
theorem trace_ok_iff_not_fails : (trace w d).2 = none ↔ ∀ b cause, ¬ Fails w d b cause := by
  rw [trace_ok_iff (orderly hd ht)]
  constructor
  · rintro ⟨-, hfree⟩ b cause hfails
    obtain ⟨p, -, hblk⟩ := hfails.blocked hd ht hroot hdir
    exact hfree p hblk
  · refine fun hnone => ⟨⟨info, hroot⟩, fun r hblk => ?_⟩
    obtain ⟨cause, hfails⟩ := hblk.fails hd ht
    exact hnone r cause hfails

include hd ht hroot hdir in
/-- The first thing that blocks a walk is the first that fails. -/
theorem Fails.first {b : List Bytes} {cause : Failure} (hfirst : ∀ b', Blocked w d b' → ¬ b' < b)
    (h : Fails w d q cause) : q = b ∨ b < q := by
  obtain ⟨p, hp, hblk⟩ := h.blocked hd ht hroot hdir
  have hle : b ≤ p := List.not_lt.mp (hfirst p hblk)
  rcases List.le_iff_lt_or_eq.mp (List.le_trans hle hp.le) with hlt | heq
  · exact Or.inr hlt
  · exact Or.inl heq.symm

include hd ht hroot hdir in
/-- What comes before the first thing that blocks a walk is visited. -/
theorem mem_trace_before {b : List Bytes} (hblk : Blocked w d b) (hfirst : ∀ b', Blocked w d b' → ¬ b' < b) :
    x ∈ (trace w d).1 ↔ ∃ q, Due w d q x ∧ (q < b ∨ q = b ∧ x.isDir = true) := by
  rw [mem_trace_due hd ht hroot hdir]
  refine exists_congr fun q => and_congr_right fun _ => ⟨fun hbefore => hbefore b hblk, fun hq b' hblk' => ?_⟩
  rcases List.le_iff_lt_or_eq.mp (List.not_lt.mp (hfirst b' hblk')) with hlt | rfl
  · rcases hq with hq | ⟨rfl, -⟩
    · exact Or.inl (List.lt_trans hq hlt)
    · exact Or.inl hlt
  · exact hq

/-- Nothing is due behind a link to a directory. -/
theorem Due.not_behind (hd : d.Sound) {r : List Bytes} (h : Due w d r x) (hlead : LeadsToDir w d q) :
    ¬ q <+: r := by
  intro hpre
  by_cases hqr : q = r
  · exact h.noDetour (hqr ▸ hlead)
  · obtain ⟨k, hk, -⟩ := h.stands
    exact absurd (hlead.1.kind_eq (hk.dir_of_prefix hd hpre hqr)) (by simp)

include hd ht hroot hdir in
/-- The visits are a beginning of the list of all visits that are due. -/
theorem trace_prefix {order : List Visit} (horder : order.Pairwise (·.path < ·.path))
    (hall : ∀ x, x ∈ order ↔ ∃ q, Due w d q x) : (trace w d).1 <+: order := by
  have hmem := fun x => mem_trace_due (x := x) hd ht hroot hdir
  refine prefix_of_pairwise (fun hab hba => List.lt_asymm hab hba)
    (trace_shaped (orderly hd ht).tidy).sorted horder (fun x hx => ?_) fun x hx y hy hlt => ?_
  · obtain ⟨q, hdue, -⟩ := (hmem x).mp hx
    exact (hall x).mpr ⟨q, hdue⟩
  · obtain ⟨q, hdue, hbefore⟩ := (hmem x).mp hx
    obtain ⟨r, hdue'⟩ := (hall y).mp hy
    rw [hdue.path_eq hd, hdue'.path_eq hd] at hlt
    refine (hmem y).mpr ⟨r, hdue', fun b hblk => Or.inl ?_⟩
    rcases hbefore b hblk with hq | ⟨rfl, -⟩
    · exact List.lt_trans hlt hq
    · exact hlt

end Due

/-- **What a walk visits.**  Whatever is done at the visits, as long as nothing of the disk changes and no visit
fails, they are those of one list, which is in depth-first order and names no entry twice.  If the walk comes to
its end, which is when nothing fails, the list has the visits to all entries below the root that are due: those
that stand in the tree, are not excluded and have no excluded directory on the way to them, and are no link to a
directory.  Else the walk ends at the first thing that fails, and the list has the visits that are due before
that, and the visit to it if it is a directory.  Behind a link to a directory nothing is visited.  In both cases
the list is a beginning of the list of all visits that are due. -/
theorem run_visits (hd : d.Sound) (ht : w.tree.Proper) (hroot : w.tree.stat d w.root = .ok info)
    (hdir : info.isDir = true) :
    ∃ xs f,
      (∀ (σ : Type) (see : Visit → σ → σ) (s : σ),
        run w (observer d see) s = (xs.foldl (fun s x => see x s) s, f)) ∧
      xs.Pairwise (fun x y => Ahead x.path y.path) ∧ (xs.map (·.rel)).Nodup ∧
      (f = none ↔ ∀ b cause, ¬ Fails w d b cause) ∧
      (f = none → ∀ x, x ∈ xs ↔ ∃ q, Due w d q x) ∧
      (∀ g, f = some g → ∃ b cause, Fails w d b cause ∧
        g = unreadable (Path.nameAt w.root b) cause ∧
        (∀ b' cause', Fails w d b' cause' → b' = b ∨ Ahead b b') ∧
        ∀ x, x ∈ xs ↔ ∃ q, Due w d q x ∧ (Ahead q b ∨ q = b ∧ x.isDir = true)) ∧
      (∀ q, LeadsToDir w d q → ∀ x ∈ xs, ¬ q <+: x.path) ∧
      ∀ order : List Visit, order.Pairwise (fun x y => Ahead x.path y.path) →
        (∀ x, x ∈ order ↔ ∃ q, Due w d q x) → xs <+: order := by
  have hsorted := (trace_shaped (orderly hd ht).tidy).sorted
  simp only [ahead_iff_lt]
  refine ⟨(trace w d).1, (trace w d).2, fun σ see s => run_observer w d see s, hsorted, ?_,
    trace_ok_iff_not_fails hd ht hroot hdir, fun hok x => ?_, fun g hg => ?_, fun q hlead x hx => ?_,
    fun order => trace_prefix hd ht hroot hdir⟩
  · refine List.pairwise_map.mpr (hsorted.imp fun {x y} hlt heq => ?_)
    rw [Visit.path, heq, ← Visit.path] at hlt
    exact List.lt_irrefl y.path hlt
  · have hfree := ((trace_ok_iff (orderly hd ht)).mp hok).2
    rw [mem_trace_due hd ht hroot hdir]
    exact exists_congr fun q => and_iff_left fun b hblk => absurd hblk (hfree b)
  · obtain ⟨b, cause, -, hblk, hfails, heq, hfirst⟩ := trace_ends hd ht hroot hdir g hg
    have hleast : ∀ b', Blocked w d b' → ¬ b' < b := fun b' => hfirst b' trivial
    exact ⟨b, cause, hfails, heq, fun b' cause' => Fails.first hd ht hroot hdir hleast,
      fun x => mem_trace_before hd ht hroot hdir hblk hleast⟩
  · obtain ⟨r, hdue, -⟩ := (mem_trace_due hd ht hroot hdir).mp hx
    rw [hdue.path_eq hd]
    exact hdue.not_behind hd hlead

/-- A directory with links to a directory and to a file in it, and one that cannot be listed. -/
def linksAndLockedDirectory : Disk :=
  { entries :=
      [([("src" : Bytes)], .dir 0o755),
        ([("src" : Bytes), ("a" : Bytes)], .dir 0o755),
        ([("src" : Bytes), ("a" : Bytes), ("x" : Bytes)], .file 0o644 "1"),
        ([("src" : Bytes), ("a-b" : Bytes)], .file 0o644 "2"),
        ([("src" : Bytes), ("l" : Bytes)], .link "a"),
        ([("src" : Bytes), ("m" : Bytes)], .link "a/x"),
        ([("src" : Bytes), ("y" : Bytes)], .dir 0o000),
        ([("src" : Bytes), ("z" : Bytes)], .file 0o644 "3")] }

/-- With the closed directory excluded all is visited that is due; else the walk ends at that directory. -/
theorem run_visits_linksAndLockedDirectory :
    ((visits ⟨.onDisk "/src", ".", ["y"]⟩ linksAndLockedDirectory).1.map (·.rel) = ["a", "a/x", "a-b", "m", "z"]) ∧
      (∀ b cause, ¬ Fails ⟨.onDisk "/src", ".", ["y"]⟩ linksAndLockedDirectory b cause) ∧
      ((visits ⟨.onDisk "/src", ".", []⟩ linksAndLockedDirectory).1.map (·.rel) = ["a", "a/x", "a-b", "m", "y"]) ∧
      ∃ b cause, Fails ⟨.onDisk "/src", ".", []⟩ linksAndLockedDirectory b cause ∧
        ∀ b' cause', Fails ⟨.onDisk "/src", ".", []⟩ linksAndLockedDirectory b' cause' → b' = b ∨ Ahead b b' := by
  have hsound : linksAndLockedDirectory.Sound := sound_of_entries (by decide)
  have hstat : (Tree.onDisk "/src").stat linksAndLockedDirectory "." = .ok ⟨true, 0o755⟩ := by rfl
  obtain ⟨xs, f, hrun, -, -, hok, -⟩ :=
    run_visits (w := ⟨.onDisk "/src", ".", ["y"]⟩) hsound trivial hstat rfl
  obtain ⟨ys, g, hrun', -, -, -, -, hends, -⟩ :=
    run_visits (w := ⟨.onDisk "/src", ".", []⟩) hsound trivial hstat rfl
  have hf : (visits ⟨.onDisk "/src", ".", ["y"]⟩ linksAndLockedDirectory).2.isNone = true := by decide +kernel
  have hg : (visits ⟨.onDisk "/src", ".", []⟩ linksAndLockedDirectory).2.isSome = true := by decide +kernel
  rw [visits, hrun, Option.isNone_iff_eq_none] at hf
  rw [visits, hrun'] at hg
  obtain ⟨failure, hfailure⟩ := Option.isSome_iff_exists.mp hg
  obtain ⟨b, cause, hfails, -, hfirst, -⟩ := hends failure hfailure
  exact ⟨by decide +kernel, hok.mp hf, by decide +kernel, b, cause, hfails, hfirst⟩

end Walk

end AgentKit
