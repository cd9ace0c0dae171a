import AgentKit.Proofs.Names
import AgentKit.Proofs.Order
/-!
# What is at a place

All that a disk means is in `Disk.get?`: two disks with the same entry at every place cannot be told apart
by anything that looks at places.  This module gives the laws of `get?` under the changes a disk can
undergo, and shows that a listing, although it is made from the list of entries, depends on `get?` only
(`listing_congr`).

The entries are a list, so that disks can be written down and computed with.  A list can hold two entries for
one place, of which the first counts, and it has an order that means nothing.  Behind these laws nobody sees
that any more, and `Same` is what it means for two disks to be equal.

A disk of this model may hold entries that no file system has, such as a file inside a file.  `Sound` says
that it does not.
-/

namespace AgentKit

section

variable {α β : Type} [BEq α] [LawfulBEq α]

theorem mem_of_lookup {a : α} {b : β} {l : List (α × β)} (h : l.lookup a = some b) : (a, b) ∈ l := by
  rw [List.lookup_eq_some_iff] at h
  obtain ⟨l₁, l₂, rfl, _⟩ := h
  simp

variable [DecidableEq α]

/-- The library states this law with a test of its own; here the test is an equation, so that cases can be split
on it. -/
theorem lookup_cons_if (q r : α) (f : β) (l : List (α × β)) :
    ((r, f) :: l).lookup q = if q = r then some f else l.lookup q := by
  rw [List.lookup_cons]
  by_cases h : q = r
  · rw [if_pos h, h, beq_self_eq_true]
  · rw [if_neg h, beq_eq_false_iff_ne.mpr h]

/-- Taking all entries of a place away leaves the others as they are, those that come first and those behind. -/
theorem lookup_filter_ne (p q : α) : ∀ l : List (α × β),
    (l.filter (·.1 ≠ p)).lookup q = if q = p then none else l.lookup q
  | [] => by simp
  | (r, f) :: l => by
    have ih := lookup_filter_ne p q l
    by_cases hr : r = p
    · subst hr
      rw [List.filter_cons_of_neg (by simp), ih, lookup_cons_if]
      by_cases h : q = r
      · rw [if_pos h, if_pos h]
      · rw [if_neg h, if_neg h, if_neg h]
    · rw [List.filter_cons_of_pos (by simpa using hr), lookup_cons_if, ih, lookup_cons_if]
      by_cases hqr : q = r
      · subst hqr
        rw [if_pos rfl, if_neg hr, if_pos rfl]
      · rw [if_neg hqr, if_neg hqr]

end

namespace Disk

variable {d d' : Disk} {p q : Place} {e : Entry}

/-! ## 1. Entries

One law for each change to a disk: `put` and `erase` decide at one place and leave all others.  Everything that
later modules know of a change, they know from these two. -/

/-- The top directory is always there, whatever the entries say. -/
@[simp] theorem get?_root (d : Disk) : d.get? [] = some (.dir rootMode) := rfl

theorem get?_of_ne (h : p ≠ []) : d.get? p = d.entries.lookup p := by
  rw [get?, if_neg h]

/-- **What is put is found, and nothing else changes.**  An entry is replaced where it stands, not put in front,
so that the list does not grow with every write. -/
theorem lookup_putIn (p q : Place) (e : Entry) : ∀ l : List (Place × Entry),
    (putIn p e l).lookup q = if q = p then some e else l.lookup q
  | [] => lookup_cons_if q p e []
  | (r, f) :: l => by
    rw [putIn]
    by_cases hr : r = p
    · subst hr
      rw [if_pos rfl, lookup_cons_if, lookup_cons_if]
      by_cases h : q = r
      · rw [if_pos h, if_pos h]
      · rw [if_neg h, if_neg h, if_neg h]
    · rw [if_neg hr, lookup_cons_if, lookup_putIn p q e l, lookup_cons_if]
      by_cases hqr : q = r
      · subst hqr
        rw [if_pos rfl, if_neg hr, if_pos rfl]
      · rw [if_neg hqr, if_neg hqr]

theorem get?_put (d : Disk) (e : Entry) (q : Place) (h : p ≠ []) :
    (d.put p e).get? q = if q = p then some e else d.get? q := by
  by_cases hq : q = []
  · subst hq
    rw [if_neg (Ne.symm h), get?_root, get?_root]
  · rw [get?_of_ne hq, get?_of_ne hq]
    exact lookup_putIn p q e d.entries

theorem get?_put_self (d : Disk) (e : Entry) (h : p ≠ []) : (d.put p e).get? p = some e := by
  rw [get?_put d e p h, if_pos rfl]

/-- What is erased is gone, also where the list has further entries for the place. -/
theorem get?_erase (d : Disk) (q : Place) (h : p ≠ []) :
    (d.erase p).get? q = if q = p then none else d.get? q := by
  by_cases hq : q = []
  · subst hq
    rw [if_neg (Ne.symm h), get?_root, get?_root]
  · rw [get?_of_ne hq, get?_of_ne hq]
    exact lookup_filter_ne p q d.entries

/-! ## 2. Listings

Listings are computed from the entries, in whatever order these are written down, and then sorted.  To compare
the listings of two disks it is enough to compare what is at the places directly inside, one by one. -/

theorem exists_lookup_iff : ∀ l : List (Place × Entry),
    (∃ e, l.lookup p = some e) ↔ ∃ x ∈ l, x.1 = p
  | [] => by simp
  | (r, f) :: l => by
    have ih := exists_lookup_iff l
    rw [lookup_cons_if]
    by_cases h : p = r
    · subst h
      simp
    · rw [if_neg h, ih]
      simp [Ne.symm h]

/-- A place has a name in another exactly if it is directly inside it. -/
theorem childName?_eq_some {n : Bytes} : childName? p q = some n ↔ q = p ++ [n] := by
  unfold childName?
  split
  · rename_i m hm
    obtain ⟨init, rfl⟩ := List.getLast?_eq_some_iff.mp hm
    rw [List.dropLast_concat]
    by_cases h : init = p
    · subst h
      simp
    · simp [h]
  · rename_i hm
    rw [List.getLast?_eq_none_iff] at hm
    subst hm
    simp

/-- **A name is listed exactly if something is there.** -/
theorem mem_children {n : Bytes} : n ∈ d.children p ↔ ∃ e, d.get? (p ++ [n]) = some e := by
  rw [get?_of_ne (by simp), exists_lookup_iff]
  simp only [children, Bytes.mem_sort, List.mem_eraseDups, List.mem_filterMap, childName?_eq_some]

theorem children_ascending (d : Disk) (p : Place) : (d.children p).Pairwise (· < ·) :=
  Bytes.sort_pairwise_lt (nodup_eraseDups _)

/-- The names depend on what is there, not on how the list of entries is arranged.  Both lists are sorted, and
they have the same members. -/
theorem children_congr (h : ∀ n, d'.get? (p ++ [n]) = d.get? (p ++ [n])) :
    d'.children p = d.children p := by
  refine Bytes.sort_eq_of_mem_iff (nodup_eraseDups _) (nodup_eraseDups _) fun n => ?_
  have hd : n ∈ d.children p ↔ ∃ e, d.get? (p ++ [n]) = some e := mem_children
  have hd' : n ∈ d'.children p ↔ ∃ e, d'.get? (p ++ [n]) = some e := mem_children
  rw [children, Bytes.mem_sort] at hd hd'
  rw [hd, hd', h n]

/-- A listing says of each name what kind of entry is there.  It does not follow links. -/
theorem mem_listing {n : Bytes} {k : Kind} :
    (n, k) ∈ d.listing p ↔ ∃ e, d.get? (p ++ [n]) = some e ∧ e.kind = k := by
  simp only [listing, List.mem_filterMap, Option.map_eq_some_iff, Prod.mk.injEq]
  constructor
  · rintro ⟨m, -, e, he, rfl, hk⟩
    exact ⟨e, he, hk⟩
  · rintro ⟨e, he, hk⟩
    exact ⟨n, mem_children.mpr ⟨e, he⟩, e, he, rfl, hk⟩

/-- A listing shows what is directly inside a place and nothing else. -/
theorem listing_congr (h : ∀ n, d'.get? (p ++ [n]) = d.get? (p ++ [n])) :
    d'.listing p = d.listing p := by
  rw [listing, listing, children_congr h]
  exact List.filterMap_congr fun n _ => by rw [h n]

/-! ## 3. Sound disks, and disks that are the same

Soundness is asked for wherever a listing is read as names of a path, and wherever something is concluded about a
place from what is below it.  No call of the model breaks it; that is shown with the calls. -/

/-- Places are made of names, and what holds something is a directory.  Every file system is so. -/
structure Sound (d : Disk) : Prop where
  names : ∀ p e, d.get? p = some e → ∀ n ∈ p, Path.IsName n
  parents : ∀ p n e, d.get? (p ++ [n]) = some e → ∃ m, d.get? p = some (.dir m)

/-- The same is at every place: the same entries with the same content and modes. -/
structure Same (d d' : Disk) : Prop where
  here : d.here = d'.here
  get? : ∀ p, d.get? p = d'.get? p

theorem Sound.listing_isName (hd : d.Sound) {n : Bytes} {k : Kind} (h : (n, k) ∈ d.listing p) :
    Path.IsName n := by
  obtain ⟨e, he, -⟩ := mem_listing.mp h
  exact hd.names _ e he n (by simp)

theorem Sound.names_below {r : Place} (hd : d.Sound) (h : d.get? (p ++ r) = some e) :
    ∀ n ∈ r, Path.IsName n :=
  fun n hn => hd.names _ e h n (List.mem_append_right p hn)

/-- On a sound disk everything on the way to something is a directory. -/
theorem Sound.dir_of_prefix (hd : d.Sound) : ∀ {r : Place}, r ≠ [] → d.get? (p ++ r) = some e →
    ∃ m, d.get? p = some (.dir m) := by
  intro r
  -- One level up at a time, from the entry to `p`.
  induction r using List.reverseRecOn generalizing e with
  | nil => exact fun h => absurd rfl h
  | append_singleton r n ih =>
    intro _ h
    rw [← List.append_assoc] at h
    obtain ⟨m, hm⟩ := hd.parents _ n e h
    by_cases hr : r = []
    · subst hr
      rw [List.append_nil] at hm
      exact ⟨m, hm⟩
    · exact ih hr hm

/-- Below a place where there is nothing there is nothing. -/
theorem Sound.get?_below (hd : d.Sound) (hp : d.get? p = none) (r : Place) : d.get? (p ++ r) = none := by
  by_cases hr : r = []
  · rwa [hr, List.append_nil]
  · by_contra hne
    obtain ⟨e, he⟩ := Option.ne_none_iff_exists'.mp hne
    obtain ⟨m, hm⟩ := hd.dir_of_prefix hr he
    rw [hp] at hm
    cases hm

/-- What is at a place other than the top is written down in the list. -/
theorem mem_entries (hp : p ≠ []) (h : d.get? p = some e) : (p, e) ∈ d.entries := by
  rw [get?_of_ne hp] at h
  obtain ⟨before, behind, hsplit, -⟩ := List.lookup_eq_some_iff.mp h
  rw [hsplit]
  simp

theorem link_mem_entries {t : Bytes} (h : d.get? p = some (.link t)) : (p, .link t) ∈ d.entries := by
  refine mem_entries ?_ h
  rintro rfl
  simp at h

/-- Whether a disk is sound can be read off its entries.  That is a finite test, so for a given disk it can be
decided. -/
theorem sound_of_entries (h : ∀ x ∈ d.entries, (∀ n ∈ x.1, Path.IsName n) ∧
    (d.get? x.1.dropLast).map Entry.kind = some .dir) : d.Sound := by
  have hkind : ∀ q, (d.get? q).map Entry.kind = some .dir → ∃ m, d.get? q = some (.dir m) := by
    intro q hq
    obtain ⟨e, he, hk⟩ := Option.map_eq_some_iff.mp hq
    cases e with
    | dir m => exact ⟨m, he⟩
    | file m c => cases hk
    | link t => cases hk
  constructor
  · intro p e he n hn
    exact (h _ (mem_entries (List.ne_nil_of_mem hn) he)).1 n hn
  · intro p n e he
    have hmem := (h _ (mem_entries (by simp) he)).2
    rw [List.dropLast_concat] at hmem
    exact hkind p hmem

end Disk

end AgentKit
