import AgentKit.Text.Bytes
import Mathlib.Data.List.Sort
/-!
# The order of texts, and sorted lists

Listings and reports are sorted, so two of them are the same list as soon as they have the same members:
a list of distinct texts has one ascending arrangement (`Bytes.sort_eq_of_mem_iff`).  That is how the
later modules compare listings of two disks and reports of two runs, without following the order in
which anything was found.

`sortBy` is insertion sort, so its laws are the library's; `Bytes.le` is the library's order of lists.
-/

namespace AgentKit

/-! ## 1. Sorting by a given order -/

section SortBy

variable {α β : Type} (le : α → α → Bool)

/-- Insertion is the library's, with the order as a test. -/
theorem insertBy_eq_orderedInsert (x : α) : ∀ ys : List α,
    insertBy le x ys = ys.orderedInsert (fun a b => le a b = true) x
  | [] => rfl
  | y :: ys => by
    rw [insertBy, List.orderedInsert, insertBy_eq_orderedInsert x ys]

theorem sortBy_eq_insertionSort : ∀ xs : List α,
    sortBy le xs = xs.insertionSort (fun a b => le a b = true)
  | [] => rfl
  | x :: xs => by
    rw [sortBy, List.insertionSort_cons, sortBy_eq_insertionSort xs, insertBy_eq_orderedInsert]

/-- Sorting loses nothing and invents nothing. -/
theorem sortBy_perm (xs : List α) : (sortBy le xs).Perm xs := by
  rw [sortBy_eq_insertionSort]
  exact List.perm_insertionSort _ xs

@[simp] theorem mem_sortBy {xs : List α} {a : α} : a ∈ sortBy le xs ↔ a ∈ xs :=
  (sortBy_perm le xs).mem_iff

@[simp] theorem length_sortBy (xs : List α) : (sortBy le xs).length = xs.length :=
  (sortBy_perm le xs).length_eq

/-- Sorting by a key sorts the keys. -/
theorem map_sortBy (f : β → α) : ∀ xs : List β,
    (sortBy (fun a b => le (f a) (f b)) xs).map f = sortBy le (xs.map f)
  | [] => rfl
  | x :: xs => by
    rw [sortBy, List.map_cons, sortBy, ← map_sortBy f xs]
    -- What was sorted already is any list; the argument is about inserting into it.
    generalize sortBy (fun a b => le (f a) (f b)) xs = ys
    induction ys with
    | nil => rfl
    | cons y ys ih =>
      simp only [insertBy, List.map_cons]
      split
      · rfl
      · rw [List.map_cons, ih]

end SortBy

/-- Erasing repetitions leaves none.  Listings and counts erase them before they sort, so what they show is
strictly ascending. -/
theorem nodup_eraseDups {α : Type} [BEq α] [LawfulBEq α] : ∀ xs : List α, xs.eraseDups.Nodup
  | [] => List.nodup_nil
  | x :: xs => by
    rw [List.eraseDups_cons]
    refine List.nodup_cons.mpr ⟨?_, nodup_eraseDups _⟩
    rw [List.mem_eraseDups, List.mem_filter]
    rintro ⟨-, h⟩
    simp at h
  termination_by xs => xs.length
  decreasing_by exact Nat.lt_succ_of_le (List.length_filter_le _ _)

namespace Bytes

/-! ## 2. The order of texts -/

/-- The comparison of texts is the library's order of lists of bytes, byte by byte. -/
theorem le_iff : ∀ s t : Bytes, Bytes.le s t = true ↔ s ≤ t
  | [], t => by simp [Bytes.le]
  | a :: s, [] => by simp [Bytes.le]
  | a :: s, b :: t => by
    rw [Bytes.le, List.cons_le_cons_iff]
    split
    · rename_i hab
      exact ⟨fun _ => Or.inl hab, fun _ => rfl⟩
    · rename_i hab
      split
      · rename_i hba
        refine ⟨fun h => absurd h Bool.false_ne_true, ?_⟩
        rintro (h | ⟨rfl, -⟩)
        · exact absurd h hab
        · exact absurd hba hab
      · rename_i hba
        -- Neither byte is less, so they are the same and the rest decides.
        have hEq : a = b := UInt8.le_antisymm (UInt8.not_lt.mp hba) (UInt8.not_lt.mp hab)
        rw [le_iff s t]
        exact ⟨fun h => Or.inr ⟨hEq, h⟩, fun h => h.elim (fun h => absurd h hab) And.right⟩

/-- The order is total, so what is at most another text and not the same is less. -/
theorem lt_of_le_of_ne {s t : Bytes} (h : s ≤ t) (hne : s ≠ t) : s < t := by
  rcases List.le_total t s with h' | h'
  · exact absurd (List.le_antisymm h h') hne
  · exact Decidable.byContradiction fun hlt => hne (List.le_antisymm h (List.not_lt.mp hlt))

theorem sort_pairwise_le (xs : List Bytes) : (Bytes.sort xs).Pairwise (· ≤ ·) := by
  have htotal : Std.Total (fun a b : Bytes => Bytes.le a b = true) :=
    ⟨fun a b => by simpa only [le_iff] using List.le_total a b⟩
  have htrans : IsTrans Bytes (fun a b => Bytes.le a b = true) :=
    ⟨fun a b c hab hbc => by
      rw [le_iff] at hab hbc ⊢
      exact List.le_trans hab hbc⟩
  rw [Bytes.sort, sortBy_eq_insertionSort]
  exact (List.pairwise_insertionSort _ xs).imp fun h => (le_iff _ _).mp h

@[simp] theorem mem_sort {xs : List Bytes} {a : Bytes} : a ∈ Bytes.sort xs ↔ a ∈ xs :=
  mem_sortBy _

@[simp] theorem length_sort (xs : List Bytes) : (Bytes.sort xs).length = xs.length :=
  length_sortBy _ xs

theorem sort_nodup {xs : List Bytes} (h : xs.Nodup) : (Bytes.sort xs).Nodup :=
  (sortBy_perm _ xs).nodup_iff.mpr h

/-- **Distinct texts are sorted strictly.** -/
theorem sort_pairwise_lt {xs : List Bytes} (h : xs.Nodup) : (Bytes.sort xs).Pairwise (· < ·) :=
  ((sort_pairwise_le xs).and (sort_nodup h)).imp fun h => lt_of_le_of_ne h.1 h.2

/-- **Distinct texts have one ascending arrangement.** -/
theorem sort_eq_of_mem_iff {xs ys : List Bytes} (hx : xs.Nodup) (hy : ys.Nodup)
    (h : ∀ a, a ∈ xs ↔ a ∈ ys) : Bytes.sort xs = Bytes.sort ys := by
  refine List.Perm.eq_of_pairwise (fun _ _ _ _ => List.le_antisymm) (sort_pairwise_le xs)
    (sort_pairwise_le ys) ?_
  rw [List.perm_ext_iff_of_nodup (sort_nodup hx) (sort_nodup hy)]
  simpa only [mem_sort] using h

end Bytes

end AgentKit
