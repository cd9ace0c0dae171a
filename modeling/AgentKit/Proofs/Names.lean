import AgentKit.Tree
import Mathlib.Data.List.Basic
import Mathlib.Data.List.Induction
/-!
# Paths as lists of names

A path is text, and everything the program does with paths it does to their text: it puts a slash between
two of them, takes dots away, cuts off the last name.  What the text leads to depends on its names only.
This module turns the operations on text into operations on lists of names:

* splitting and joining are inverse to each other (`names_join`, `join_splitOn`);
* the path of something below a directory has the clean names of the directory and then its own
  (`below_join`), and its parent has one name less (`parentPath?_spell`);
* an item that a walk comes to is named by the names on the way to it (`nameAt`), and seen from where
  the walk started these names are all there is (`relativeTo_nameAt`).

A **name** is what can stand between slashes in a listing: it is not empty, has no slash and is no dots.

Most lemmas do not ask for names.  They ask for parts that are not empty and have no slash, since that is
what splitting leaves, and `..` is such a part.  Where dots matter is in cleaning: there `..` takes the part
before it away, and only a path from the root is sure to have none left (`foldl_cleanStep_isName`).  Nearly all
modules behind this one know paths by their names only.
-/

namespace AgentKit

/-! ## 1. Splitting and joining

Splitting is the library's `List.splitOn` and joining its `intercalate`, so most of this is a matter of saying
so.  What remains are the conditions: joining loses how many parts there were if a part has a slash in
it, and the empty list is joined to the same text as a list of one empty part. -/

theorem slash_eq : Bytes.ofString "/" = [byte '/'] := rfl

namespace Bytes

/-- Splitting is the library's, so that its laws are the library's as well. -/
theorem splitOn_eq (sep : UInt8) : ∀ t : Bytes, splitOn sep t = List.splitOn sep t
  | [] => rfl
  | b :: t => by
    rw [splitOn, List.splitOn_cons_eq_if_modifyHead, splitOn_eq sep t]
    by_cases hb : b = sep
    · rw [if_pos hb, if_pos (beq_iff_eq.mpr hb)]
    · rw [if_neg hb, if_neg fun h => hb (beq_iff_eq.mp h)]
      cases h : List.splitOn sep t with
      | nil => exact absurd h (List.splitOn_ne_nil sep t)
      | cons p ps => rfl

/-- Even the empty text has a part, which is empty.  So the branch for no parts at all in the definition is never
taken. -/
theorem splitOn_ne_nil (sep : UInt8) (t : Bytes) : splitOn sep t ≠ [] := by
  rw [splitOn_eq]
  exact List.splitOn_ne_nil sep t

theorem splitOn_of_not_mem {sep : UInt8} {t : Bytes} (h : sep ∉ t) : splitOn sep t = [t] := by
  rw [splitOn_eq]
  exact List.splitOn_eq_singleton h

/-- A separator can be split at first, wherever it is.  This is what lets paths be taken apart at the slash that
was put into them, without a look at the slashes that they had before. -/
theorem splitOn_append_cons (sep : UInt8) (b a : Bytes) :
    splitOn sep (a ++ sep :: b) = splitOn sep a ++ splitOn sep b := by
  rw [splitOn_eq, splitOn_eq, splitOn_eq, List.splitOn_append_cons_self]

/-- A part has no separator in it.  The library has no such law, so this one goes along the text. -/
theorem not_mem_of_mem_splitOn {sep : UInt8} : ∀ {t p : Bytes}, p ∈ splitOn sep t → sep ∉ p
  | [], p, h => by
    simp only [splitOn, List.mem_singleton] at h
    simp [h]
  | b :: t, p, h => by
    rw [splitOn] at h
    split at h
    · rcases List.mem_cons.mp h with rfl | h
      · simp
      · exact not_mem_of_mem_splitOn h
    · rename_i hb
      cases hs : splitOn sep t with
      | nil => exact absurd hs (splitOn_ne_nil sep t)
      | cons q qs =>
        rw [hs] at h
        rcases List.mem_cons.mp h with rfl | h
        · -- The byte that is no separator goes to the front of the first part of the rest.
          have hq : sep ∉ q := not_mem_of_mem_splitOn (t := t) (by rw [hs]; simp)
          simp [Ne.symm hb, hq]
        · exact not_mem_of_mem_splitOn (t := t) (by rw [hs]; exact List.mem_cons_of_mem _ h)

/-- A text is cut at the first separator, so what stands before must have none. -/
theorem cut_append {sep : UInt8} (a b : Bytes) (h : sep ∉ a) : cut sep (a ++ sep :: b) = some (a, b) := by
  induction a with
  | nil => simp [cut]
  | cons x a ih =>
    rw [List.mem_cons, not_or] at h
    simp [cut, Ne.symm h.1, ih h.2]

theorem cut_of_notMem {sep : UInt8} {t : Bytes} (h : sep ∉ t) : cut sep t = none := by
  induction t with
  | nil => rfl
  | cons x t ih =>
    rw [List.mem_cons, not_or] at h
    simp [cut, Ne.symm h.1, ih h.2]

end Bytes

namespace Path

@[simp] theorem join_nil : join [] = [] := rfl

@[simp] theorem join_singleton (n : Bytes) : join [n] = n := by
  simp [join, Bytes.joinWith, List.intercalate]

/-- One step of joining, in the shape in which the induction over a list of names meets it. -/
theorem join_cons_cons (n m : Bytes) (ns : List Bytes) :
    join (n :: m :: ns) = n ++ byte '/' :: join (m :: ns) := by
  simp [join, Bytes.joinWith, List.intercalate, slash_eq]

theorem join_cons {ns : List Bytes} (n : Bytes) (h : ns ≠ []) :
    join (n :: ns) = n ++ byte '/' :: join ns := by
  cases ns with
  | nil => exact absurd rfl h
  | cons m ns => exact join_cons_cons n m ns

/-- Lists that are not empty are joined by joining each and a slash between.  With an empty list there would be a
slash too many, hence both conditions. -/
theorem join_append {ms : List Bytes} (hm : ms ≠ []) : ∀ {ns : List Bytes}, ns ≠ [] →
    join (ns ++ ms) = join ns ++ byte '/' :: join ms
  | [], h => absurd rfl h
  | [n], _ => by rw [List.singleton_append, join_cons n hm, join_singleton]
  | n :: m :: ns, _ => by
    have ih := join_append hm (List.cons_ne_nil m ns)
    rw [List.cons_append, join_cons n (by simp), ih, join_cons_cons]
    simp

/-- Parts without slashes are found again.  The empty list is left out: it is joined to the empty text, which has
one empty part. -/
theorem splitOn_join {ns : List Bytes} (hne : ns ≠ []) (h : ∀ n ∈ ns, byte '/' ∉ n) :
    Bytes.splitOn (byte '/') (join ns) = ns := by
  rw [Bytes.splitOn_eq]
  exact List.splitOn_intercalate (byte '/') h hne

/-- Any text is its parts joined, with no condition. -/
theorem join_splitOn (t : Bytes) : join (Bytes.splitOn (byte '/') t) = t := by
  rw [Bytes.splitOn_eq]
  exact List.intercalate_splitOn (byte '/')

/-! ## 2. Names

Three kinds of text come close to each other.  Splitting leaves *parts*, which may be empty; `Path.names` leaves
those that are not, `..` and `.` among them; and a *name* is one of these that is no dots.  A tree accepts only
names, and the system follows all of the second kind. -/

/-- What can stand between slashes in a listing. -/
structure IsName (n : Bytes) : Prop where
  ne_nil : n ≠ []
  no_slash : byte '/' ∉ n
  ne_dot : n ≠ "."
  ne_up : n ≠ ".."

instance (n : Bytes) : Decidable (IsName n) :=
  decidable_of_iff (n ≠ [] ∧ byte '/' ∉ n ∧ n ≠ Bytes.ofString "." ∧ n ≠ Bytes.ofString "..")
    ⟨fun ⟨h1, h2, h3, h4⟩ => ⟨h1, h2, h3, h4⟩, fun ⟨h1, h2, h3, h4⟩ => ⟨h1, h2, h3, h4⟩⟩

/-- All that splitting guarantees of a part: dots are not ruled out. -/
theorem mem_names {t n : Bytes} (h : n ∈ names t) : n ≠ [] ∧ byte '/' ∉ n := by
  rw [names, List.mem_filter] at h
  refine ⟨?_, Bytes.not_mem_of_mem_splitOn h.1⟩
  rintro rfl
  exact absurd h.2 (by simp)

/-- **Joined parts are read as these parts.**  Here the empty list is no exception, for empty parts are left out. -/
theorem names_join {ns : List Bytes} (h : ∀ n ∈ ns, n ≠ [] ∧ byte '/' ∉ n) :
    names (join ns) = ns := by
  by_cases hns : ns = []
  · subst hns
    rfl
  · rw [names, splitOn_join hns fun n hn => (h n hn).2]
    refine List.filter_eq_self.mpr fun n hn => ?_
    simpa using (h n hn).1

/-- A slash in the middle separates, however many slashes stand around it. -/
theorem names_append_slash (a b : Bytes) : names (a ++ byte '/' :: b) = names a ++ names b := by
  rw [names, Bytes.splitOn_append_cons, List.filter_append]
  rfl

/-- A text that may name something in a tree is well-formed, and is a dot or names joined by slashes. -/
theorem isTreeName_iff {t : Bytes} : isTreeName t = true ↔
    Utf8.isValid t = true ∧ (t = "." ∨ ∃ ns, ns ≠ [] ∧ (∀ n ∈ ns, IsName n) ∧ t = join ns) := by
  -- What is tested for each part is what a name is, but for the slash, which no part has.
  have hall : (Bytes.splitOn (byte '/') t).all
      (fun n => !n.isEmpty && n ≠ Bytes.ofString "." && n ≠ Bytes.ofString "..") = true ↔
      ∀ n ∈ Bytes.splitOn (byte '/') t, IsName n := by
    rw [List.all_eq_true]
    refine forall₂_congr fun n hn => ?_
    have hs := Bytes.not_mem_of_mem_splitOn hn
    simp only [Bool.and_eq_true, Bool.not_eq_true', List.isEmpty_eq_false_iff, decide_eq_true_eq]
    exact ⟨fun h => ⟨h.1.1, hs, h.1.2, h.2⟩, fun h => ⟨⟨h.ne_nil, h.ne_dot⟩, h.ne_up⟩⟩
  simp only [isTreeName, Bool.and_eq_true, Bool.or_eq_true, decide_eq_true_eq]
  refine and_congr_right fun _ => or_congr_right (hall.trans ⟨fun h => ?_, ?_⟩)
  · exact ⟨_, Bytes.splitOn_ne_nil _ t, h, (join_splitOn t).symm⟩
  · rintro ⟨ns, hne, h, rfl⟩
    rw [splitOn_join hne fun n hn => (h n hn).no_slash]
    exact h

/-! ## 3. Clean paths

Cleaning works on the list of names, from the front, with what is kept so far in reverse.  So what is said of it
is said of one step and then of the fold.  The result of the fold is spelled as text (`spell`), and every path
that the program makes is spelled in this way sooner or later. -/

/-- The text of a clean path with given names.  There is no third way for a path to be clean: it starts at the
root, or it does not, and if there is nothing to say it is a dot. -/
def spell (absolute : Bool) (ns : List Bytes) : Bytes :=
  if absolute then byte '/' :: join ns else if (join ns).isEmpty then "." else join ns

theorem clean_eq_spell (t : Bytes) : clean t = spell (isAbsolute t) (cleanNames t) := rfl

/-- A cleaned path is never empty, so it can be handed to the system, which takes no empty path. -/
theorem clean_ne_nil (t : Bytes) : clean t ≠ [] := by
  rw [clean_eq_spell, spell]
  split
  · simp
  · split
    · decide
    · rename_i h
      exact List.isEmpty_eq_false_iff.mp (by simpa using h)

theorem join_eq_nil {ns : List Bytes} (h : ∀ n ∈ ns, n ≠ [] ∧ byte '/' ∉ n) (hj : join ns = []) :
    ns = [] := by
  rw [← names_join h, hj]
  rfl

theorem spell_of_ne_nil {ns : List Bytes} (absolute : Bool) (hne : ns ≠ [])
    (h : ∀ n ∈ ns, n ≠ [] ∧ byte '/' ∉ n) :
    spell absolute ns = if absolute then byte '/' :: join ns else join ns := by
  have hj : (join ns).isEmpty = false :=
    List.isEmpty_eq_false_iff.mpr fun hj => hne (join_eq_nil h hj)
  rw [spell, hj]
  rfl

theorem names_spell {ns : List Bytes} (absolute : Bool) (hne : ns ≠ [])
    (h : ∀ n ∈ ns, n ≠ [] ∧ byte '/' ∉ n) : names (spell absolute ns) = ns := by
  rw [spell_of_ne_nil absolute hne h]
  cases absolute with
  | false => exact names_join h
  | true => exact (names_append_slash [] (join ns)).trans (names_join h)

/-- Joined parts do not start with a slash, so they do not make an absolute path. -/
theorem head?_join {ns : List Bytes} (h : ∀ n ∈ ns, n ≠ [] ∧ byte '/' ∉ n) :
    (join ns).head? ≠ some (byte '/') := by
  cases ns with
  | nil => simp
  | cons n ns =>
    obtain ⟨hn, hs⟩ := h n (by simp)
    obtain ⟨b, n, rfl⟩ := List.exists_cons_of_ne_nil hn
    have hb : b ≠ byte '/' := fun hb => hs (by simp [hb])
    cases ns with
    | nil => simpa using hb
    | cons m ns => simpa [join_cons_cons] using hb

theorem isAbsolute_spell {ns : List Bytes} (absolute : Bool) (hne : ns ≠ [])
    (h : ∀ n ∈ ns, n ≠ [] ∧ byte '/' ∉ n) : isAbsolute (spell absolute ns) = absolute := by
  rw [spell_of_ne_nil absolute hne h]
  cases absolute with
  | true => rfl
  | false => simpa [isAbsolute] using head?_join h

theorem getLast?_join : ∀ {ns : List Bytes}, (∀ n ∈ ns, n ≠ [] ∧ byte '/' ∉ n) →
    (join ns).getLast? ≠ some (byte '/')
  | [], _ => by simp
  | [n], h => by
    rw [join_singleton]
    exact fun hl => (h n (by simp)).2 (List.mem_of_getLast? hl)
  | n :: m :: ns, h => by
    have h' : ∀ k ∈ m :: ns, k ≠ [] ∧ byte '/' ∉ k := fun k hk => h k (List.mem_cons_of_mem _ hk)
    have hne : join (m :: ns) ≠ [] := fun hj => List.cons_ne_nil m ns (join_eq_nil h' hj)
    have hcons : (byte '/' :: join (m :: ns)).getLast? = (join (m :: ns)).getLast? :=
      List.getLast?_append_of_ne_nil [byte '/'] hne
    rw [join_cons_cons, List.getLast?_append_of_ne_nil _ (by simp), hcons]
    exact getLast?_join h'

/-- A spelled path has no slash at its end, so no call will insist on a directory because of it. -/
theorem hasTrailingSlash_spell {ns : List Bytes} (absolute : Bool) (hne : ns ≠ [])
    (h : ∀ n ∈ ns, n ≠ [] ∧ byte '/' ∉ n) : hasTrailingSlash (spell absolute ns) = false := by
  have hj : join ns ≠ [] := fun hj => hne (join_eq_nil h hj)
  rw [spell_of_ne_nil absolute hne h]
  cases absolute with
  | false => simpa [hasTrailingSlash] using getLast?_join h
  | true =>
    have hcons : (byte '/' :: join ns).getLast? = (join ns).getLast? :=
      List.getLast?_append_of_ne_nil [byte '/'] hj
    simpa [hasTrailingSlash, hcons] using getLast?_join h

/-- Taking dots away invents no name. -/
theorem cleanStep_forall {P : Bytes → Prop} {absolute : Bool} {before : List Bytes} {name : Bytes}
    (hb : ∀ n ∈ before, P n) (hn : P name) : ∀ n ∈ cleanStep absolute before name, P n := by
  unfold cleanStep
  split
  · exact hb
  · -- A part is kept, or it is dropped, or it takes the part before it away.  Each of the three leaves parts
    -- that were there.
    split
    · split
      · split
        · simp
        · simpa using hn
      · split
        · exact List.forall_mem_cons.mpr ⟨hn, hb⟩
        · exact fun n h => hb n (List.mem_cons_of_mem _ h)
    · exact List.forall_mem_cons.mpr ⟨hn, hb⟩

theorem foldl_cleanStep_forall {P : Bytes → Prop} {absolute : Bool} : ∀ (ns before : List Bytes),
    (∀ n ∈ before, P n) → (∀ n ∈ ns, P n) → ∀ n ∈ ns.foldl (cleanStep absolute) before, P n
  | [], _, hb, _ => hb
  | n :: ns, before, hb, h =>
    foldl_cleanStep_forall ns _ (cleanStep_forall hb (h n (by simp)))
      fun k hk => h k (List.mem_cons_of_mem _ hk)

theorem mem_cleanNames {t n : Bytes} (h : n ∈ cleanNames t) : n ≠ [] ∧ byte '/' ∉ n :=
  foldl_cleanStep_forall (P := fun n => n ≠ [] ∧ byte '/' ∉ n) (names t) [] (by simp)
    (fun _ hn => mem_names hn) n (List.mem_reverse.mp h)

/-- Names that are no dots are taken as they are. -/
theorem foldl_cleanStep_names {absolute : Bool} : ∀ (q before : List Bytes), (∀ n ∈ q, IsName n) →
    q.foldl (cleanStep absolute) before = q.reverse ++ before
  | [], _, _ => rfl
  | n :: q, before, h => by
    have hn := h n (by simp)
    -- A name is neither dot, so the step has only one thing to do.
    have hstep : cleanStep absolute before n = n :: before := by
      unfold cleanStep
      rw [if_neg hn.ne_dot, if_neg hn.ne_up]
    rw [List.foldl_cons, hstep,
      foldl_cleanStep_names q _ fun k hk => h k (List.mem_cons_of_mem _ hk)]
    simp

/-- On a path from the root no dots are left. -/
theorem foldl_cleanStep_isName : ∀ (ns before : List Bytes), (∀ n ∈ before, IsName n) →
    (∀ n ∈ ns, n ≠ [] ∧ byte '/' ∉ n) → ∀ n ∈ ns.foldl (cleanStep true) before, IsName n
  | [], _, hb, _ => hb
  | name :: ns, before, hb, h => by
    refine foldl_cleanStep_isName ns _ ?_ fun n hn => h n (List.mem_cons_of_mem _ hn)
    unfold cleanStep
    split
    · exact hb
    · rename_i hdot
      split
      · -- At the root there is nowhere to go up to, so `..` is dropped.  Elsewhere it takes away what is before
        -- it, which is a name and not another `..`; for a relative path it would stay if it were.
        cases before with
        | nil => simp
        | cons b before =>
          dsimp only
          rw [if_neg (hb b (by simp)).ne_up]
          exact fun n hn => hb n (List.mem_cons_of_mem _ hn)
      · rename_i hup
        intro n hn
        rcases List.mem_cons.mp hn with rfl | hn
        · exact ⟨(h n (by simp)).1, (h n (by simp)).2, hdot, hup⟩
        · exact hb n hn

theorem isName_of_mem_cleanNames {t n : Bytes} (ht : isAbsolute t = true) (h : n ∈ cleanNames t) :
    IsName n := by
  rw [cleanNames, ht, List.mem_reverse] at h
  exact foldl_cleanStep_isName (names t) [] (by simp) (fun _ hn => mem_names hn) n h

theorem forall_isName {q : List Bytes} (h : ∀ n ∈ q, IsName n) :
    ∀ n ∈ q, n ≠ [] ∧ byte '/' ∉ n :=
  fun n hn => ⟨(h n hn).ne_nil, (h n hn).no_slash⟩

/-- The path from the root over names is clean. -/
theorem clean_spell {ns : List Bytes} (h : ∀ n ∈ ns, IsName n) :
    clean (spell true ns) = spell true ns := by
  by_cases hne : ns = []
  · subst hne
    decide
  · have hall := forall_isName h
    rw [clean_eq_spell, isAbsolute_spell true hne hall, cleanNames, names_spell true hne hall,
      isAbsolute_spell true hne hall, foldl_cleanStep_names ns [] h, List.append_nil,
      List.reverse_reverse]

/-- Cleaning twice is cleaning once, on absolute paths.  A project is made absolute first and its kit is
addressed by cleaning again, so this is met at every install. -/
theorem clean_clean {t : Bytes} (ht : isAbsolute t = true) : clean (clean t) = clean t := by
  rw [clean_eq_spell t, ht]
  exact clean_spell fun _ hn => isName_of_mem_cleanNames ht hn

theorem forall_cleanNames_append (dest : Bytes) {q : List Bytes} (h : ∀ n ∈ q, IsName n) :
    ∀ n ∈ cleanNames dest ++ q, n ≠ [] ∧ byte '/' ∉ n := by
  intro n hn
  rcases List.mem_append.mp hn with hn | hn
  · exact mem_cleanNames hn
  · exact forall_isName h n hn

/-- **The path of something below a directory**: the clean names of the directory, then its own. -/
theorem below_join (dest : Bytes) {q : List Bytes} (hq : q ≠ []) (h : ∀ n ∈ q, IsName n) :
    below dest (join q) = spell (isAbsolute dest) (cleanNames dest ++ q) := by
  have hj : (join q).isEmpty = false :=
    List.isEmpty_eq_false_iff.mpr fun hj => hq (join_eq_nil (forall_isName h) hj)
  cases dest with
  -- Below no directory the path is that of the names alone, and cleaning does nothing to it.
  | nil =>
    have habs : isAbsolute (join q) = false := by
      simpa [isAbsolute] using head?_join (forall_isName h)
    have hnames : cleanNames (join q) = q := by
      rw [cleanNames, names_join (forall_isName h), foldl_cleanStep_names q [] h]
      simp
    rw [below, hj, clean_eq_spell, habs, hnames]
    rfl
  -- Below a directory the names come last, and no dot is among them that would take the directory away.
  | cons b dest =>
    have hnames : cleanNames (b :: dest ++ "/" ++ join q) = cleanNames (b :: dest) ++ q := by
      have habs : isAbsolute (b :: dest ++ "/" ++ join q) = isAbsolute (b :: dest) := rfl
      rw [cleanNames, habs, slash_eq, List.append_assoc, List.singleton_append, names_append_slash,
        names_join (forall_isName h), List.foldl_append, foldl_cleanStep_names q _ h]
      simp [cleanNames]
    have hbelow : below (b :: dest) (join q) = clean (b :: dest ++ "/" ++ join q) := by
      rw [below, hj]
      rfl
    rw [hbelow, clean_eq_spell, hnames]
    rfl

/-! ## 4. Cutting off the last name

Directories are made from the top down, so the path of a directory is cut back name by name until something is
there.  On text this is done from behind: slashes at the end are dropped, then the last part, then the slashes
before it. -/

/-- The last part is cut off together with the slashes before it.  What remains may be the root's slash or
nothing, and then there is no parent to go to. -/
theorem parentPath?_append {s n : Bytes} (hn : n ≠ [] ∧ byte '/' ∉ n)
    (hb : s = [] ∨ hasTrailingSlash s = true) :
    Disk.parentPath? (s ++ n) = if s.length > 1 then some s.dropLast else none := by
  have hslash : ∀ b ∈ n.reverse, (b ≠ byte '/') = True :=
    fun b hm => eq_true fun hb => hn.2 (hb ▸ List.mem_reverse.mp hm)
  -- The part ends in something else than a slash, so nothing is trimmed at the end.
  have htrim : (s ++ n).reverse.dropWhile (· = byte '/') = (s ++ n).reverse := by
    obtain ⟨b, l, hbl⟩ := List.exists_cons_of_ne_nil (List.reverse_ne_nil_iff.mpr hn.1)
    have hne : b ≠ byte '/' := of_eq_true (hslash b (by simp [hbl]))
    rw [List.reverse_append, hbl, List.cons_append, List.dropWhile_cons_of_neg (by simpa using hne)]
  -- Behind the last slash stands just the part.
  have hstem : (s ++ n).reverse.dropWhile (· ≠ byte '/') = s.reverse := by
    rw [List.reverse_append, List.dropWhile_append_of_pos (by simpa using hslash)]
    rcases hb with rfl | hb
    · rfl
    · have hlast : s.reverse.head? = some (byte '/') := by
        simpa [hasTrailingSlash] using hb
      obtain ⟨l, hl⟩ := List.head?_eq_some_iff.mp hlast
      rw [hl, List.dropWhile_cons_of_neg (by simp)]
  unfold Disk.parentPath?
  simp only [htrim, List.reverse_reverse, hstem]

/-- **The parent of a clean path has one name less**, unless nothing would be left to follow. -/
theorem parentPath?_spell {ns : List Bytes} {n : Bytes} (absolute : Bool)
    (hn : n ≠ [] ∧ byte '/' ∉ n) (h : ∀ m ∈ ns, m ≠ [] ∧ byte '/' ∉ m) :
    Disk.parentPath? (spell absolute (ns ++ [n])) =
      if ns = [] then none else some (spell absolute ns) := by
  have hall : ∀ m ∈ ns ++ [n], m ≠ [] ∧ byte '/' ∉ m := by
    intro m hm
    rcases List.mem_append.mp hm with hm | hm
    · exact h m hm
    · rw [List.mem_singleton.mp hm]
      exact hn
  rw [spell_of_ne_nil absolute (by simp) hall]
  by_cases hns : ns = []
  · subst hns
    rw [if_pos rfl, List.nil_append, join_singleton]
    cases absolute with
    | false => exact parentPath?_append (s := []) hn (Or.inl rfl)
    | true => exact parentPath?_append (s := [byte '/']) hn (Or.inr rfl)
  · have hj : join ns ≠ [] := fun hj => hns (join_eq_nil h hj)
    rw [if_neg hns, join_append (by simp) hns, join_singleton, spell_of_ne_nil absolute hns h]
    -- What the path starts with makes no difference as long as names are left.
    have hcut : ∀ start : Bytes, Disk.parentPath? (start ++ join ns ++ byte '/' :: n) =
        some (start ++ join ns) := by
      intro start
      have hlen : 0 < (join ns).length := List.length_pos_of_ne_nil hj
      have happ : start ++ join ns ++ byte '/' :: n = (start ++ join ns ++ [byte '/']) ++ n := by
        simp
      rw [happ, parentPath?_append hn (Or.inr (by simp [hasTrailingSlash])),
        if_pos (by simp; omega), List.dropLast_concat]
    cases absolute with
    | false => exact hcut []
    | true => exact hcut [byte '/']

end Path

/-! ## 5. Names in a tree

A tree is asked by names that are relative to its top.  A walk starts at some root inside the tree and knows
every item by the names from there (`nameAt`); the way it is shown to the user is the same list without the root. -/

namespace Tree

/-- What the path of a name in a directory on disk is made of. -/
theorem pathOf_ok {dir name path : Bytes} (h : pathOf dir name = .ok path) :
    dir ≠ [] ∧ Path.isTreeName name = true ∧ name.contains 0 = false ∧
      Path.isAbsolute path = Path.isAbsolute dir ∧
      Path.names path = Path.names dir ++ Path.names name ∧
      ∃ before, path = before ++ name ∧ before ≠ [] := by
  unfold pathOf at h
  split at h
  · cases h
  · rename_i hdir
    split at h
    · cases h
    · rename_i hname
      simp only [Bool.or_eq_true, Bool.not_eq_true', not_or, Bool.not_eq_false,
        Bool.not_eq_true] at hname
      have hne : dir ≠ [] := by simpa using hdir
      obtain ⟨b, rest, rfl⟩ := List.exists_cons_of_ne_nil hne
      refine ⟨hne, hname.1, hname.2, ?_⟩
      split at h
      · -- A directory that ends with a slash gets no second one; its names are the same either way.
        rename_i hslash
        cases h
        obtain ⟨init, hinit⟩ := List.getLast?_eq_some_iff.mp (of_decide_eq_true hslash)
        have hnames : Path.names (b :: rest) = Path.names init := by
          rw [hinit, Path.names_append_slash]
          exact List.append_nil _
        refine ⟨rfl, ?_, b :: rest, rfl, hne⟩
        rw [hnames, hinit, List.append_assoc, List.singleton_append, Path.names_append_slash]
      · cases h
        refine ⟨rfl, ?_, b :: rest ++ "/", rfl, by simp⟩
        rw [slash_eq, List.append_assoc, List.singleton_append, Path.names_append_slash]

end Tree

namespace Path

/-- The name of what is reached from `root` over the names `q`. -/
def nameAt (root : Bytes) (q : List Bytes) : Bytes := q.foldl child root

@[simp] theorem nameAt_nil (root : Bytes) : nameAt root [] = root := rfl

/-- A name is put behind the way so far.  Walks go down, so this is the end at which ways grow. -/
theorem nameAt_concat (root : Bytes) (q : List Bytes) (n : Bytes) :
    nameAt root (q ++ [n]) = child (nameAt root q) n := by
  rw [nameAt, List.foldl_append]
  rfl

/-- Joined names are no dot, so they are never taken for the top of a tree. -/
theorem join_ne_dot {q : List Bytes} (h : ∀ n ∈ q, IsName n) : join q ≠ "." := by
  intro hdot
  have hnames := names_join (forall_isName h)
  rw [hdot] at hnames
  have hmem : Bytes.ofString "." ∈ q := by
    rw [← hnames]
    decide
  exact (h _ hmem).ne_dot rfl

theorem append_slash_ne_dot (a b : Bytes) : a ++ byte '/' :: b ≠ "." := by
  intro hdot
  have hmem : byte '/' ∈ Bytes.ofString "." := by
    rw [← hdot]
    simp
  exact absurd hmem (by decide)

/-- Below the top of a tree the names joined by slashes are the name. -/
theorem nameAt_dot {q : List Bytes} (hq : q ≠ []) (h : ∀ n ∈ q, IsName n) :
    nameAt "." q = join q := by
  -- The way grows at its end, so the induction is from behind.
  induction q using List.reverseRecOn with
  | nil => exact absurd rfl hq
  | append_singleton q n ih =>
    rw [nameAt_concat]
    by_cases hne : q = []
    · subst hne
      rw [nameAt_nil, child, if_pos rfl, List.nil_append, join_singleton]
    · have hq' : ∀ m ∈ q, IsName m := fun m hm => h m (by simp [hm])
      rw [ih hne hq', child, if_neg (join_ne_dot hq'), join_append (by simp) hne,
        join_singleton, slash_eq, List.append_assoc, List.singleton_append]

/-- Below another root they follow the root's name. -/
theorem nameAt_of_ne {root : Bytes} {q : List Bytes} (hroot : root ≠ ".") (hq : q ≠ []) :
    nameAt root q = root ++ byte '/' :: join q := by
  induction q using List.reverseRecOn with
  | nil => exact absurd rfl hq
  | append_singleton q n ih =>
    rw [nameAt_concat]
    by_cases hne : q = []
    · subst hne
      rw [nameAt_nil, child, if_neg hroot, List.nil_append, join_singleton, slash_eq,
        List.append_assoc, List.singleton_append]
    · rw [ih hne, child, if_neg (append_slash_ne_dot _ _), join_append (by simp) hne,
        join_singleton, slash_eq]
      simp

/-- **Seen from the root, what is reached over the names `q` is called by these names.** -/
theorem relativeTo_nameAt {root : Bytes} {q : List Bytes} (hq : q ≠ []) (h : ∀ n ∈ q, IsName n) :
    relativeTo root (nameAt root q) = join q := by
  unfold relativeTo
  split
  · rename_i hroot
    rw [hroot, nameAt_dot hq h]
  · rename_i hroot
    have hpre : nameAt root q = (root ++ "/") ++ join q := by
      rw [nameAt_of_ne hroot hq, slash_eq, List.append_assoc, List.singleton_append]
    rw [hpre, Bytes.dropStart, if_pos (List.isPrefixOf_iff_prefix.mpr (List.prefix_append _ _)),
      List.drop_left]

/-- The names of an item are those of the root and those on the way.  The dot that stands for the top of a tree
is the one root that counts for nothing. -/
theorem names_nameAt {root : Bytes} {q : List Bytes} (hq : q ≠ []) (h : ∀ n ∈ q, IsName n) :
    names (nameAt root q) = (if root = "." then [] else names root) ++ q := by
  split
  · rename_i hroot
    rw [hroot, nameAt_dot hq h, names_join (forall_isName h)]
    rfl
  · rename_i hroot
    rw [nameAt_of_ne hroot hq, names_append_slash, names_join (forall_isName h)]

/-- A path has no more names than bytes.  With the limit on the length of paths, this bounds how deep a walk can
go. -/
theorem length_names_le : ∀ t : Bytes, (names t).length ≤ t.length
  | [] => Nat.le_refl 0
  | b :: t => by
    have ih := length_names_le t
    unfold names at ih ⊢
    rw [Bytes.splitOn]
    split
    · rw [List.filter_cons_of_neg (by simp)]
      exact Nat.le_succ_of_le ih
    · cases h : Bytes.splitOn (byte '/') t with
      | nil => exact absurd h (Bytes.splitOn_ne_nil _ t)
      | cons p ps =>
        rw [h] at ih
        have hps : (ps.filter (!·.isEmpty)).length ≤ ((p :: ps).filter (!·.isEmpty)).length :=
          ((List.sublist_cons_self p ps).filter _).length_le
        rw [List.filter_cons_of_pos (by simp), List.length_cons, List.length_cons]
        omega

theorem length_le_nameAt {root : Bytes} {q : List Bytes} (hq : ∀ n ∈ q, IsName n) :
    q.length ≤ (nameAt root q).length := by
  by_cases hnil : q = []
  · simp [hnil]
  · have hle := length_names_le (nameAt root q)
    rw [names_nameAt hnil hq, List.length_append] at hle
    omega

/-- What is below a root is not mistaken for the top of the tree. -/
theorem nameAt_ne_dot {root : Bytes} {q : List Bytes} (hne : q ≠ []) (hq : ∀ n ∈ q, IsName n) :
    nameAt root q ≠ "." := by
  by_cases hroot : root = "."
  · rw [hroot, nameAt_dot hne hq]
    exact join_ne_dot hq
  · rw [nameAt_of_ne hroot hne]
    exact append_slash_ne_dot root _

end Path

end AgentKit
