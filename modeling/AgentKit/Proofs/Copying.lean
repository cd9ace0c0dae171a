import AgentKit.Proofs.Sources
import AgentKit.Tree.Copy
import AgentKit.Tree.Count
/-!
# What a copy writes

A copy into a directory without links writes each thing it visits to one place, the place of the same
names below the directory, and nothing else.  Whether it can, depends on what is at that place, on the
directory around it and on the way there.

1. `Home`: the copy goes to the directory at `P`.  Paths below the destination lead to the places below
   `P` (`Home.locate`).
2. Making a directory there (`Home.makeDirectories_ok`).
3. Writing a file there: `Accepts` says when it can be done, and whichever way it is done, by writing
   over what is there or by replacing it, the outcome is the same but for the mode (`Home.openTarget_ok`).
4. **A visit that succeeds puts one entry at one place** (`Stage.visit_ok`), and what it needs to succeed
   (`Stage.visit_of_leaves`).
5. `Course` says how a copy goes: it makes its destination and then makes the visits of a walk, which go to
   different places.

The two halves of the fourth point are one equivalence in two parts.  If the way is open and `Leaves` says what would
be left, then the visit succeeds and has left just that; and if a visit succeeds, then there is something that `Leaves`
describes.  From the first follows that a copy succeeds where nothing is in its way, and from the second what is there
after a copy that succeeded.

All this is for one visit on one disk.  How the conditions carry over from visit to visit is told in `Delivery` for a
copy that succeeds, and in `Halting` and `Recovery` for one that does not.
-/

namespace AgentKit

namespace Disk

variable {d d' : Disk} {p q : Place} {e : Entry}

/-! ## 1. The directory that is copied to

The program joins the destination and the relative path of an item and cleans the result, so links that the
destination goes up from again do not count.  The path that matters is the clean form, and `Home` speaks of its
names. -/

/-- The path `dest`, in its clean form, leads to the directory at `P`, and there are no links in it. -/
structure Home (dest : Bytes) (P : Place) (d : Disk) : Prop where
  leads : Follows d true maxLinks (d.start dest) (Path.cleanNames dest) P
  dir : ∃ m, d.get? P = some (.dir m)
  noLink : NoLinkIn P d

section Home

variable {dest : Bytes} {P r : Place} {ns : List Bytes} {follow : Bool}

/-- The clean form of a path leads where its names lead. -/
theorem follows_clean_iff {n : Nat} : Follows d true n (d.start (Path.clean dest))
      (Path.names (Path.clean dest)) P ↔
    Follows d true n (d.start dest) (Path.cleanNames dest) P ∧
      (Path.cleanNames dest = [] → Path.isAbsolute dest = false → d.Enterable P) := by
  rw [Path.clean_eq_spell]
  have hall : ∀ n ∈ Path.cleanNames dest, n ≠ [] ∧ byte '/' ∉ n := fun _ hn => Path.mem_cleanNames hn
  by_cases hnil : Path.cleanNames dest = []
  · -- The root, or where relative paths start from.
    rw [hnil, start, start]
    cases habs : Path.isAbsolute dest with
    | true =>
      have hnames : Path.names (Path.spell true []) = [] := by decide
      rw [hnames]
      exact ⟨fun h => ⟨h, fun _ hrel => absurd hrel (by simp)⟩, And.left⟩
    | false =>
      have hnames : Path.names (Path.spell false []) = [Bytes.ofString "."] := by decide
      rw [hnames, follows_dot_iff]
      constructor
      · rintro ⟨henter, rfl⟩
        exact ⟨.stop n _, fun _ _ => henter⟩
      · rintro ⟨h, henter⟩
        cases h
        exact ⟨henter rfl rfl, rfl⟩
  · rw [start, Path.isAbsolute_spell _ hnil hall, Path.names_spell _ hnil hall, start]
    exact ⟨fun h => ⟨h, fun heq => absurd heq hnil⟩, And.left⟩

/-- A directory without links that the clean path leads to can be copied to. -/
theorem home_of_find {m : Nat} (h : d.find true (Path.clean dest) = .ok (P, .dir m))
    (hno : NoLinkIn P d) : Home dest P d := by
  obtain ⟨hloc, hdir, -⟩ := find_eq_ok.mp h
  have hfol := (locate_eq_ok.mp hloc).2
  rw [Bool.true_or] at hfol
  exact ⟨(follows_clean_iff.mp hfol).1, ⟨m, hdir⟩, hno⟩

theorem Home.keeps (h : Home dest P d) (hk : Keeps d d') : Home dest P d' := by
  obtain ⟨m, hm⟩ := h.dir
  refine ⟨?_, ⟨m, hk.dir P m hm⟩, h.noLink.keeps hk⟩
  rw [hk.start]
  exact h.leads.keeps hk

/-- The names of a path below the destination lead to the place below the directory. -/
theorem Home.follows_iff (h : Home dest P d) (hne : ns ≠ []) (hns : ∀ n ∈ ns, Path.IsName n) :
    Follows d follow maxLinks (d.start dest) (Path.cleanNames dest ++ ns) r ↔
      d.Passable P ns ∧ r = P ++ ns := by
  obtain ⟨m, hm⟩ := h.dir
  obtain ⟨k, -, heq⟩ := h.leads.append_eq hm
  rw [← followWithin_eq_ok, heq d follow ns (Keeps.refl d) hne, followWithin_eq_ok,
    follows_iff_passable h.noLink (List.prefix_refl P) hns, and_comm]

/-- Paths below the destination are clean, so they do not end with a slash. -/
theorem below_noSlash (dest : Bytes) (hne : ns ≠ []) (hns : ∀ n ∈ ns, Path.IsName n) :
    Path.hasTrailingSlash (Path.below dest (Path.join ns)) = false := by
  rw [Path.below_join dest hne hns]
  exact Path.hasTrailingSlash_spell _ (by simp [hne]) (Path.forall_cleanNames_append dest hns)

theorem names_below (dest : Bytes) (hne : ns ≠ []) (hns : ∀ n ∈ ns, Path.IsName n) :
    Path.names (Path.below dest (Path.join ns)) = Path.cleanNames dest ++ ns := by
  rw [Path.below_join dest hne hns]
  exact Path.names_spell _ (by simp [hne]) (Path.forall_cleanNames_append dest hns)

theorem start_below (d : Disk) (dest : Bytes) (hne : ns ≠ []) (hns : ∀ n ∈ ns, Path.IsName n) :
    d.start (Path.below dest (Path.join ns)) = d.start dest := by
  rw [Path.below_join dest hne hns, start, start,
    Path.isAbsolute_spell _ (by simp [hne]) (Path.forall_cleanNames_append dest hns)]

/-- **Paths below the destination lead to the places below the directory**, if the way is open. -/
theorem Home.locate (h : Home dest P d) (hne : ns ≠ []) (hns : ∀ n ∈ ns, Path.IsName n) :
    d.locate follow (Path.below dest (Path.join ns)) = .ok r ↔
      Usable (Path.below dest (Path.join ns)) ∧ d.Passable P ns ∧ r = P ++ ns := by
  rw [locate_eq_ok, below_noSlash dest hne hns, names_below dest hne hns,
    start_below d dest hne hns, h.follows_iff hne hns]

/-- What is found below the destination is what is at that place, links or not, since there are none. -/
theorem Home.find (h : Home dest P d) (hne : ns ≠ []) (hns : ∀ n ∈ ns, Path.IsName n) :
    d.find follow (Path.below dest (Path.join ns)) = .ok (r, e) ↔
      Usable (Path.below dest (Path.join ns)) ∧ d.Passable P ns ∧ r = P ++ ns ∧
        d.get? (P ++ ns) = some e := by
  rw [find_eq_ok, h.locate hne hns, below_noSlash dest hne hns]
  constructor
  · rintro ⟨⟨hu, hp, rfl⟩, he, -⟩
    exact ⟨hu, hp, rfl, he⟩
  · rintro ⟨hu, hp, rfl, he⟩
    exact ⟨⟨hu, hp, rfl⟩, he, by simp⟩

/-- The path of the destination is a beginning of the paths below it, unless it is a dot, which is left out. -/
theorem clean_prefix_below (dest : Bytes) (hne : ns ≠ []) (hns : ∀ n ∈ ns, Path.IsName n) :
    Path.clean dest <+: Path.below dest (Path.join ns) ∨ Path.clean dest = "." := by
  have hall : ∀ n ∈ Path.cleanNames dest, n ≠ [] ∧ byte '/' ∉ n := fun _ hn => Path.mem_cleanNames hn
  rw [Path.below_join dest hne hns, Path.clean_eq_spell,
    Path.spell_of_ne_nil _ (by simp [hne]) (Path.forall_cleanNames_append dest hns)]
  by_cases hnil : Path.cleanNames dest = []
  · cases Path.isAbsolute dest with
    | true => exact Or.inl (by rw [hnil]; exact List.prefix_append [byte '/'] _)
    | false => exact Or.inr (by rw [hnil]; rfl)
  · left
    rw [Path.spell_of_ne_nil _ hnil hall, Path.join_append hne hnil]
    cases Path.isAbsolute dest with
    | true => exact List.prefix_append (byte '/' :: Path.join (Path.cleanNames dest)) _
    | false => exact List.prefix_append (Path.join (Path.cleanNames dest)) _

/-- A path leads below another only if the clean form of that leads to a directory. -/
theorem find_clean_of_locate (hne : ns ≠ []) (hns : ∀ n ∈ ns, Path.IsName n)
    (h : d.locate follow (Path.below dest (Path.join ns)) = .ok r) :
    ∃ P m, d.find true (Path.clean dest) = .ok (P, .dir m) := by
  obtain ⟨hu, hfol⟩ := locate_eq_ok.mp h
  rw [names_below dest hne hns, start_below d dest hne hns] at hfol
  obtain ⟨P, hP, m, hm, hsearch⟩ := hfol.cut hne
  -- It is shorter than the path below, and so within the limit.
  have hu' : Usable (Path.clean dest) := by
    rcases clean_prefix_below dest hne hns with hpre | hdot
    · exact hu.shorter hpre (Path.clean_ne_nil dest)
    · rw [hdot]
      exact ⟨by decide, by decide, by decide⟩
  refine ⟨P, m, find_eq_ok.mpr ⟨locate_eq_ok.mpr ⟨hu', ?_⟩, hm, fun _ => rfl⟩⟩
  rw [Bool.true_or, follows_clean_iff]
  exact ⟨hP, fun _ _ => ⟨m, hm, hsearch⟩⟩

/-- Something can be found below a path only if its clean form leads to a directory. -/
theorem find_clean_of_below (hne : ns ≠ []) (hns : ∀ n ∈ ns, Path.IsName n)
    (h : d.find follow (Path.below dest (Path.join ns)) = .ok (r, e)) :
    ∃ P m, d.find true (Path.clean dest) = .ok (P, .dir m) :=
  find_clean_of_locate hne hns (find_eq_ok.mp h).1

/-! ## 2. Making a directory

Only the last directory is missing when it is made, since a walk visits a directory before what is in it. -/

/-- Where a directory was before, the way has not become more open. -/
theorem Paved.passable (hk : Keeps d d') : ∀ {ns : List Bytes} {p : Place}, d.Paved p ns.dropLast →
    d'.Passable p ns → d.Passable p ns
  | [], _, _, _ => trivial
  | n :: ns, p, hpaved, ⟨⟨m, hm, hs⟩, hn, hpass⟩ => by
    have henter : d.Enterable p := by
      obtain ⟨k, hk'⟩ := hpaved [] List.nil_prefix
      rw [List.append_nil] at hk'
      have hmk := hk.dir p k hk'
      rw [hm, Option.some.injEq, Entry.dir.injEq] at hmk
      exact ⟨k, hk', hmk ▸ hs⟩
    refine ⟨henter, hn, ?_⟩
    cases ns with
    | nil => trivial
    | cons n' ns =>
      rw [List.dropLast_cons_cons] at hpaved
      exact Paved.passable hk hpaved.tail hpass

/-- The path of the directory around a place below the destination leads there. -/
theorem Home.parent (h : Home dest P d) (hne : ns ≠ []) (hns : ∀ n ∈ ns, Path.IsName n)
    (hpass : d.Passable P ns) :
    Follows d true maxLinks (d.start dest) (Path.cleanNames dest ++ ns.dropLast)
      (P ++ ns.dropLast) := by
  cases ns using List.reverseRecOn with
  | nil => exact absurd rfl hne
  | append_singleton init n =>
    rw [List.dropLast_concat]
    by_cases hinit : init = []
    · subst hinit
      rw [List.append_nil, List.append_nil]
      exact h.leads
    · exact (h.follows_iff hinit fun m hm => hns m (List.mem_append_left _ hm)).mpr
        ⟨(passable_append.mp hpass).1, rfl⟩

theorem Home.parent_isDirectory {m : Nat} (h : Home dest P d) (hne : ns ≠ [])
    (hns : ∀ n ∈ ns, Path.IsName n) (hu : Usable (Path.below dest (Path.join ns)))
    (hpass : d.Passable P ns) (hpar : d.get? (P ++ ns.dropLast) = some (.dir m)) {parent : Bytes}
    (hp : parentPath? (Path.below dest (Path.join ns)) = some parent) :
    d.isDirectory parent = true := by
  have hu' := hu.shorter (parentPath?_begins hp).1 (parentPath?_begins hp).2
  have hfol := h.parent hne hns hpass
  cases ns using List.reverseRecOn with
  | nil => exact absurd rfl hne
  | append_singleton init n =>
    rw [List.dropLast_concat] at hpar hfol
    have hinit : ∀ m ∈ init, Path.IsName m := fun m hm => hns m (List.mem_append_left _ hm)
    have hall := Path.forall_cleanNames_append dest hinit
    have hn := hns n (by simp)
    rw [Path.below_join dest hne hns, ← List.append_assoc,
      Path.parentPath?_spell _ ⟨hn.ne_nil, hn.no_slash⟩ hall] at hp
    split at hp
    · cases hp
    · rename_i hnil
      cases hp
      have hslash := Path.hasTrailingSlash_spell (Path.isAbsolute dest) hnil hall
      refine isDirectory_iff.mpr ⟨P ++ init, m, find_eq_ok.mpr ⟨locate_eq_ok.mpr ⟨hu', ?_⟩, hpar, ?_⟩⟩
      · rw [hslash, Path.names_spell _ hnil hall, start, Path.isAbsolute_spell _ hnil hall]
        exact hfol
      · simp [hslash]

theorem Home.makeDirectory_ok {mode : Nat} (h : Home dest P d) (hne : ns ≠ [])
    (hns : ∀ n ∈ ns, Path.IsName n) (hu : Usable (Path.below dest (Path.join ns)))
    (hpass : d.Passable P ns) :
    d.makeDirectory (Path.below dest (Path.join ns)) mode = .ok d' ↔
      d.allowsChange (P ++ ns.dropLast) = true ∧ d.get? (P ++ ns) = none ∧
        d' = d.put (P ++ ns) (.dir mode) := by
  have hfol := h.parent hne hns hpass
  rw [Disk.makeDirectory_ok, names_below dest hne hns, start_below d dest hne hns]
  cases ns using List.reverseRecOn with
  | nil => exact absurd rfl hne
  | append_singleton init n =>
    rw [List.dropLast_concat] at hfol ⊢
    have hn := hns n (by simp)
    have hplain : Plain n := ⟨hn.ne_dot, hn.ne_up, (passable_append.mp hpass).2.2.1⟩
    rw [← List.append_assoc, ← List.append_assoc]
    constructor
    · rintro ⟨-, before, last, parent, hsplit, hbefore, hin⟩
      obtain ⟨rfl, hlast⟩ := List.append_inj' hsplit rfl
      rw [List.singleton_inj] at hlast
      subst hlast
      have hparent : parent = P ++ init :=
        Except.ok.inj ((followWithin_eq_ok.mpr hbefore).symm.trans (followWithin_eq_ok.mpr hfol))
      subst hparent
      obtain ⟨hch, -, hnone, rfl⟩ := makeDirectoryIn_ok.mp hin
      exact ⟨hch, hnone, rfl⟩
    · rintro ⟨hch, hnone, rfl⟩
      exact ⟨hu, _, n, P ++ init, rfl, hfol, makeDirectoryIn_ok.mpr ⟨hch, hplain, hnone, rfl⟩⟩

/-- **When a directory below the destination can be made**, the directory around it being there. -/
theorem Home.makeDirectories_ok {m mode : Nat} (h : Home dest P d) (hd : d.Sound) (hne : ns ≠ [])
    (hns : ∀ n ∈ ns, Path.IsName n) (hpar : d.get? (P ++ ns.dropLast) = some (.dir m)) :
    d.makeDirectories (Path.below dest (Path.join ns)) mode = (d', none) ↔
      Usable (Path.below dest (Path.join ns)) ∧ d.Passable P ns ∧
        ((∃ k, d.get? (P ++ ns) = some (.dir k) ∧ d' = d) ∨
          (d.get? (P ++ ns) = none ∧ d.allowsChange (P ++ ns.dropLast) = true ∧
            d' = d.put (P ++ ns) (.dir mode))) := by
  have hdirectory : ∀ {k}, Usable (Path.below dest (Path.join ns)) → d.Passable P ns →
      d.get? (P ++ ns) = some (.dir k) →
      d.makeDirectories (Path.below dest (Path.join ns)) mode = (d, none) := fun hu hpass hk =>
    makeDirectories_of_isDirectory
      (isDirectory_iff.mpr ⟨_, _, (h.find hne hns).mpr ⟨hu, hpass, rfl, hk⟩⟩)
  -- Nothing is at the place, so making directories comes down to making the last.
  have hnothing : Usable (Path.below dest (Path.join ns)) → d.Passable P ns →
      d.get? (P ++ ns) = none → (d.makeDirectories (Path.below dest (Path.join ns)) mode = (d', none) ↔
        d.makeLast (Path.below dest (Path.join ns)) mode = .ok d') := by
    intro hu hpass hnone
    refine makeDirectories_of_parent (fun i hi => ?_) hu.ne_nil fun parent hp =>
      h.parent_isDirectory hne hns hu hpass hpar hp
    obtain ⟨p, e, hfind, -⟩ := statusOf_eq_ok.mp hi
    obtain ⟨-, -, -, he⟩ := (h.find hne hns).mp hfind
    exact absurd (hnone.symm.trans he) (by simp)
  constructor
  · -- The path leads to a directory afterwards.  What the way needs it has needed before, because the
    -- directories on it are still the same.
    intro hmade
    have hadds := makeDirectories_adds d (Path.below dest (Path.join ns)) mode
    rw [hmade] at hadds
    obtain ⟨p, k, hfind⟩ := isDirectory_iff.mp (makeDirectories_isDirectory hmade)
    obtain ⟨hu, hpass', -, hk⟩ := ((h.keeps hadds.keeps).find hne hns).mp hfind
    have hpass := (hd.paved hpar).passable hadds.keeps hpass'
    refine ⟨hu, hpass, ?_⟩
    rcases hadds.get? (P ++ ns) with heq | ⟨hnone, -⟩
    · rw [hk] at heq
      rw [hdirectory hu hpass heq.symm, Prod.mk.injEq] at hmade
      exact Or.inl ⟨k, heq.symm, hmade.1.symm⟩
    · rcases makeLast_ok ((hnothing hu hpass hnone).mp hmade) with hdir | ⟨-, p, m', hfind'⟩
      · obtain ⟨hch, -, rfl⟩ := (h.makeDirectory_ok hne hns hu hpass).mp hdir
        exact Or.inr ⟨hnone, hch, rfl⟩
      · obtain ⟨-, -, -, he⟩ := (h.find hne hns).mp hfind'
        exact absurd (hnone.symm.trans he) (by simp)
  · rintro ⟨hu, hpass, ⟨k, hk, rfl⟩ | ⟨hnone, hch, rfl⟩⟩
    · exact hdirectory hu hpass hk
    · have hdir : d.makeDirectory (Path.below dest (Path.join ns)) mode =
          .ok (d.put (P ++ ns) (.dir mode)) :=
        (h.makeDirectory_ok hne hns hu hpass).mpr ⟨hch, hnone, rfl⟩
      rw [hnothing hu hpass hnone, makeLast, hdir]

/-! ## 3. Opening a file

A file that may be written is emptied and keeps its mode.  One that may not be written is removed and made anew,
if the directory around it allows that, and gets the mode that the copy wants.  A file that is missing is made. -/

/-- A file can be written at `p`: there is one that may be written or replaced, or one can be made. -/
def Accepts (d : Disk) (p : Place) : Prop :=
  (∃ m c, d.get? p = some (.file m c) ∧ (writable m = true ∨ d.allowsChange p.dropLast = true)) ∨
    (d.get? p = none ∧ d.allowsChange p.dropLast = true)

theorem Accepts.plot (h : d.Accepts p) : d.Plot p := by
  rcases h with ⟨m, c, hfile, -⟩ | ⟨hnone, -⟩
  · exact Or.inr ⟨m, c, hfile⟩
  · exact Or.inl hnone

/-- The mode of the file at `p` once it has been written: that of a file which may be written stays. -/
def settledMode (d : Disk) (p : Place) (mode : Nat) : Nat :=
  match d.get? p with
  | some (.file m _) => if writable m then m else mode
  | _ => mode

theorem erase_keeps {m : Nat} {c : Bytes} (h : d.get? p = some (.file m c)) : Keeps d (d.erase p) := by
  have hp : p ≠ [] := by
    rintro rfl
    simp at h
  refine ⟨rfl, fun q k hk => ?_, fun q t => ?_⟩
  · rw [get?_erase d q hp, if_neg]
    · exact hk
    · rintro rfl
      exact absurd (h.symm.trans hk) (by simp)
  · rw [get?_erase d q hp]
    split
    · rename_i hq
      subst hq
      simp [h]
    · exact Iff.rfl

theorem allowsChange_erase (hp : p ≠ []) : (d.erase p).allowsChange p.dropLast =
    d.allowsChange p.dropLast := by
  have hne : p.dropLast ≠ p := by
    intro heq
    have := congrArg List.length heq
    rw [List.length_dropLast] at this
    have := List.length_pos_of_ne_nil hp
    omega
  rw [allowsChange, allowsChange, get?_erase d _ hp, if_neg hne]

/-- **However it is done, the file at the place is emptied and nothing else changes.** -/
theorem Home.openTarget_ok (h : Home dest P d) (hne : ns ≠ []) (hns : ∀ n ∈ ns, Path.IsName n)
    (hu : Usable (Path.below dest (Path.join ns))) (hpass : d.Passable P ns)
    (hacc : d.Accepts (P ++ ns)) (mode : Nat) :
    ∃ d' w, Copy.openTarget d (Path.below dest (Path.join ns)) mode = (d', .ok w) ∧
      w.place = P ++ ns ∧ Puts d (P ++ ns) (.file (d.settledMode (P ++ ns) mode) []) d' := by
  have hT : P ++ ns ≠ [] := by simp [hne]
  have hslash := below_noSlash dest hne hns
  have hopen := openForWriting_of_locate ((h.locate hne hns).mpr ⟨hu, hpass, rfl⟩) hslash mode
  unfold Copy.openTarget settledMode
  rcases hacc with ⟨m, c, hfile, hw⟩ | ⟨hnone, hch⟩
  · rw [hfile] at hopen ⊢
    dsimp only at hopen ⊢
    by_cases hwm : writable m = true
    · rw [if_pos hwm] at hopen ⊢
      rw [hopen]
      exact ⟨_, _, rfl, rfl, puts_put d _ hT⟩
    · -- The file is removed and made anew.
      have hch := hw.resolve_left hwm
      rw [if_neg hwm] at hopen ⊢
      have hremove := remove_file ((h.locate hne hns).mpr ⟨hu, hpass, rfl⟩) hslash hfile
      rw [if_pos hch] at hremove
      have hkeeps := erase_keeps hfile
      have hagain := openForWriting_of_locate (((h.keeps hkeeps).locate hne hns).mpr
        ⟨hu, hpass.keeps hkeeps, rfl⟩) hslash mode
      rw [get?_erase d _ hT, if_pos rfl] at hagain
      dsimp only at hagain
      rw [allowsChange_erase hT, if_pos hch] at hagain
      rw [hopen]
      dsimp only
      rw [if_pos rfl, hremove]
      dsimp only
      rw [hagain]
      refine ⟨_, _, rfl, rfl, rfl, fun q => ?_⟩
      rw [get?_put _ _ q hT, get?_erase d q hT]
      split <;> rfl
  · rw [hnone] at hopen ⊢
    dsimp only at hopen ⊢
    rw [if_pos hch] at hopen
    rw [hopen]
    exact ⟨_, _, rfl, rfl, puts_put d _ hT⟩

/-- What cannot be opened and cannot be removed either is left alone. -/
theorem openTarget_stuck {target : Bytes} {mode : Nat} {x y : Errno}
    (hx : d.openForWriting target mode = .error x) (hy : d.remove target = .error y) :
    ∃ f, Copy.openTarget d target mode = (d, .error f) := by
  unfold Copy.openTarget
  rw [hx]
  dsimp only
  split
  · rw [hy]
    exact ⟨_, rfl⟩
  · exact ⟨_, rfl⟩

/-- Nothing can be opened on a path that leads nowhere. -/
theorem openTarget_nowhere {target : Bytes} (h : ∀ follow r, d.locate follow target ≠ .ok r) (mode : Nat) :
    ∃ f, Copy.openTarget d target mode = (d, .error f) := by
  cases hl : d.locate true target with
  | ok r => exact absurd hl (h true r)
  | error x =>
    have hgone : ∀ p e, d.find false target ≠ .ok (p, e) := fun p e hf => h false p (find_eq_ok.mp hf).1
    obtain ⟨y, hy⟩ := remove_error hgone
    exact openTarget_stuck (openForWriting_of_error hl mode) hy

/-- Where it cannot be done the disk stays as it is. -/
theorem Home.openTarget_error (h : Home dest P d) (hne : ns ≠ []) (hns : ∀ n ∈ ns, Path.IsName n)
    (hno : ¬ (Usable (Path.below dest (Path.join ns)) ∧ d.Passable P ns ∧ d.Accepts (P ++ ns)))
    (mode : Nat) :
    ∃ f, Copy.openTarget d (Path.below dest (Path.join ns)) mode = (d, .error f) := by
  have hslash := below_noSlash dest hne hns
  by_cases hway : Usable (Path.below dest (Path.join ns)) ∧ d.Passable P ns
  · have hopen := openForWriting_of_locate ((h.locate hne hns).mpr ⟨hway.1, hway.2, rfl⟩) hslash mode
    cases hT : d.get? (P ++ ns) with
    | none =>
      have hch : ¬ d.allowsChange (P ++ ns).dropLast = true :=
        fun hch => hno ⟨hway.1, hway.2, Or.inr ⟨hT, hch⟩⟩
      rw [hT] at hopen
      dsimp only at hopen
      rw [if_neg hch] at hopen
      have hgone : ∀ p e, d.find false (Path.below dest (Path.join ns)) ≠ .ok (p, e) := by
        intro p e hf
        obtain ⟨-, -, -, he⟩ := (h.find hne hns).mp hf
        exact absurd (hT.symm.trans he) (by simp)
      obtain ⟨y, hy⟩ := remove_error hgone
      exact openTarget_stuck hopen hy
    | some e =>
      rw [hT] at hopen
      cases e with
      | dir m =>
        unfold Copy.openTarget
        rw [hopen]
        exact ⟨_, rfl⟩
      | link t => exact absurd hT (h.noLink _ t (List.prefix_append P ns))
      | file m c =>
        have hw : ¬ writable m = true :=
          fun hw => hno ⟨hway.1, hway.2, Or.inl ⟨m, c, hT, Or.inl hw⟩⟩
        have hch : ¬ d.allowsChange (P ++ ns).dropLast = true :=
          fun hch => hno ⟨hway.1, hway.2, Or.inl ⟨m, c, hT, Or.inr hch⟩⟩
        have hremove := remove_file ((h.locate hne hns).mpr ⟨hway.1, hway.2, rfl⟩) hslash hT
        dsimp only at hopen
        rw [if_neg hw] at hopen
        rw [if_neg hch] at hremove
        exact openTarget_stuck hopen hremove
  · have hnowhere : ∀ follow r, d.locate follow (Path.below dest (Path.join ns)) ≠ .ok r :=
      fun follow r hl => hway ⟨((h.locate hne hns).mp hl).1, ((h.locate hne hns).mp hl).2.1⟩
    exact openTarget_nowhere hnowhere mode

end Home

end Disk

/-! ## 4. Visits

A visit makes a directory or copies a file.  What it takes for a file is that the source can be read, that the
way to the place is open, and that the place accepts a file.  If the source is what is being written to, then
less comes out of it (`delivered`); the condition `source` rules that out. -/

namespace Copy

open Disk

variable {t : Tree} {dest : Bytes} {P : Place} {d d' : Disk} {x : Visit} {e : Entry} {s s' : State}
  {r : Reading} {info : Info}

theorem fileMode_writable (info : Info) : writable (fileMode info) = true := by
  unfold fileMode
  split <;> decide

/-- A file is written with what came out of the source, also if reading failed half way. -/
theorem file_written (h : Home dest P d) (hx : x.Proper) (hu : Usable (Path.below dest x.rel))
    (hpass : d.Passable P x.path) (hacc : d.Accepts (P ++ x.path))
    (ho : t.openFile d x.name = .ok r) (hi : r.info = .ok info)
    (hp : ∀ p, r.place = some p → ¬ P <+: p) :
    ∃ d', file t d x.name (Path.below dest x.rel) = (d', r.failure) ∧
      Puts d (P ++ x.path) (.file (d.settledMode (P ++ x.path) (fileMode info)) r.content) d' := by
  rw [hx.rel] at hu ⊢
  obtain ⟨d₁, w, hopen, hplace, hputs⟩ :=
    h.openTarget_ok hx.ne_nil hx.names hu hpass hacc (fileMode info)
  -- The file that is read is not in the destination, so it has not been emptied by opening the other.
  have hdelivered : delivered r w = r.content := by
    unfold delivered
    rw [if_neg]
    intro hself
    rw [Bool.and_eq_true, decide_eq_true_eq, hplace] at hself
    exact hp _ hself.2 (List.prefix_append P x.path)
  have hfile : d₁.get? w.place = some (.file (d.settledMode (P ++ x.path) (fileMode info)) []) :=
    hplace ▸ hputs.self
  refine ⟨d₁.fill w r.content, ?_, hputs.trans ⟨by rw [fill_of_file hfile]; rfl, fun q => ?_⟩⟩
  · unfold file
    rw [ho]
    dsimp only
    rw [hi]
    dsimp only
    rw [hopen]
    dsimp only
    rw [hdelivered]
  · rw [get?_fill hfile, hplace]

/-- Otherwise nothing is written. -/
theorem file_refused (h : Home dest P d) (hx : x.Proper)
    (hno : (∃ f, t.openFile d x.name = .error f) ∨
      (∃ r f, t.openFile d x.name = .ok r ∧ r.info = .error f) ∨
      ¬ (Usable (Path.below dest x.rel) ∧ d.Passable P x.path ∧ d.Accepts (P ++ x.path))) :
    ∃ f, file t d x.name (Path.below dest x.rel) = (d, some f) := by
  unfold file
  cases ho : t.openFile d x.name with
  | error f => exact ⟨f, rfl⟩
  | ok r =>
    dsimp only
    cases hi : r.info with
    | error f => exact ⟨f, rfl⟩
    | ok info =>
      have hno : ¬ (Usable (Path.below dest x.rel) ∧ d.Passable P x.path ∧
          d.Accepts (P ++ x.path)) := by
        rcases hno with ⟨f, hf⟩ | ⟨r', f, hr', hf⟩ | hno
        · exact absurd (ho.symm.trans hf) (by simp)
        · rw [ho, Except.ok.injEq] at hr'
          rw [← hr', hi] at hf
          cases hf
        · exact hno
      rw [hx.rel] at hno ⊢
      obtain ⟨f, hopen⟩ := h.openTarget_error hx.ne_nil hx.names hno (fileMode info)
      dsimp only
      rw [hopen]
      exact ⟨f, rfl⟩

/-- What a visit leaves at its place, if it succeeds. -/
inductive Leaves (t : Tree) (P : Place) (x : Visit) (d : Disk) : Entry → Prop
  | dir {m : Nat} : x.isDir = true → d.get? (P ++ x.path) = some (.dir m) → Leaves t P x d (.dir m)
  | newDir : x.isDir = true → d.get? (P ++ x.path) = none →
      d.allowsChange (P ++ x.path.dropLast) = true → Leaves t P x d (.dir directoryMode)
  | file {r : Reading} {info : Info} : x.isDir = false → d.Accepts (P ++ x.path) →
      t.openFile d x.name = .ok r → r.info = .ok info → r.failure = none →
      Leaves t P x d (.file (d.settledMode (P ++ x.path) (fileMode info)) r.content)

theorem Leaves.gentle (h : Home dest P d) (hl : Leaves t P x d e) : Gentle d (P ++ x.path) e := by
  have hno : ∀ k, d.get? (P ++ x.path) ≠ some (.link k) :=
    fun k => h.noLink _ k (List.prefix_append P x.path)
  cases hl with
  | dir _ hm => exact ⟨fun k hk => by rw [hm] at hk; cases hk; rfl, fun k => ⟨hno k, by simp⟩⟩
  | newDir _ hnone =>
    exact ⟨fun k hk => absurd (hnone.symm.trans hk) (by simp), fun k => ⟨hno k, by simp⟩⟩
  | file _ hacc => exact hacc.plot.gentle

/-- All that a visit to `x` needs of a disk that is copied to. -/
structure Stage (t : Tree) (dest : Bytes) (P : Place) (x : Visit) (d : Disk) : Prop where
  home : Home dest P d
  sound : d.Sound
  proper : x.Proper
  parent : ∃ m, d.get? (P ++ x.path.dropLast) = some (.dir m)
  source : x.isDir = false → ∀ r p, t.openFile d x.name = .ok r → r.place = some p → ¬ P <+: p

/-- **A visit succeeds when the way is open and something can be left there.** -/
theorem Stage.visit_of_leaves (hs : Stage t dest P x s.disk) (hu : Usable (Path.below dest x.rel))
    (hpass : s.disk.Passable P x.path) (hl : Leaves t P x s.disk e) :
    ∃ s', visit t dest false x s = (s', none) ∧ Puts s.disk (P ++ x.path) e s'.disk ∧
      s'.count = Count.see x s.count := by
  obtain ⟨m, hpar⟩ := hs.parent
  have hT : P ++ x.path ≠ [] := by simp [hs.proper.ne_nil]
  have hmake : ∀ d', x.isDir = true →
      s.disk.makeDirectories (Path.below dest x.rel) directoryMode = (d', none) →
      visit t dest false x s = ({ s with disk := d' }, none) := by
    intro d' hdir hmade
    unfold visit
    simp [hdir, hmade]
  cases hl with
  | @dir k hdir hk =>
    refine ⟨_, hmake s.disk hdir ?_, puts_refl hk, by simp [Count.see, hdir]⟩
    rw [hs.proper.rel] at hu ⊢
    exact (hs.home.makeDirectories_ok hs.sound hs.proper.ne_nil hs.proper.names hpar).mpr
      ⟨hu, hpass, Or.inl ⟨k, hk, rfl⟩⟩
  | newDir hdir hnone hch =>
    refine ⟨_, hmake _ hdir ?_, puts_put s.disk _ hT, by simp [Count.see, hdir]⟩
    rw [hs.proper.rel] at hu ⊢
    exact (hs.home.makeDirectories_ok hs.sound hs.proper.ne_nil hs.proper.names hpar).mpr
      ⟨hu, hpass, Or.inr ⟨hnone, hch, rfl⟩⟩
  | @file r info hfile hacc ho hi hfail =>
    obtain ⟨d', hwritten, hputs⟩ :=
      file_written hs.home hs.proper hu hpass hacc ho hi (hs.source hfile r · ho)
    rw [hfail] at hwritten
    have hvisit : visit t dest false x s =
        (⟨d', s.count + 1, s.log ++ [note "copied file" dest x.rel]⟩, none) := by
      unfold visit
      simp [hfile, hwritten]
    exact ⟨_, hvisit, hputs, by simp [Count.see, hfile]⟩

/-- What is left where a directory could be made. -/
theorem Stage.leaves_of_makeDirectories (hs : Stage t dest P x d) (hdir : x.isDir = true)
    (h : d.makeDirectories (Path.below dest x.rel) directoryMode = (d', none)) :
    Usable (Path.below dest x.rel) ∧ d.Passable P x.path ∧ ∃ e, Leaves t P x d e := by
  obtain ⟨m, hpar⟩ := hs.parent
  rw [hs.proper.rel] at h ⊢
  obtain ⟨hu, hpass, hcase⟩ :=
    (hs.home.makeDirectories_ok hs.sound hs.proper.ne_nil hs.proper.names hpar).mp h
  refine ⟨hu, hpass, ?_⟩
  rcases hcase with ⟨k, hk, -⟩ | ⟨hnone, hch, -⟩
  · exact ⟨_, .dir hdir hk⟩
  · exact ⟨_, .newDir hdir hnone hch⟩

/-- What is left where a file could be copied. -/
theorem Stage.leaves_of_file (hs : Stage t dest P x d) (hfile : x.isDir = false)
    (h : file t d x.name (Path.below dest x.rel) = (d', none)) :
    Usable (Path.below dest x.rel) ∧ d.Passable P x.path ∧ ∃ e, Leaves t P x d e := by
  by_cases hfits : Usable (Path.below dest x.rel) ∧ d.Passable P x.path ∧ d.Accepts (P ++ x.path)
  · refine ⟨hfits.1, hfits.2.1, ?_⟩
    cases ho : t.openFile d x.name with
    | error f =>
      obtain ⟨f, hf⟩ := file_refused hs.home hs.proper (Or.inl ⟨f, ho⟩)
      exact absurd (h.symm.trans hf) (by simp)
    | ok r =>
      cases hi : r.info with
      | error f =>
        obtain ⟨f, hf⟩ := file_refused hs.home hs.proper (Or.inr (Or.inl ⟨r, f, ho, hi⟩))
        exact absurd (h.symm.trans hf) (by simp)
      | ok info =>
        obtain ⟨d₁, hwritten, -⟩ := file_written hs.home hs.proper hfits.1 hfits.2.1 hfits.2.2 ho hi
          (hs.source hfile r · ho)
        rw [h, Prod.mk.injEq] at hwritten
        exact ⟨_, .file hfile hfits.2.2 ho hi hwritten.2.symm⟩
  · obtain ⟨f, hf⟩ := file_refused (t := t) hs.home hs.proper (Or.inr (Or.inr hfits))
    exact absurd (h.symm.trans hf) (by simp)

/-- **A visit that succeeds puts one entry at one place.** -/
theorem Stage.visit_ok (hs : Stage t dest P x s.disk) (h : visit t dest false x s = (s', none)) :
    Usable (Path.below dest x.rel) ∧ s.disk.Passable P x.path ∧
      ∃ e, Leaves t P x s.disk e ∧ Puts s.disk (P ++ x.path) e s'.disk ∧
        s'.count = Count.see x s.count := by
  -- It is enough to find what is left, since visits are functions.
  suffices hl : Usable (Path.below dest x.rel) ∧ s.disk.Passable P x.path ∧
      ∃ e, Leaves t P x s.disk e by
    obtain ⟨hu, hpass, e, hl⟩ := hl
    obtain ⟨s₁, h₁, hputs, hcount⟩ := hs.visit_of_leaves hu hpass hl
    rw [h, Prod.mk.injEq] at h₁
    obtain ⟨rfl, -⟩ := h₁
    exact ⟨hu, hpass, e, hl, hputs, hcount⟩
  unfold visit at h
  dsimp only at h
  cases hdir : x.isDir with
  | true =>
    rw [hdir] at h
    cases hmade : s.disk.makeDirectories (Path.below dest x.rel) directoryMode with
    | mk d' f =>
      rw [hmade] at h
      cases f with
      | some f => simp at h
      | none => exact hs.leaves_of_makeDirectories hdir hmade
  | false =>
    rw [hdir] at h
    cases hfile : file t s.disk x.name (Path.below dest x.rel) with
    | mk d' f =>
      rw [hfile] at h
      cases f with
      | some f => simp at h
      | none => exact hs.leaves_of_file hdir hfile

theorem Leaves.of_isDir (h : Leaves t P x d e) (hx : x.isDir = true) : ∃ m, e = .dir m := by
  cases h with
  | dir _ _ => exact ⟨_, rfl⟩
  | newDir _ _ _ => exact ⟨_, rfl⟩
  | file hfile => exact absurd (hx.symm.trans hfile) (by simp)

/-- What is put at the place of a visit has a directory around it. -/
theorem puts_sound (hx : x.Proper) (hd : d.Sound)
    (hpar : ∃ m, d.get? (P ++ x.path.dropLast) = some (.dir m)) (hputs : Puts d (P ++ x.path) e d')
    (hgentle : Gentle d (P ++ x.path) e) : d'.Sound := by
  obtain ⟨m, hpar⟩ := hpar
  rw [← List.dropLast_append_getLast hx.ne_nil, ← List.append_assoc] at hputs hgentle
  exact hputs.sound hgentle hd hpar (hx.names _ (List.getLast_mem hx.ne_nil))

/-! ## 5. The whole copy

A copy checks its patterns, makes its destination and walks.  A dry run goes without the destination. -/

variable {w : Walk.Scope} {d₀ d₁ d₂ : Disk} {xs : List Visit}

/-- What copies the things that a walk visits. -/
def visitor (t : Tree) (dest : Bytes) : Visitor State :=
  { disk := State.disk, visit := visit t dest false }

/-- The ways a copy can go. -/
inductive Course (w : Walk.Scope) (dest : Bytes) (d : Disk) : Bool → State × Option Failure → Prop
  | malformed {dryRun : Bool} {f : Failure} : Walk.checkPatterns w.exclude = .error f →
      Course w dest d dryRun ({ disk := d }, some f)
  | dry : Walk.checkPatterns w.exclude = .ok () →
      Course w dest d true (Walk.run w { disk := State.disk, visit := visit w.tree dest true } { disk := d })
  | unmade {d₀ : Disk} {doing : Bytes} {f : Failure} : Walk.checkPatterns w.exclude = .ok () →
      d.makeDirectories dest directoryMode = (d₀, some f) →
      Course w dest d false ({ disk := d₀ }, some (.during doing f))
  | walked {d₀ : Disk} : Walk.checkPatterns w.exclude = .ok () →
      d.makeDirectories dest directoryMode = (d₀, none) →
      Course w dest d false (Walk.run w (visitor w.tree dest) { disk := d₀ })

theorem run_eq_walk (hp : Walk.checkPatterns w.exclude = .ok ())
    (hm : d.makeDirectories dest directoryMode = (d₀, none)) :
    run w dest false d = Walk.run w (visitor w.tree dest) { disk := d₀ } := by
  unfold run
  rw [hp]
  simp only [Bool.false_eq_true, if_false, hm]
  rfl

/-- **Every copy goes one of these ways.** -/
theorem course (w : Walk.Scope) (dest : Bytes) (dryRun : Bool) (d : Disk) :
    Course w dest d dryRun (run w dest dryRun d) := by
  cases hp : Walk.checkPatterns w.exclude with
  | error f =>
    unfold run
    rw [hp]
    exact .malformed hp
  | ok u =>
    cases dryRun with
    | true =>
      unfold run
      rw [hp]
      exact .dry hp
    | false =>
      cases hm : d.makeDirectories dest directoryMode with
      | mk d₀ f =>
        cases f with
        | none =>
          rw [run_eq_walk hp hm]
          exact .walked hp hm
        | some f =>
          unfold run
          rw [hp]
          simp only [Bool.false_eq_true, if_false, hm]
          exact .unmade hp hm

theorem run_ok (h : run w dest false d = (s, none)) : Walk.checkPatterns w.exclude = .ok () ∧
    ∃ d₀, d.makeDirectories dest directoryMode = (d₀, none) := by
  have hcourse := course w dest false d
  rw [h] at hcourse
  generalize hresult : (s, none) = result at hcourse
  cases hcourse with
  | malformed _ => cases hresult
  | unmade _ _ => cases hresult
  | walked hp hm => exact ⟨hp, _, hm⟩

/-- What is copied goes below the clean form of the destination's path, which leads to a directory once the
destination has been made.  So it is for every path that is clean, and for others unless they go up again
from a link. -/
def Straight (dest : Bytes) (d : Disk) : Prop :=
  ∀ d₀, d.makeDirectories dest directoryMode = (d₀, none) → d₀.isDirectory (Path.clean dest) = true

theorem straight_of_clean (h : Path.clean dest = dest) : Straight dest d := by
  intro d₀ hm
  rw [h]
  exact makeDirectories_isDirectory hm

/-- The visits go to different places. -/
def Distinct (xs : List Visit) : Prop := xs.Pairwise fun x y => x.path ≠ y.path

theorem distinct_of_shaped {first : Bytes → Prop} (h : Walk.Shaped w [] first xs) : Distinct xs := by
  refine h.sorted.imp fun {x y} hlt heq => ?_
  rw [heq] at hlt
  exact List.lt_irrefl y.path hlt

theorem place_ne {y : Visit} (h : x.path ≠ y.path) : P ++ x.path ≠ P ++ y.path :=
  fun heq => h (List.append_cancel_left heq)

/-- What the first visit left stays to the end. -/
theorem get?_of_settles (hdist : Distinct (x :: xs)) (hputs : Puts d (P ++ x.path) e d₁)
    (hframe : ∀ p, (∀ y ∈ xs, p ≠ P ++ y.path) → d₂.get? p = d₁.get? p) :
    d₂.get? (P ++ x.path) = some e := by
  rw [hframe _ fun y hy => place_ne ((List.pairwise_cons.mp hdist).1 y hy), hputs.self]

end Copy

end AgentKit
