import AgentKit.Proofs.Copying
import AgentKit.Proofs.Elsewhere
/-!
# Destinations on a detour

A copy makes the directory of its destination's path, and writes below the clean form of that path.  Where
the path goes up again from a link the two are different directories, and the second may not be there when
the walk begins.  It is made with the first directory that is visited then.

1. `MadeAlong` says which directories come of making those along a path: each is where one of the paths
   above it leads.
2. Names of a clean path go up first and down then (`Path.cleanNames_shape`).  So **what is made on the way
   to a clean path is around the place that the path leads to** (`goal_of_made`).
3. **A directory that could be made below a path can be made in two steps** (`makeDirectories_below`): first
   the path itself, then the directory.

An example is the destination `link/../kit` where `link` leads to `/elsewhere/dir`.  The path leads to `/elsewhere/kit`,
and this directory is made at the start.  The clean form is `kit`, and this is where the files go.  So there may be two
new directories after a copy, and one of them stays empty.  The theorems about copies are about the second one, and
what is shown here is that the copy may be taken to make it before anything else, as if the path had been clean.
-/

namespace AgentKit

/-! ## 1. Directories made along a path

Which directories are made when some are missing?  Those of the paths above, at the places where these paths
lead. -/

namespace Disk

variable {d d' d₁ d₂ : Disk} {mode n : Nat} {p q r : Place} {path parent dest x : Bytes}
  {ns ms : List Bytes}

/-- From `d` to `d'` nothing changes but that directories come where the paths above `path` lead. -/
structure MadeAlong (mode : Nat) (path : Bytes) (d d' : Disk) : Prop extends Adds mode d d' where
  sound : d.Sound → d'.Sound
  along : ∀ p, d'.get? p = d.get? p ∨ ∃ y, Above path y ∧ d.goal y = p

theorem MadeAlong.refl (mode : Nat) (path : Bytes) (d : Disk) : MadeAlong mode path d d :=
  ⟨Adds.refl mode d, fun h => h, fun _ => Or.inl rfl⟩

/-- One more directory along the path.  Where it is made is where its path has always led, since goals do not
change. -/
theorem MadeAlong.last (h : MadeAlong mode path d d₁) (hx : Above path x)
    (hlast : d₁.makeLast x mode = .ok d₂) : MadeAlong mode path d d₂ := by
  refine ⟨h.toAdds.trans (makeLast_adds hlast), fun hd => makeLast_sound (h.sound hd) hlast,
    fun p => ?_⟩
  rcases makeLast_ok hlast with hmade | ⟨rfl, -⟩
  · obtain ⟨q, -, hputs, hfind⟩ := makeDirectory_find hmade
    have hkeeps := h.toAdds.keeps.trans (makeLast_adds hlast).keeps
    by_cases hpq : p = q
    · exact Or.inr ⟨x, hx, by rw [← hkeeps.goal_eq, goal_of_find hfind, hpq]⟩
    · rw [hputs.other hpq]
      exact h.along p
  · exact h.along p

/-- **Directories come only along the path.** -/
theorem makeDirectories_along (d : Disk) (path : Bytes) (mode : Nat) :
    MadeAlong mode path d (d.makeDirectories path mode).1 :=
  makeDirectories_rel (MadeAlong.refl mode path d) fun hx h hlast => h.last hx hlast

/-- A directory can be made only where its path leads. -/
theorem makeDirectory_locate (h : d.makeDirectory path mode = .ok d') :
    ∃ p, d.locate true path = .ok p := by
  obtain ⟨hu, init, name, parent, hnames, hpar, hin⟩ := makeDirectory_ok.mp h
  obtain ⟨hch, hname, hnone, -⟩ := makeDirectoryIn_ok.mp hin
  obtain ⟨m, hm, -, hs⟩ := allowsChange_iff.mp hch
  obtain ⟨k, -, heq⟩ := hpar.append_eq hm
  refine ⟨parent ++ [name], ?_⟩
  rw [locate_of_usable hu, hnames, heq d _ _ (Keeps.refl d) (by simp)]
  exact followWithin_last ⟨m, hm, hs⟩ hname (Or.inl hnone)

/-- Where a directory had to be made the one around it was made first. -/
theorem makeDirectories_parent (h : d.makeDirectories path mode = (d', none))
    (hdir : d.isDirectory path = false) (hpar : parentPath? path = some parent) :
    ∃ fuel d₁, makeDirectoriesWithin mode fuel d parent = (d₁, none) ∧
      d₁.makeLast path mode = .ok d' := by
  unfold makeDirectories makeDirectoriesWithin at h
  cases hs : d.statusOf path with
  | ok i =>
    rw [hs] at h
    dsimp only at h
    split at h
    · rename_i hi
      rw [isDirectory, hs] at hdir
      exact absurd (hi.symm.trans hdir) (by simp)
    · cases h
  | error x =>
    rw [hs] at h
    dsimp only at h
    rw [hpar] at h
    dsimp only at h
    cases hbefore : makeDirectoriesWithin mode path.length d parent with
    | mk d₁ f =>
      rw [hbefore] at h
      cases f with
      | some f => cases h
      | none =>
        dsimp only at h
        cases hlast : d₁.makeLast path mode with
        | error f =>
          rw [hlast] at h
          cases h
        | ok d₂ =>
          rw [hlast] at h
          cases h
          exact ⟨path.length, d₁, hbefore, hlast⟩

/-- What made the last directory of a path makes the whole of it when it is done again. -/
theorem makeDirectories_of_last (hne : path ≠ [])
    (hpar : ∀ parent, parentPath? path = some parent → d.isDirectory parent = true)
    (hlast : d.makeLast path mode = .ok d') : d.makeDirectories path mode = (d', none) := by
  rcases makeLast_ok hlast with hmade | ⟨rfl, -⟩
  · refine (makeDirectories_of_parent (fun i hi => ?_) hne hpar).mpr hlast
    -- Nothing was where the directory has come.
    obtain ⟨p, hnone, -, hfind⟩ := makeDirectory_find hmade
    obtain ⟨q, e, hfind', -⟩ := statusOf_eq_ok.mp hi
    have hgoal : q = p := by
      rw [← goal_of_find hfind, (makeLast_adds hlast).keeps.goal_eq, goal_of_find hfind']
    rw [hgoal] at hfind'
    exact absurd (hnone.symm.trans (find_eq_ok.mp hfind').2.1) (by simp)
  · exact makeDirectories_of_isDirectory (makeLast_isDirectory hlast)

end Disk

/-! ## 2. The way to a clean path

The names of a clean path are some times `..` and then ordinary names.  A directory that has to be made is not
made by going up, so it belongs to the second part, and from there on the way leads down through what is not
there yet. -/

namespace Path

/-- **The names of a clean path go up first and down then.** -/
theorem cleanNames_shape (t : Bytes) : ∃ ups rest, cleanNames t = ups ++ rest ∧
    (∀ n ∈ ups, n = "..") ∧ ∀ n ∈ rest, IsName n := by
  -- The names taken so far stand the other way round.
  have hfold : ∀ (ns before : List Bytes), (∀ n ∈ ns, n ≠ [] ∧ byte '/' ∉ n) →
      (∃ rest ups, before = rest ++ ups ∧ (∀ n ∈ ups, n = Bytes.ofString "..") ∧
        ∀ n ∈ rest, IsName n) →
      ∃ rest ups, ns.foldl (cleanStep (isAbsolute t)) before = rest ++ ups ∧
        (∀ n ∈ ups, n = Bytes.ofString "..") ∧ ∀ n ∈ rest, IsName n := by
    intro ns
    induction ns with
    | nil => exact fun _ _ h => h
    | cons name ns ih =>
      rintro before hns ⟨rest, ups, rfl, hups, hrest⟩
      have hname := hns name (by simp)
      refine ih _ (fun n hn => hns n (List.mem_cons_of_mem _ hn)) ?_
      unfold cleanStep
      by_cases hdot : name = "."
      · rw [if_pos hdot]
        exact ⟨rest, ups, rfl, hups, hrest⟩
      rw [if_neg hdot]
      -- Going up takes back the name before it, unless there is none or it goes up as well.
      by_cases hup : name = ".."
      · rw [if_pos hup]
        cases rest with
        | cons b rest =>
          have hb := hrest b (by simp)
          rw [List.cons_append]
          dsimp only
          rw [if_neg hb.ne_up]
          exact ⟨rest, ups, rfl, hups, fun n hn => hrest n (List.mem_cons_of_mem _ hn)⟩
        | nil =>
          rw [List.nil_append]
          cases ups with
          | nil =>
            dsimp only
            split
            · exact ⟨[], [], rfl, by simp, by simp⟩
            · exact ⟨[], [name], rfl, by simpa using hup, by simp⟩
          | cons u ups =>
            dsimp only
            rw [if_pos (hups u (by simp))]
            refine ⟨[], name :: u :: ups, rfl, fun n hn => ?_, by simp⟩
            rcases List.mem_cons.mp hn with rfl | hn
            · exact hup
            · exact hups n hn
      · rw [if_neg hup]
        refine ⟨name :: rest, ups, rfl, hups, fun n hn => ?_⟩
        rcases List.mem_cons.mp hn with rfl | hn
        · exact ⟨hname.1, hname.2, hdot, hup⟩
        · exact hrest n hn
  obtain ⟨rest, ups, heq, hups, hrest⟩ :=
    hfold (names t) [] (fun _ hn => mem_names hn) ⟨[], [], rfl, by simp, by simp⟩
  refine ⟨ups.reverse, rest.reverse, ?_, fun n hn => hups n (List.mem_reverse.mp hn),
    fun n hn => hrest n (List.mem_reverse.mp hn)⟩
  rw [cleanNames, heq, List.reverse_append]

/-- Behind a name that does not go up there are only such names. -/
theorem isName_behind {t name : Bytes} {init rest : List Bytes} (h : cleanNames t = init ++ name :: rest)
    (hname : name ≠ "..") : ∀ n ∈ rest, IsName n := by
  obtain ⟨ups, down, hshape, hups, hdown⟩ := cleanNames_shape t
  rw [hshape] at h
  rcases List.append_eq_append_iff.mp h with ⟨mid, rfl, rfl⟩ | ⟨mid, rfl, hmid⟩
  · exact fun n hn => hdown n (by simp [hn])
  · cases mid with
    | nil =>
      rw [List.nil_append] at hmid
      exact fun n hn => hdown n (hmid ▸ List.mem_cons_of_mem _ hn)
    | cons u mid =>
      rw [List.cons_append, List.cons.injEq] at hmid
      exact absurd (hups name (by simp [hmid.1])) hname

end Path

namespace Disk

variable {d d' d₁ d₂ : Disk} {mode n : Nat} {p q r : Place} {path parent dest x : Bytes}
  {ns ms : List Bytes}

theorem getLast?_cons_trail : (p :: d.trailWithin n q ns).getLast? = (d.trailWithin n q ns).getLast? := by
  have hne : d.trailWithin n q ns ≠ [] := List.ne_nil_of_mem mem_trailWithin_self
  rw [List.getLast?_cons, List.getLast?_eq_some_getLast hne]
  rfl

/-- A trail goes on from where its first part leads. -/
theorem Follows.trail_append (h : Follows d true n p ns r) : ∃ k, ∀ ms,
    (d.trailWithin n p (ns ++ ms)).getLast? = (d.trailWithin k r ms).getLast? := by
  induction h with
  | stop n p => exact ⟨n, fun _ => rfl⟩
  | dot _ _ ih =>
    obtain ⟨k, hk⟩ := ih
    refine ⟨k, fun ms => ?_⟩
    rw [List.cons_append, trailWithin_dot, getLast?_cons_trail, hk]
  | up _ _ ih =>
    obtain ⟨k, hk⟩ := ih
    refine ⟨k, fun ms => ?_⟩
    rw [List.cons_append, trailWithin_up, getLast?_cons_trail, hk]
  | into _ hn he _ ih =>
    obtain ⟨k, hk⟩ := ih
    refine ⟨k, fun ms => ?_⟩
    rw [List.cons_append, trailWithin_on ⟨hn.ne_dot, hn.ne_up⟩ (by simp [he]), getLast?_cons_trail, hk]
  -- The trail goes on behind a file or nothing as behind a directory.
  | @last n p name _ hn he =>
    have hno : ∀ t, d.get? (p ++ [name]) ≠ some (.link t) := by
      rcases he with he | ⟨m, c, he⟩ <;> simp [he]
    refine ⟨n, fun ms => ?_⟩
    rw [List.singleton_append, trailWithin_on ⟨hn.ne_dot, hn.ne_up⟩ hno, getLast?_cons_trail]
  | link _ hn he _ _ ih =>
    obtain ⟨k, hk⟩ := ih
    refine ⟨k, fun ms => ?_⟩
    rw [List.cons_append, trailWithin_link ⟨hn.ne_dot, hn.ne_up⟩ he, getLast?_cons_trail,
      ← List.append_assoc, hk]
  | lastLink _ _ _ hf => exact absurd hf (by simp)

/-- Where there are no links a trail ends at the place that the names spell. -/
theorem NoLinkIn.getLast?_trail (hno : NoLinkIn p d) : ∀ {ns : List Bytes} {q : Place}, p <+: q →
    (∀ m ∈ ns, Path.IsName m) → (d.trailWithin n q ns).getLast? = some (q ++ ns)
  | [], q, _, _ => by rw [trailWithin_nil, List.append_nil]; rfl
  | name :: ns, q, hq, hns => by
    have hname := hns name (by simp)
    have hq' : p <+: q ++ [name] := hq.trans (List.prefix_append q [name])
    rw [trailWithin_on ⟨hname.ne_dot, hname.ne_up⟩ fun t => hno _ t hq', getLast?_cons_trail,
      hno.getLast?_trail hq' fun m hm => hns m (List.mem_cons_of_mem _ hm), List.append_assoc,
      List.singleton_append]

/-- There is nothing above the root, nor above the dot. -/
theorem Above.of_bare {absolute : Bool} (h : Above (Path.spell absolute []) x) :
    x = Path.spell absolute [] := by
  have hnone : parentPath? (Path.spell absolute []) = none := by cases absolute <;> decide
  cases h with
  | self => rfl
  | up hpar => exact absurd (hnone.symm.trans hpar) (by simp)

/-- Above a path of some names there are those of its first names. -/
theorem Above.of_spell {absolute : Bool} (h : Above (Path.spell absolute ns) x) (hne : ns ≠ [])
    (hns : ∀ n ∈ ns, n ≠ [] ∧ byte '/' ∉ n) :
    ∃ ms, ms ≠ [] ∧ ms <+: ns ∧ x = Path.spell absolute ms := by
  generalize hpath : Path.spell absolute ns = path at h
  induction h generalizing ns with
  | self path => exact ⟨ns, hne, List.prefix_refl ns, hpath.symm⟩
  | @up path parent x hpar _ ih =>
    obtain ⟨init, last, rfl⟩ := (List.eq_nil_or_concat' ns).resolve_left hne
    rw [← hpath, Path.parentPath?_spell absolute (hns last (by simp)) fun n hn => hns n (by simp [hn])]
      at hpar
    split at hpar
    · cases hpar
    · rename_i hinit
      cases hpar
      obtain ⟨ms, hms, hpre, rfl⟩ := ih hinit (fun n hn => hns n (by simp [hn])) rfl
      exact ⟨ms, hms, hpre.trans (List.prefix_append init [last]), rfl⟩

/-- **A directory made on the way to a clean path is around the place that the path leads to.** -/
theorem goal_of_made (hd : d.Sound) (hx : Above (Path.clean dest) x)
    (h : d.makeDirectory x mode = .ok d') :
    ∃ p, Puts d p (.dir mode) d' ∧ p <+: d.goal (Path.clean dest) := by
  obtain ⟨-, init, name, parent, hnames, hpar, hin⟩ := makeDirectory_ok.mp h
  obtain ⟨-, hname, hnone, rfl⟩ := makeDirectoryIn_ok.mp hin
  refine ⟨parent ++ [name], puts_put d _ (by simp), ?_⟩
  have hall : ∀ n ∈ Path.cleanNames dest, n ≠ [] ∧ byte '/' ∉ n := fun _ => Path.mem_cleanNames
  have hclean : Path.cleanNames dest ≠ [] := by
    -- Neither the root nor the dot has a name that could be made.
    intro hnil
    rw [Path.clean_eq_spell, hnil] at hx
    have hdots : ∀ m ∈ Path.names x, m = "." := by
      rw [hx.of_bare]
      cases Path.isAbsolute dest <;> decide
    exact hname.ne_dot (hdots name (by simp [hnames]))
  rw [Path.clean_eq_spell] at hx
  obtain ⟨ms, hms, ⟨rest, hrest⟩, rfl⟩ := hx.of_spell hclean hall
  have hmsall : ∀ n ∈ ms, n ≠ [] ∧ byte '/' ∉ n := fun n hn => hall n (hrest ▸ List.mem_append_left _ hn)
  rw [Path.names_spell _ hms hmsall] at hnames
  subst hnames
  rw [start, Path.isAbsolute_spell _ hms hmsall] at hpar
  rw [List.append_assoc, List.singleton_append] at hrest
  have hbehind := Path.isName_behind hrest.symm hname.ne_up
  -- The rest of the path leads on below the new directory, and there are no links below what is not there.
  have hgoal : d.goal (Path.clean dest) = parent ++ [name] ++ rest := by
    obtain ⟨k, hk⟩ := hpar.trail_append
    have hno := noLinkIn_of_none hd hnone
    rw [goal, trail, Path.clean_eq_spell, Path.isAbsolute_spell _ hclean hall,
      Path.names_spell _ hclean hall, ← hrest, hk,
      trailWithin_on ⟨hname.ne_dot, hname.ne_up⟩ (by simp [hnone]), getLast?_cons_trail,
      hno.getLast?_trail (List.prefix_refl _) hbehind]
    rfl
  rw [hgoal]
  exact List.prefix_append _ rest

/-! ## 3. Making the way and what is at its end

The first directory that is visited is made with all that is missing on the way to it.  This is the same as
making the way first. -/

/-- Directories made on the way to the clean form of `dest`. -/
structure Cleared (mode : Nat) (dest : Bytes) (d d' : Disk) : Prop
    extends MadeAlong mode (Path.clean dest) d d' where
  around : ∀ p, d'.get? p = d.get? p ∨ p <+: d.goal (Path.clean dest)

theorem Cleared.refl (mode : Nat) (dest : Bytes) (d : Disk) : Cleared mode dest d d :=
  ⟨MadeAlong.refl mode _ d, fun _ => Or.inl rfl⟩

theorem Cleared.last (hd : d.Sound) (h : Cleared mode dest d d₁) (hx : Above (Path.clean dest) x)
    (hlast : d₁.makeLast x mode = .ok d₂) : Cleared mode dest d d₂ := by
  refine ⟨h.toMadeAlong.last hx hlast, fun p => ?_⟩
  rcases makeLast_ok hlast with hmade | ⟨rfl, -⟩
  · obtain ⟨q, hputs, hq⟩ := goal_of_made (h.sound hd) hx hmade
    rw [h.toAdds.keeps.goal_eq] at hq
    by_cases hpq : p = q
    · exact Or.inr (hpq ▸ hq)
    · rw [hputs.other hpq]
      exact h.around p
  · exact h.around p

theorem Adds.retains {P : Place} (h : Adds mode d d') : Retains P d d' :=
  ⟨h.keeps, fun _ _ _ he => h.of_some he⟩

theorem Cleared.advances {P : Place} (h : Cleared mode dest d d') (hgoal : d.goal (Path.clean dest) = P) :
    Advances P d d' := by
  refine ⟨h.toAdds.retains, fun p _ hp => ?_⟩
  exact (h.around p).resolve_right fun hpre => hp (hgoal ▸ hpre)

/-- Once the way has been made the destination can be copied to. -/
theorem Cleared.home {P : Place} (h : Cleared mode dest d d') (hgoal : d.goal (Path.clean dest) = P)
    (hno : NoLinkIn P d) (hdir : d'.isDirectory (Path.clean dest) = true) : Home dest P d' := by
  have hkeeps := h.toAdds.keeps
  obtain ⟨p, m, hfind⟩ := isDirectory_iff.mp hdir
  have hp : p = P := by rw [← goal_of_find hfind, hkeeps.goal_eq, hgoal]
  rw [hp] at hfind
  exact home_of_find hfind (hno.keeps hkeeps)

theorem makeDirectoriesWithin_cleared (hd : d.Sound) (fuel : Nat) :
    Cleared mode dest d (makeDirectoriesWithin mode fuel d (Path.clean dest)).1 :=
  makeDirectoriesWithin_rel (R := fun result => Cleared mode dest d result.1) (Cleared.refl mode dest d)
    (fun _ _ => Cleared.refl mode dest d) fuel _ (fun hx h hlast => h.last hd hx hlast) fun h _ => h

/-- **A directory that can be made below a path can be made in two steps.** -/
theorem makeDirectories_below {name : Bytes} (hd : d.Sound) (hname : Path.IsName name)
    (hno : d.isDirectory (Path.clean dest) = false)
    (h : d.makeDirectories (Path.below dest (Path.join [name])) mode = (d', none)) :
    ∃ d₁, Cleared mode dest d d₁ ∧ d₁.isDirectory (Path.clean dest) = true ∧
      d₁.makeDirectories (Path.below dest (Path.join [name])) mode = (d', none) := by
  have hone : ∀ m ∈ [name], Path.IsName m := by simpa using hname
  have hbelow := Path.below_join dest (by simp) hone
  have hpar := Path.parentPath?_spell (Path.isAbsolute dest) ⟨hname.ne_nil, hname.no_slash⟩
    (fun _ hn => Path.mem_cleanNames hn : ∀ n ∈ Path.cleanNames dest, n ≠ [] ∧ byte '/' ∉ n)
  rw [← hbelow] at hpar
  -- The path below can lead somewhere only if its parent is a directory.
  have hnowhere : ∀ follow r, d.locate follow (Path.below dest (Path.join [name])) ≠ .ok r := by
    intro follow r hl
    obtain ⟨P, m, hfind⟩ := find_clean_of_locate (by simp) hone hl
    rw [isDirectory_iff.mpr ⟨P, m, hfind⟩] at hno
    cases hno
  have hnodir : d.isDirectory (Path.below dest (Path.join [name])) = false := by
    rw [← Bool.not_eq_true]
    intro hdir
    obtain ⟨p, m, hfind⟩ := isDirectory_iff.mp hdir
    exact hnowhere true p (find_eq_ok.mp hfind).1
  have hne : Path.below dest (Path.join [name]) ≠ [] := by
    intro hnil
    obtain ⟨p, m, hfind⟩ := isDirectory_iff.mp (makeDirectories_isDirectory h)
    exact (usable_of_locate (find_eq_ok.mp hfind).1).ne_nil hnil
  by_cases hnil : Path.cleanNames dest = []
  · -- The directory would be made in one that is there.
    rw [if_pos hnil] at hpar
    have hs : ∀ i, d.statusOf (Path.below dest (Path.join [name])) ≠ .ok i := by
      intro i hi
      obtain ⟨p, e, hfind, -⟩ := statusOf_eq_ok.mp hi
      exact hnowhere true p (find_eq_ok.mp hfind).1
    have hlast := (makeDirectories_of_parent hs hne fun parent hp => absurd (hpar.symm.trans hp) (by simp)).mp h
    rcases makeLast_ok hlast with hmade | ⟨-, p, m, hfind⟩
    · obtain ⟨p, hp⟩ := makeDirectory_locate hmade
      exact absurd hp (hnowhere true p)
    · exact absurd (find_eq_ok.mp hfind).1 (hnowhere false p)
  · rw [if_neg hnil, ← Path.clean_eq_spell] at hpar
    obtain ⟨fuel, d₁, hway, hlast⟩ := makeDirectories_parent h hnodir hpar
    have hcleared : Cleared mode dest d (makeDirectoriesWithin mode fuel d (Path.clean dest)).1 :=
      makeDirectoriesWithin_cleared hd fuel
    rw [hway] at hcleared
    have hdir := makeDirectoriesWithin_isDirectory hway
    refine ⟨d₁, hcleared, hdir, makeDirectories_of_last hne (fun parent hp => ?_) hlast⟩
    rw [hpar, Option.some.injEq] at hp
    exact hp ▸ hdir

end Disk

end AgentKit
