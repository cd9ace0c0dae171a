import AgentKit.Proofs.Places
/-!
# Where a path leads

Following a path is a search through directories and links that may fail at every name.  Two questions
about it come up whenever a disk changes while something is being read from it: does the path still lead
where it led, and can the change be seen from it at all?

* `Follows` says how a path that leads somewhere does so, one rule for each kind of step
  (`followWithin_eq_ok`).
* **Paths are kept.**  If directories keep their modes and links stay the same, then whatever led somewhere
  still leads there (`Follows.keeps`), however files and empty places change.
* **The trail.**  A path can only see the places it leads over.  `trailWithin` gives these, taking what is
  missing for a directory, so that it depends on the links alone (`trailWithin_congr`).  A path whose trail
  stays out of some part of the disk is followed alike whatever is put there (`followWithin_agree`).
* **Paths can be cut.**  A path goes on from where its first part leads, with some of the links used up
  (`Follows.append_eq`, `Follows.cut`).

Why two notions?  `Follows` speaks only of paths that lead somewhere, and it is the right thing to do induction
on: success has a derivation, one rule a name.  It says nothing of a path that fails.  A copy, however, turns
failures into successes by making directories, so a path that failed before may lead somewhere afterwards, and
for that one needs to know beforehand where it can possibly go.  The trail is defined for every path, failing
or not, and the place where it ends (`goal`) is where the path leads if it leads anywhere.

The number of links that a path may still lead over is an argument of all this.  It goes down at each link and
nowhere else, so where lemmas compare two paths they have to say what became of it.
-/

namespace AgentKit.Disk

variable {d d' : Disk} {follow : Bool} {n : Nat} {p q r : Place} {name : Bytes} {rest ns ms : List Bytes}
  {onLink : Place → List Bytes → Except Errno Place}

/-! ## 1. One step

The definition tries the cases in a fixed order: the directory must be one that can be searched, then come the
dots, the length of the name, and what is there.  One equation for each case, with the conditions under which it
is the one that applies, so that the definition need not be unfolded again. -/

/-- Things can be looked up in the directory at `p`.  Every rule asks for it, the dots included: not even `.`
leads anywhere from a directory that may not be searched. -/
def Enterable (d : Disk) (p : Place) : Prop := ∃ m, d.get? p = some (.dir m) ∧ searchable m = true

/-- A name that leads into what is called so, and is not too long for that. -/
structure Plain (name : Bytes) : Prop where
  ne_dot : name ≠ "."
  ne_up : name ≠ ".."
  short : name.length ≤ 255

/-- Where the target of a link in `p` starts from. -/
def linkStart (p : Place) (target : Bytes) : Place := if Path.isAbsolute target then [] else p

theorem followNames_dot (h : d.Enterable p) :
    followNames d follow onLink p (Bytes.ofString "." :: rest) =
      followNames d follow onLink p rest := by
  obtain ⟨m, hm, hs⟩ := h
  rw [followNames.eq_def]
  simp [hm, hs]

theorem followNames_up (h : d.Enterable p) :
    followNames d follow onLink p (Bytes.ofString ".." :: rest) =
      followNames d follow onLink p.dropLast rest := by
  obtain ⟨m, hm, hs⟩ := h
  have hne : Bytes.ofString ".." ≠ Bytes.ofString "." := by decide
  rw [followNames.eq_def]
  simp [hm, hs, hne]

theorem followNames_dir {k : Nat} (h : d.Enterable p) (hn : Plain name)
    (hk : d.get? (p ++ [name]) = some (.dir k)) :
    followNames d follow onLink p (name :: rest) =
      followNames d follow onLink (p ++ [name]) rest := by
  obtain ⟨m, hm, hs⟩ := h
  rw [followNames.eq_def]
  simp [hm, hs, hn.ne_dot, hn.ne_up, Nat.not_lt.mpr hn.short, hk]

/-- A link is followed by going over its target first and then over the rest, with one link less to spend.  At
the end of a path this is done only if the caller wants it so. -/
theorem followNames_link {t : Bytes} (h : d.Enterable p) (hn : Plain name)
    (hk : d.get? (p ++ [name]) = some (.link t)) (hr : rest ≠ [] ∨ follow = true) :
    followNames d follow onLink p (name :: rest) = onLink (linkStart p t) (hops t ++ rest) := by
  obtain ⟨m, hm, hs⟩ := h
  have hgo : (rest.isEmpty && !follow) = false := by
    rcases hr with hr | hr <;> simp [hr]
  rw [followNames.eq_def]
  simp [hm, hs, hn.ne_dot, hn.ne_up, Nat.not_lt.mpr hn.short, hk, hgo, linkStart]

theorem followNames_lastLink {t : Bytes} (h : d.Enterable p) (hn : Plain name)
    (hk : d.get? (p ++ [name]) = some (.link t)) :
    followNames d false onLink p [name] = .ok (p ++ [name]) := by
  obtain ⟨m, hm, hs⟩ := h
  rw [followNames.eq_def]
  simp [hm, hs, hn.ne_dot, hn.ne_up, Nat.not_lt.mpr hn.short, hk]

/-- Nothing or a file is at the place.  A path may end there but not go on, and it is where a file can be
written. -/
def Plot (d : Disk) (p : Place) : Prop := d.get? p = none ∨ ∃ m c, d.get? p = some (.file m c)

theorem followNames_last (h : d.Enterable p) (hn : Plain name) (hk : d.Plot (p ++ [name])) :
    followNames d follow onLink p [name] = .ok (p ++ [name]) := by
  obtain ⟨m, hm, hs⟩ := h
  rw [followNames.eq_def]
  rcases hk with hk | ⟨k, c, hk⟩ <;>
    simp [hm, hs, hn.ne_dot, hn.ne_up, Nat.not_lt.mpr hn.short, hk]

/-- However a path goes on, the directory it starts from can be searched. -/
theorem enterable_of_followNames (h : followNames d follow onLink p (name :: rest) = .ok q) :
    d.Enterable p := by
  rw [followNames.eq_def] at h
  dsimp only at h
  split at h
  · rename_i m hm
    by_cases hs : searchable m = true
    · exact ⟨m, hm, hs⟩
    · simp [hs] at h
  · cases h
  · cases h

/-- No path leads over a file or over nothing. -/
theorem followNames_through (hn : Plain name) (hk : d.Plot (p ++ [name])) (hr : rest ≠ []) :
    followNames d follow onLink p (name :: rest) ≠ .ok q := by
  intro h
  obtain ⟨m, hm, hs⟩ := enterable_of_followNames h
  obtain ⟨x, xs, rfl⟩ := List.exists_cons_of_ne_nil hr
  rw [followNames.eq_def] at h
  rcases hk with hk | ⟨k, c, hk⟩ <;>
    simp [hm, hs, hn.ne_dot, hn.ne_up, Nat.not_lt.mpr hn.short, hk] at h

/-- A name that is too long leads nowhere, though only once the directory has been looked at. -/
theorem plain_of_followNames (h : followNames d follow onLink p (name :: rest) = .ok q)
    (hdot : name ≠ ".") (hup : name ≠ "..") : Plain name := by
  obtain ⟨m, hm, hs⟩ := enterable_of_followNames h
  refine ⟨hdot, hup, Nat.not_lt.mp fun hlong => ?_⟩
  rw [followNames.eq_def] at h
  simp [hm, hs, hdot, hup, hlong] at h

/-! ## 2. The rules of following

The function recurses over the names and, for links, over a budget; it is written with the continuation as an
argument so that Lean sees it terminate.  The rules forget the continuation.  That they are the same thing
(`followWithin_eq_ok`) is by induction on the budget one way, with the names inside, and by induction on the
rules the other way. -/

/-- How names lead from one place to another over at most so many links. -/
inductive Follows (d : Disk) (follow : Bool) : Nat → Place → List Bytes → Place → Prop
  | stop (n : Nat) (p : Place) : Follows d follow n p [] p
  | dot {n : Nat} {p q : Place} {rest : List Bytes} : d.Enterable p →
      Follows d follow n p rest q → Follows d follow n p (Bytes.ofString "." :: rest) q
  | up {n : Nat} {p q : Place} {rest : List Bytes} : d.Enterable p →
      Follows d follow n p.dropLast rest q → Follows d follow n p (Bytes.ofString ".." :: rest) q
  | into {n : Nat} {p q : Place} {name : Bytes} {rest : List Bytes} {k : Nat} : d.Enterable p →
      Plain name → d.get? (p ++ [name]) = some (.dir k) →
      Follows d follow n (p ++ [name]) rest q → Follows d follow n p (name :: rest) q
  | last {n : Nat} {p : Place} {name : Bytes} : d.Enterable p → Plain name →
      d.Plot (p ++ [name]) → Follows d follow n p [name] (p ++ [name])
  | link {n : Nat} {p q : Place} {name : Bytes} {rest : List Bytes} {t : Bytes} : d.Enterable p →
      Plain name → d.get? (p ++ [name]) = some (.link t) → (rest ≠ [] ∨ follow = true) →
      Follows d follow n (linkStart p t) (hops t ++ rest) q →
      Follows d follow (n + 1) p (name :: rest) q
  | lastLink {n : Nat} {p : Place} {name t : Bytes} : d.Enterable p → Plain name →
      d.get? (p ++ [name]) = some (.link t) → follow = false →
      Follows d follow n p [name] (p ++ [name])

/-- The three things that following distinguishes at a place. -/
theorem entry_cases (d : Disk) (p : Place) :
    d.Plot p ∨ (∃ k, d.get? p = some (.dir k)) ∨ ∃ t, d.get? p = some (.link t) := by
  cases h : d.get? p with
  | none => exact Or.inl (Or.inl h)
  | some e =>
    cases e with
    | file m c => exact Or.inl (Or.inr ⟨m, c, h⟩)
    | dir k => exact Or.inr (Or.inl ⟨k, rfl⟩)
    | link t => exact Or.inr (Or.inr ⟨t, rfl⟩)

/-- The inner induction, over the names.  What is known of links is the hypothesis `hlink`: whatever happens at
one is right for a budget that is smaller by one. -/
theorem follows_of_followNames
    (hlink : ∀ p ns q, onLink p ns = .ok q → ∃ k, n = k + 1 ∧ Follows d follow k p ns q) :
    ∀ (ns : List Bytes) (p q : Place), followNames d follow onLink p ns = .ok q →
      Follows d follow n p ns q
  | [], p, q, h => by
    rw [followNames] at h
    cases h
    exact .stop n p
  | name :: rest, p, q, h => by
    have hp := enterable_of_followNames h
    have ih := follows_of_followNames hlink rest
    by_cases hdot : name = "."
    · subst hdot
      rw [followNames_dot hp] at h
      exact .dot hp (ih p q h)
    by_cases hup : name = ".."
    · subst hup
      rw [followNames_up hp] at h
      exact .up hp (ih _ q h)
    have hn := plain_of_followNames h hdot hup
    rcases entry_cases d (p ++ [name]) with hk | ⟨k, hk⟩ | ⟨t, hk⟩
    · by_cases hr : rest = []
      · subst hr
        rw [followNames_last hp hn hk] at h
        cases h
        exact .last hp hn hk
      · exact absurd h (followNames_through hn hk hr)
    · rw [followNames_dir hp hn hk] at h
      exact .into hp hn hk (ih _ q h)
    · by_cases hr : rest ≠ [] ∨ follow = true
      · rw [followNames_link hp hn hk hr] at h
        obtain ⟨k, rfl, hf⟩ := hlink _ _ _ h
        exact .link hp hn hk hr hf
      · obtain ⟨hr1, hr2⟩ := not_or.mp hr
        have hrest : rest = [] := Decidable.not_not.mp hr1
        have hfollow : follow = false := Bool.eq_false_iff.mpr hr2
        subst hrest hfollow
        rw [followNames_lastLink hp hn hk] at h
        cases h
        exact .lastLink hp hn hk rfl

theorem followWithin_dot (h : d.Enterable p) :
    followWithin d follow n p (Bytes.ofString "." :: rest) = followWithin d follow n p rest := by
  cases n <;> exact followNames_dot h

theorem followWithin_up (h : d.Enterable p) :
    followWithin d follow n p (Bytes.ofString ".." :: rest) =
      followWithin d follow n p.dropLast rest := by
  cases n <;> exact followNames_up h

theorem followWithin_dir {k : Nat} (h : d.Enterable p) (hn : Plain name)
    (hk : d.get? (p ++ [name]) = some (.dir k)) :
    followWithin d follow n p (name :: rest) = followWithin d follow n (p ++ [name]) rest := by
  cases n <;> exact followNames_dir h hn hk

theorem followWithin_last (h : d.Enterable p) (hn : Plain name) (hk : d.Plot (p ++ [name])) :
    followWithin d follow n p [name] = .ok (p ++ [name]) := by
  cases n <;> exact followNames_last h hn hk

theorem followWithin_nil : followWithin d follow n p [] = .ok p := by
  cases n <;> rfl

/-- **The rules are those of the function.** -/
theorem followWithin_eq_ok :
    followWithin d follow n p ns = .ok q ↔ Follows d follow n p ns q := by
  constructor
  · induction n generalizing p ns q with
    | zero => exact follows_of_followNames (fun _ _ _ h => by cases h) ns p q
    | succ n ih => exact follows_of_followNames (fun _ _ _ h => ⟨n, rfl, ih h⟩) ns p q
  · intro h
    induction h with
    | stop n p => exact followWithin_nil
    | dot hp _ ih => rw [followWithin_dot hp, ih]
    | up hp _ ih => rw [followWithin_up hp, ih]
    | into hp hn hk _ ih => rw [followWithin_dir hp hn hk, ih]
    | last hp hn hk => exact followWithin_last hp hn hk
    | link hp hn hk hr _ ih => exact (followNames_link hp hn hk hr).trans ih
    | @lastLink n p name t hp hn hk hf =>
      subst hf
      cases n <;> exact followNames_lastLink hp hn hk

/-- A dot leads to the directory it is looked up in. -/
theorem follows_dot_iff : Follows d follow n p [Bytes.ofString "."] q ↔ d.Enterable p ∧ q = p := by
  constructor
  · intro h
    cases h with
    | dot henter h =>
      cases h
      exact ⟨henter, rfl⟩
    | into _ hn => exact absurd rfl hn.ne_dot
    | last _ hn => exact absurd rfl hn.ne_dot
    | link _ hn => exact absurd rfl hn.ne_dot
    | lastLink _ hn => exact absurd rfl hn.ne_dot
  · rintro ⟨henter, rfl⟩
    exact .dot henter (.stop n q)

/-! ## 3. Disks that keep their directories and links

`Keeps` is the relation between the disk before a copy and the disk at any later moment, as long as the copy
writes no file over a link.  It is weak on purpose: files may come, go and change, and directories may be added.
What it does rule out is all that could make a path lead elsewhere. -/

/-- From `d` to `d'` directories stay as they are, and links neither come nor go. -/
structure Keeps (d d' : Disk) : Prop where
  here : d'.here = d.here
  dir : ∀ p m, d.get? p = some (.dir m) → d'.get? p = some (.dir m)
  link : ∀ p t, d'.get? p = some (.link t) ↔ d.get? p = some (.link t)

theorem Keeps.refl (d : Disk) : Keeps d d := ⟨rfl, fun _ _ h => h, fun _ _ => Iff.rfl⟩

theorem Keeps.trans {d₁ d₂ d₃ : Disk} (h : Keeps d₁ d₂) (h' : Keeps d₂ d₃) : Keeps d₁ d₃ :=
  ⟨h'.here.trans h.here, fun p m hm => h'.dir p m (h.dir p m hm),
    fun p t => (h'.link p t).trans (h.link p t)⟩

theorem Keeps.enterable (hk : Keeps d d') (h : d.Enterable p) : d'.Enterable p := by
  obtain ⟨m, hm, hs⟩ := h
  exact ⟨m, hk.dir p m hm, hs⟩

/-- **Whatever led somewhere still leads there.**  Only the last name may lead to a file or to nothing,
and that name is found whatever stands there by now. -/
theorem Follows.keeps (h : Follows d follow n p ns q) (hk : Keeps d d') :
    Follows d' follow n p ns q := by
  induction h with
  | stop n p => exact .stop n p
  | dot hp _ ih => exact .dot (hk.enterable hp) ih
  | up hp _ ih => exact .up (hk.enterable hp) ih
  | into hp hn he _ ih => exact .into (hk.enterable hp) hn (hk.dir _ _ he) ih
  | @last n p name hp hn he =>
    -- Where there was a file or nothing, there may be a directory by now.  It cannot be a link, for links do not
    -- come.
    rcases entry_cases d' (p ++ [name]) with h | ⟨k, h⟩ | ⟨t, h⟩
    · exact .last (hk.enterable hp) hn h
    · exact .into (hk.enterable hp) hn h (.stop _ _)
    · rw [hk.link] at h
      rcases he with he | ⟨m, c, he⟩
      · exact absurd (he.symm.trans h) (by simp)
      · exact absurd (he.symm.trans h) (by simp)
  | link hp hn he hr _ ih => exact .link (hk.enterable hp) hn ((hk.link _ _).mpr he) hr ih
  | lastLink hp hn he hf => exact .lastLink (hk.enterable hp) hn ((hk.link _ _).mpr he) hf

/-! ## 4. Trails

The trail is computed like the path is followed, except that it never gives up: permissions are not asked, names
may be of any length, and where nothing is, or a file, it goes on as if there were a directory.  What is left to
look at are the links, and that is why the trail of a path is the same at every moment of a copy. -/

/-- The places that names lead over.  What is missing counts as a directory. -/
def trailNames (d : Disk) (onLink : Place → List Bytes → List Place) :
    Place → List Bytes → List Place
  | p, [] => [p]
  | p, name :: rest =>
    p ::
      if name = "." then trailNames d onLink p rest
      else if name = ".." then trailNames d onLink p.dropLast rest
      else
        match d.get? (p ++ [name]) with
        | some (.link target) => onLink (linkStart p target) (hops target ++ rest)
        | _ => trailNames d onLink (p ++ [name]) rest

/-- The places that names lead over, up to the first link that is too many. -/
def trailWithin (d : Disk) : Nat → Place → List Bytes → List Place
  | 0 => trailNames d fun _ _ => []
  | links + 1 => trailNames d (trailWithin d links)

/-- The places that a path leads over. -/
def trail (d : Disk) (path : Bytes) : List Place :=
  d.trailWithin maxLinks (if Path.isAbsolute path then [] else d.here) (Path.names path)

/-- The place that a path leads to, or would lead to if all that is missing were directories.  For a destination
that does not exist yet this is the place that will be made. -/
def goal (d : Disk) (path : Bytes) : Place := (d.trail path).getLast?.getD []

section Trail

variable {out : Place → List Bytes → List Place}

theorem trailNames_dot : trailNames d out p (Bytes.ofString "." :: rest) =
    p :: trailNames d out p rest := by
  rw [trailNames.eq_def]
  simp

theorem trailNames_up : trailNames d out p (Bytes.ofString ".." :: rest) =
    p :: trailNames d out p.dropLast rest := by
  have hne : Bytes.ofString ".." ≠ Bytes.ofString "." := by decide
  rw [trailNames.eq_def]
  simp [hne]

theorem trailNames_link {t : Bytes} (hn : name ≠ "." ∧ name ≠ "..")
    (hk : d.get? (p ++ [name]) = some (.link t)) :
    trailNames d out p (name :: rest) = p :: out (linkStart p t) (hops t ++ rest) := by
  rw [trailNames.eq_def]
  simp [hn.1, hn.2, hk]

theorem trailNames_on (hn : name ≠ "." ∧ name ≠ "..")
    (hk : ∀ t, d.get? (p ++ [name]) ≠ some (.link t)) :
    trailNames d out p (name :: rest) = p :: trailNames d out (p ++ [name]) rest := by
  rw [trailNames.eq_def]
  simp only [hn.1, hn.2, if_false]

theorem mem_trailNames_self : ∀ {ns : List Bytes}, p ∈ trailNames d out p ns
  | [] => by simp [trailNames]
  | _ :: _ => by simp [trailNames]

end Trail

/-- The trail as a trail over names with some continuation, whatever the budget.  The lemmas about one name are
then needed once and not once for each way to spend links. -/
theorem trailWithin_eq (d : Disk) (n : Nat) : ∃ out, d.trailWithin n = trailNames d out ∧
    ∀ p ns, ∀ r ∈ out p ns, ∃ k, n = k + 1 ∧ r ∈ d.trailWithin k p ns := by
  cases n with
  | zero => exact ⟨fun _ _ => [], rfl, fun _ _ _ hr => absurd hr (by simp)⟩
  | succ n => exact ⟨d.trailWithin n, rfl, fun _ _ _ hr => ⟨n, rfl, hr⟩⟩

theorem trailWithin_nil : d.trailWithin n p [] = [p] := by
  cases n <;> rfl

theorem trailWithin_dot :
    d.trailWithin n p (Bytes.ofString "." :: rest) = p :: d.trailWithin n p rest := by
  obtain ⟨out, hout, -⟩ := d.trailWithin_eq n
  rw [hout, trailNames_dot]

theorem trailWithin_up :
    d.trailWithin n p (Bytes.ofString ".." :: rest) = p :: d.trailWithin n p.dropLast rest := by
  obtain ⟨out, hout, -⟩ := d.trailWithin_eq n
  rw [hout, trailNames_up]

theorem trailWithin_on (hn : name ≠ "." ∧ name ≠ "..")
    (hk : ∀ t, d.get? (p ++ [name]) ≠ some (.link t)) :
    d.trailWithin n p (name :: rest) = p :: d.trailWithin n (p ++ [name]) rest := by
  obtain ⟨out, hout, -⟩ := d.trailWithin_eq n
  rw [hout, trailNames_on hn hk]

theorem trailWithin_link {t : Bytes} (hn : name ≠ "." ∧ name ≠ "..")
    (hk : d.get? (p ++ [name]) = some (.link t)) :
    d.trailWithin (n + 1) p (name :: rest) =
      p :: d.trailWithin n (linkStart p t) (hops t ++ rest) := by
  rw [trailWithin, trailNames_link hn hk]

theorem mem_trailWithin_self : p ∈ d.trailWithin n p ns := by
  obtain ⟨out, hout, -⟩ := d.trailWithin_eq n
  rw [hout]
  exact mem_trailNames_self

theorem getLast?_cons_of {l : List Place} (h : l.getLast? = some q) :
    (p :: l).getLast? = some q := by
  rw [List.getLast?_cons, h]
  rfl

/-- A path that leads somewhere has its trail end there. -/
theorem Follows.getLast?_trail (h : Follows d true n p ns q) :
    (d.trailWithin n p ns).getLast? = some q := by
  induction h with
  | stop n p =>
    rw [trailWithin_nil]
    rfl
  | dot hp _ ih =>
    rw [trailWithin_dot]
    exact getLast?_cons_of ih
  | up hp _ ih =>
    rw [trailWithin_up]
    exact getLast?_cons_of ih
  | into hp hn he _ ih =>
    rw [trailWithin_on ⟨hn.ne_dot, hn.ne_up⟩ (by simp [he])]
    exact getLast?_cons_of ih
  | @last n p name hp hn he =>
    have hno : ∀ t, d.get? (p ++ [name]) ≠ some (.link t) := by
      rcases he with he | ⟨m, c, he⟩ <;> simp [he]
    rw [trailWithin_on ⟨hn.ne_dot, hn.ne_up⟩ hno, trailWithin_nil]
    rfl
  | link hp hn he hr _ ih =>
    rw [trailWithin_link ⟨hn.ne_dot, hn.ne_up⟩ he]
    exact getLast?_cons_of ih
  | lastLink _ _ _ hf => exact absurd hf (by simp)

/-- What a trail looks at is whether there is a link, and which. -/
theorem trailNames_congr {out out' : Place → List Bytes → List Place}
    (hlink : ∀ p t, d'.get? p = some (.link t) ↔ d.get? p = some (.link t))
    (hout : ∀ p ns, out' p ns = out p ns) : ∀ (ns : List Bytes) (p : Place),
    trailNames d' out' p ns = trailNames d out p ns
  | [], _ => rfl
  | name :: rest, p => by
    have ih := trailNames_congr hlink hout rest
    by_cases hdot : name = "."
    · subst hdot
      rw [trailNames_dot, trailNames_dot, ih]
    by_cases hup : name = ".."
    · subst hup
      rw [trailNames_up, trailNames_up, ih]
    by_cases hk : ∃ t, d.get? (p ++ [name]) = some (.link t)
    · obtain ⟨t, hk⟩ := hk
      rw [trailNames_link ⟨hdot, hup⟩ hk, trailNames_link ⟨hdot, hup⟩ ((hlink _ _).mpr hk), hout]
    · have hno : ∀ t, d.get? (p ++ [name]) ≠ some (.link t) := fun t ht => hk ⟨t, ht⟩
      have hno' : ∀ t, d'.get? (p ++ [name]) ≠ some (.link t) :=
        fun t ht => hno t ((hlink _ _).mp ht)
      rw [trailNames_on ⟨hdot, hup⟩ hno, trailNames_on ⟨hdot, hup⟩ hno', ih]

/-- Trails depend on the links alone. -/
theorem trailWithin_congr
    (hlink : ∀ p t, d'.get? p = some (.link t) ↔ d.get? p = some (.link t)) :
    ∀ (n : Nat) (p : Place) (ns : List Bytes), d'.trailWithin n p ns = d.trailWithin n p ns
  | 0, p, ns => trailNames_congr hlink (fun _ _ => rfl) ns p
  | n + 1, p, ns => trailNames_congr hlink (trailWithin_congr hlink n) ns p

theorem Keeps.trail_eq (hk : Keeps d d') (path : Bytes) : d'.trail path = d.trail path := by
  rw [trail, trail, hk.here]
  exact trailWithin_congr hk.link _ _ _

/-- **A path has the same goal at every moment of a copy.**  So places that are apart at the start stay apart. -/
theorem Keeps.goal_eq (hk : Keeps d d') (path : Bytes) : d'.goal path = d.goal path := by
  rw [goal, goal, hk.trail_eq]

/-- A trail with more to say behind links is longer. -/
theorem trailNames_subset {out out' : Place → List Bytes → List Place}
    (hout : ∀ p ns, out p ns ⊆ out' p ns) : ∀ (ns : List Bytes) (p : Place),
    trailNames d out p ns ⊆ trailNames d out' p ns
  | [], _ => fun _ h => h
  | name :: rest, p => by
    have ih := trailNames_subset hout rest
    by_cases hdot : name = "."
    · subst hdot
      rw [trailNames_dot, trailNames_dot]
      exact List.cons_subset_cons _ (ih p)
    by_cases hup : name = ".."
    · subst hup
      rw [trailNames_up, trailNames_up]
      exact List.cons_subset_cons _ (ih _)
    by_cases hk : ∃ t, d.get? (p ++ [name]) = some (.link t)
    · obtain ⟨t, hk⟩ := hk
      rw [trailNames_link ⟨hdot, hup⟩ hk, trailNames_link ⟨hdot, hup⟩ hk]
      exact List.cons_subset_cons _ (hout _ _)
    · have hno : ∀ t, d.get? (p ++ [name]) ≠ some (.link t) := fun t ht => hk ⟨t, ht⟩
      rw [trailNames_on ⟨hdot, hup⟩ hno, trailNames_on ⟨hdot, hup⟩ hno]
      exact List.cons_subset_cons _ (ih _)

theorem trailWithin_subset_succ : ∀ (n : Nat) (p : Place) (ns : List Bytes),
    d.trailWithin n p ns ⊆ d.trailWithin (n + 1) p ns
  | 0, p, ns => trailNames_subset (fun _ _ => List.nil_subset _) ns p
  | n + 1, p, ns => trailNames_subset (trailWithin_subset_succ n) ns p

/-- With more links to spend the trail only gets longer. -/
theorem trailWithin_subset {k : Nat} (h : n ≤ k) (p : Place) (ns : List Bytes) :
    d.trailWithin n p ns ⊆ d.trailWithin k p ns := by
  induction h with
  | refl => exact fun _ hr => hr
  | step _ ih => exact fun _ hr => trailWithin_subset_succ _ p ns (ih hr)

/-- The disks agree at every place outside of `P`. -/
def AgreeOutside (P : Place) (d d' : Disk) : Prop := ∀ r, ¬ P <+: r → d'.get? r = d.get? r

/-- No link is at `P` or below it.  This is what makes `P` a place that can be written to without the writes
going elsewhere. -/
def NoLinkIn (P : Place) (d : Disk) : Prop := ∀ r t, P <+: r → d.get? r ≠ some (.link t)

theorem NoLinkIn.keeps {P : Place} (h : NoLinkIn P d) (hk : Keeps d d') : NoLinkIn P d' :=
  fun r t hr hl => h r t hr ((hk.link r t).mp hl)

/-- Where there is nothing there are no links below. -/
theorem noLinkIn_of_none {P : Place} (hd : d.Sound) (hp : d.get? P = none) : NoLinkIn P d := by
  rintro r t ⟨ns, rfl⟩ hr
  rw [hd.get?_below hp] at hr
  cases hr

/-- Whether there are links can be read off the entries. -/
theorem noLinkIn_of_entries {P : Place} (h : ∀ x ∈ d.entries, P <+: x.1 → x.2.kind ≠ .link) :
    NoLinkIn P d :=
  fun _ _ hr hl => h _ (link_mem_entries hl) hr rfl

/-- The induction over names for the next theorem.  There is one case for each way the trail can go on, and in
each the disks are compared only at places on the trail. -/
theorem followNames_agree {P : Place} (hag : AgreeOutside P d d') (hno : NoLinkIn P d)
    {onLink' : Place → List Bytes → Except Errno Place} {out : Place → List Bytes → List Place}
    (hlink : ∀ p ns, (∀ r ∈ out p ns, ¬ P <+: r) → onLink' p ns = onLink p ns) :
    ∀ (ns : List Bytes) (p : Place), (∀ r ∈ trailNames d out p ns, ¬ P <+: r) →
      followNames d' follow onLink' p ns = followNames d follow onLink p ns
  | [], _, _ => rfl
  | name :: rest, p, htrail => by
    have ih := followNames_agree hag hno hlink rest
    have hp : d'.get? p = d.get? p := hag p (htrail p mem_trailNames_self)
    by_cases hdot : name = "."
    · subst hdot
      rw [trailNames_dot] at htrail
      rw [followNames.eq_def, followNames.eq_def d]
      simp only [hp, if_true, ih p fun r hr => htrail r (List.mem_cons_of_mem _ hr)]
    by_cases hup : name = ".."
    · subst hup
      rw [trailNames_up] at htrail
      rw [followNames.eq_def, followNames.eq_def d]
      simp only [hp, hdot, if_true, if_false, ih _ fun r hr => htrail r (List.mem_cons_of_mem _ hr)]
    by_cases hk : ∃ t, d.get? (p ++ [name]) = some (.link t)
    · obtain ⟨t, hk⟩ := hk
      -- A link is not in `P`, where there is none, so it is the same on both disks.
      have hk' : d'.get? (p ++ [name]) = some (.link t) :=
        (hag _ fun hin => hno _ t hin hk).trans hk
      rw [trailNames_link ⟨hdot, hup⟩ hk] at htrail
      have hgo := hlink (linkStart p t) (hops t ++ rest) fun r hr => htrail r (List.mem_cons_of_mem _ hr)
      rw [linkStart] at hgo
      rw [followNames.eq_def, followNames.eq_def d]
      simp only [hp, hdot, hup, if_false, hk, hk', hgo]
    · have hlinks : ∀ t, d.get? (p ++ [name]) ≠ some (.link t) := fun t ht => hk ⟨t, ht⟩
      rw [trailNames_on ⟨hdot, hup⟩ hlinks] at htrail
      have htail : ∀ r ∈ trailNames d out (p ++ [name]) rest, ¬ P <+: r :=
        fun r hr => htrail r (List.mem_cons_of_mem _ hr)
      have hk' : d'.get? (p ++ [name]) = d.get? (p ++ [name]) :=
        hag _ (htail _ mem_trailNames_self)
      rw [followNames.eq_def, followNames.eq_def d]
      simp only [hp, hdot, hup, if_false, hk', ih _ htail]
      cases he : d.get? (p ++ [name]) with
      | none => cases rest <;> rfl
      | some e =>
        cases e with
        | link t => exact absurd he (hlinks t)
        | file m c => cases rest <;> rfl
        | dir m => rfl

/-- **What a path does not lead over it cannot see.**  Both answers are the same, failures included.  The links
are those of `d`; on `d'` nothing is asked of `P`, so that it may hold whatever has been written there. -/
theorem followWithin_agree {P : Place} (hag : AgreeOutside P d d') (hno : NoLinkIn P d) :
    ∀ (n : Nat) (p : Place) (ns : List Bytes), (∀ r ∈ d.trailWithin n p ns, ¬ P <+: r) →
      followWithin d' follow n p ns = followWithin d follow n p ns
  | 0, p, ns => followNames_agree hag hno (fun _ _ _ => rfl) ns p
  | n + 1, p, ns => followNames_agree hag hno (fun p ns => followWithin_agree hag hno n p ns) ns p

/-! ## 5. Cutting a path

The path of an item is the path of a directory and names behind it.  To say that both were found over the same
directory, the way has to be cut in two, and the second half starts with as many links as the first has left
over. -/

/-- **A path goes on from where its first part leads**, with some of the links used up: how many does not
depend on what comes behind, nor on later changes of the disk. -/
theorem Follows.append_eq (h : Follows d true n p ns r) {m : Nat}
    (hr : d.get? r = some (.dir m)) :
    ∃ k ≤ n, ∀ d' follow ms, Keeps d d' → ms ≠ [] →
      followWithin d' follow n p (ns ++ ms) = followWithin d' follow k r ms := by
  induction h with
  | stop n p => exact ⟨n, Nat.le_refl n, fun _ _ _ _ _ => rfl⟩
  | dot hp _ ih =>
    obtain ⟨k, hk, heq⟩ := ih hr
    refine ⟨k, hk, fun d' follow ms hkeep hms => ?_⟩
    rw [List.cons_append, followWithin_dot (hkeep.enterable hp), heq d' follow ms hkeep hms]
  | up hp _ ih =>
    obtain ⟨k, hk, heq⟩ := ih hr
    refine ⟨k, hk, fun d' follow ms hkeep hms => ?_⟩
    rw [List.cons_append, followWithin_up (hkeep.enterable hp), heq d' follow ms hkeep hms]
  | into hp hn he _ ih =>
    obtain ⟨k, hk, heq⟩ := ih hr
    refine ⟨k, hk, fun d' follow ms hkeep hms => ?_⟩
    rw [List.cons_append, followWithin_dir (hkeep.enterable hp) hn (hkeep.dir _ _ he),
      heq d' follow ms hkeep hms]
  -- A path that ends at a file or at nothing does not lead to a directory.
  | last _ _ he =>
    rcases he with he | ⟨k, c, he⟩
    · exact absurd (he.symm.trans hr) (by simp)
    · exact absurd (he.symm.trans hr) (by simp)
  | @link n p _ name rest t hp hn he _ _ ih =>
    obtain ⟨k, hk, heq⟩ := ih hr
    refine ⟨k, Nat.le_succ_of_le hk, fun d' follow ms hkeep hms => ?_⟩
    have hrest : rest ++ ms ≠ [] ∨ follow = true := Or.inl (by simp [hms])
    have hgo := heq d' follow ms hkeep hms
    rw [List.append_assoc] at hgo
    exact (followNames_link (hkeep.enterable hp) hn ((hkeep.link _ _).mpr he) hrest).trans hgo
  | lastLink _ _ _ hf => exact absurd hf (by simp)

/-- The first part of a path that leads somewhere leads to a directory. -/
theorem Follows.cut {ns : List Bytes} (h : Follows d follow n p (ns ++ ms) q) (hms : ms ≠ []) :
    ∃ r, Follows d true n p ns r ∧ d.Enterable r := by
  generalize hl : ns ++ ms = l at h
  induction h generalizing ns with
  | stop n p => exact absurd (List.append_eq_nil_iff.mp hl).2 hms
  | @dot n p _ rest hp _ ih =>
    cases ns with
    | nil => exact ⟨p, .stop n p, hp⟩
    | cons x ns =>
      rw [List.cons_append, List.cons.injEq] at hl
      obtain ⟨rfl, hl⟩ := hl
      obtain ⟨r, hr, he⟩ := ih hl
      exact ⟨r, .dot hp hr, he⟩
  | @up n p _ rest hp _ ih =>
    cases ns with
    | nil => exact ⟨p, .stop n p, hp⟩
    | cons x ns =>
      rw [List.cons_append, List.cons.injEq] at hl
      obtain ⟨rfl, hl⟩ := hl
      obtain ⟨r, hr, he⟩ := ih hl
      exact ⟨r, .up hp hr, he⟩
  | @into n p _ name rest k hp hn hk _ ih =>
    cases ns with
    | nil => exact ⟨p, .stop n p, hp⟩
    | cons x ns =>
      rw [List.cons_append, List.cons.injEq] at hl
      obtain ⟨rfl, hl⟩ := hl
      obtain ⟨r, hr, he⟩ := ih hl
      exact ⟨r, .into hp hn hk hr, he⟩
  -- The cut is moved into the target of the link: its names come before those that were to be followed anyway.
  | @link n p _ name rest t hp hn hk _ _ ih =>
    cases ns with
    | nil => exact ⟨p, .stop _ p, hp⟩
    | cons x ns =>
      rw [List.cons_append, List.cons.injEq] at hl
      obtain ⟨rfl, hl⟩ := hl
      obtain ⟨r, hr, he⟩ := @ih (hops t ++ ns) (by rw [List.append_assoc, hl])
      exact ⟨r, .link hp hn hk (Or.inr rfl) hr, he⟩
  | @last n p name hp _ _ =>
    cases ns with
    | nil => exact ⟨p, .stop n p, hp⟩
    | cons x ns => exact absurd (List.append_eq_nil_iff.mp (List.cons.inj hl).2).2 hms
  | @lastLink n p name t hp _ _ _ =>
    cases ns with
    | nil => exact ⟨p, .stop n p, hp⟩
    | cons x ns => exact absurd (List.append_eq_nil_iff.mp (List.cons.inj hl).2).2 hms

/-! ## 6. Below a place without links

In the kit of a project that has no links, a path is nothing but its names.  What can still go wrong are
permissions and the length of names, and `Passable` says that neither does. -/

/-- All places on the way over the names `q` below `p` can be entered, and no name is too long. -/
def Passable (d : Disk) : Place → List Bytes → Prop
  | _, [] => True
  | p, name :: q => d.Enterable p ∧ name.length ≤ 255 ∧ d.Passable (p ++ [name]) q

theorem Passable.keeps (hk : Keeps d d') : ∀ {q : List Bytes} {p : Place},
    d.Passable p q → d'.Passable p q
  | [], _, _ => trivial
  | _ :: _, _, ⟨hp, hn, hq⟩ => ⟨hk.enterable hp, hn, hq.keeps hk⟩

/-- A way is open if its two halves are. -/
theorem passable_append : ∀ {q₁ q₂ : List Bytes} {p : Place},
    d.Passable p (q₁ ++ q₂) ↔ d.Passable p q₁ ∧ d.Passable (p ++ q₁) q₂
  | [], q₂, p => by simp [Passable]
  | name :: q₁, q₂, p => by
    simp only [List.cons_append, Passable, passable_append, and_assoc]
    rw [List.append_assoc, List.singleton_append]

/-- **Where there are no links, names lead to the place that they spell**, and the way there has to be
open. -/
theorem follows_iff_passable {P : Place} (hno : NoLinkIn P d) : ∀ {ns : List Bytes} {p : Place},
    P <+: p → (∀ x ∈ ns, Path.IsName x) →
      (Follows d follow n p ns q ↔ q = p ++ ns ∧ d.Passable p ns)
  | [], p, _, _ => by
    rw [List.append_nil]
    constructor
    · intro h
      cases h
      exact ⟨rfl, trivial⟩
    · rintro ⟨rfl, -⟩
      exact .stop n q
  | name :: rest, p, hP, hns => by
    have hname := hns name (by simp)
    have hP' : P <+: p ++ [name] := hP.trans (List.prefix_append _ _)
    have ih := follows_iff_passable hno hP' fun x hx => hns x (List.mem_cons_of_mem _ hx)
    rw [List.append_assoc, List.singleton_append] at ih
    constructor
    · intro h
      cases h with
      | dot => exact absurd rfl hname.ne_dot
      | up => exact absurd rfl hname.ne_up
      | into hp hn _ h => exact ⟨(ih.mp h).1, hp, hn.short, (ih.mp h).2⟩
      | last hp hn _ => exact ⟨rfl, hp, hn.short, trivial⟩
      | link _ _ hk => exact absurd hk (hno _ _ hP')
      | lastLink _ _ hk => exact absurd hk (hno _ _ hP')
    · rintro ⟨hq, hp, hlen, hpass⟩
      have hn : Plain name := ⟨hname.ne_dot, hname.ne_up, hlen⟩
      rcases entry_cases d (p ++ [name]) with hk | ⟨k, hk⟩ | ⟨t, hk⟩
      · cases rest with
        | nil => exact hq ▸ .last hp hn hk
        | cons x rest =>
          -- What comes next needs a directory here.
          obtain ⟨m, hm, -⟩ := hpass.1
          rcases hk with hk | ⟨_, _, hk⟩ <;> exact absurd (hk.symm.trans hm) (by simp)
      · exact .into hp hn hk (ih.mpr ⟨hq, hpass⟩)
      · exact absurd hk (hno _ _ hP')

/-! ## 7. Over directories

A walk over a source knows more than that there are no links: it has listed each directory on its way.  So the
names of an item lead over directories, whatever links there are elsewhere in the source. -/

/-- There are directories all along the names `q` below `p`. -/
def Paved (d : Disk) (p : Place) (q : List Bytes) : Prop :=
  ∀ r, r <+: q → ∃ m, d.get? (p ++ r) = some (.dir m)

theorem Paved.tail {n : Bytes} (h : d.Paved p (n :: q)) : d.Paved (p ++ [n]) q := by
  rintro r ⟨t, rfl⟩
  rw [List.append_assoc, List.singleton_append]
  exact h (n :: r) ⟨t, rfl⟩

/-- A walk goes one directory further down. -/
theorem Paved.concat {n : Bytes} {m : Nat} (h : d.Paved p q)
    (hn : d.get? (p ++ (q ++ [n])) = some (.dir m)) : d.Paved p (q ++ [n]) := by
  intro r hr
  rcases List.prefix_concat_iff.mp hr with rfl | hr
  · exact ⟨m, hn⟩
  · exact h r hr

theorem Paved.ne_link {n t : Bytes} (h : d.Paved p (n :: q)) : d.get? (p ++ [n]) ≠ some (.link t) := by
  obtain ⟨m, hm⟩ := h [n] ⟨q, rfl⟩
  simp [hm]

/-- Names over which there are directories lead into these. -/
theorem Paved.follows {follow : Bool} {n : Nat} : ∀ {q : List Bytes} {p : Place}, d.Paved p q →
    (∀ m ∈ q, Path.IsName m) → Follows d follow n p q r → r = p ++ q
  | [], p, _, _, h => by
    cases h
    rw [List.append_nil]
  | name :: q, p, hpaved, hq, h => by
    have hname := hq name (by simp)
    cases h with
    | dot => exact absurd rfl hname.ne_dot
    | up => exact absurd rfl hname.ne_up
    | into _ _ _ h =>
      rw [hpaved.tail.follows (fun m hm => hq m (List.mem_cons_of_mem _ hm)) h, List.append_assoc,
        List.singleton_append]
    | last _ _ hplot =>
      obtain ⟨m, hm⟩ := hpaved [name] (List.prefix_refl _)
      rcases hplot with hk | ⟨_, _, hk⟩ <;> exact absurd (hk.symm.trans hm) (by simp)
    | link _ _ hk => exact absurd hk hpaved.ne_link
    | lastLink _ _ hk => exact absurd hk hpaved.ne_link

/-- Over directories a trail stays below where it began. -/
theorem Paved.trail {out : Place → List Bytes → List Place} : ∀ {q : List Bytes} {p : Place},
    d.Paved p q → (∀ m ∈ q, Path.IsName m) → r ∈ trailNames d out p (q ++ rest) →
      p <+: r ∨ r ∈ trailNames d out (p ++ q) rest
  | [], p, _, _, h => Or.inr (by rwa [List.append_nil])
  | name :: q, p, hpaved, hq, h => by
    have hname := hq name (by simp)
    rw [List.cons_append, trailNames_on ⟨hname.ne_dot, hname.ne_up⟩ fun _ => hpaved.ne_link] at h
    rcases List.mem_cons.mp h with rfl | h
    · exact Or.inl (List.prefix_refl _)
    · rcases hpaved.tail.trail (fun m hm => hq m (List.mem_cons_of_mem _ hm)) h with h | h
      · exact Or.inl ((List.prefix_append p [name]).trans h)
      · rw [List.append_assoc, List.singleton_append] at h
        exact Or.inr h

/-- On a sound disk whatever is reached by a place is reached over directories. -/
theorem Sound.paved {m : Nat} (hd : d.Sound) (h : d.get? (p ++ q) = some (.dir m)) : d.Paved p q := by
  rintro r ⟨t, rfl⟩
  by_cases ht : t = []
  · subst ht
    rw [List.append_nil] at h
    exact ⟨m, h⟩
  · rw [← List.append_assoc] at h
    exact hd.dir_of_prefix ht h

end AgentKit.Disk
