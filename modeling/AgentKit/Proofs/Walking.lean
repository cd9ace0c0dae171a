import AgentKit.Proofs.Calls
import AgentKit.Tree.Walk
/-!
# What a walk comes to

A walk looks at its tree while the visits it makes may change the disk that the tree is on.  As long as
they change nothing that the walk looks at, the two can be taken apart: the walk comes to what it would
come to if nothing changed, and the visits are made on that list, one after the other.

* `trace` is what a walk comes to on a disk that stays as it is.
* `play` makes the visits of a trace.  **A walk plays its trace** (`run_eq_play`), given an invariant that
  visits keep and under which the tree looks as it did at the beginning (`Steady`).  If the tree looks the
  same except that some calls fail, the walk plays a beginning of the trace (`run_plays`).
* A visitor that only looks is the simplest case (`run_observer`).
* **The shape of a trace** (`trace_shaped`): visits have different paths and come in the order of these
  paths, and a directory is visited before what is in it.

The program has one walk and several visitors: a copy, a comparison, a count.  All that is known about the order
and the paths of visits is proved here about traces, once, and what a visitor does is a matter of folding over a
list.  That is why the first theorem is worth its trouble.

The second form of it, in which calls may fail, is for a source with faults.  Each of its calls either gives the
answer that it would give without them or fails, and a failure ends the walk.  The parameter `lossy` says whether
this can happen, so that both forms are one proof.
-/

namespace AgentKit

/-- The names that lead to what is visited from where the walk started. -/
def Visit.path (x : Visit) : List Bytes := Path.names x.rel

/-- The visit is made over names, which the relative path is made of. -/
structure Visit.Proper (x : Visit) : Prop where
  ne_nil : x.path ≠ []
  names : ∀ n ∈ x.path, Path.IsName n
  rel : x.rel = Path.join x.path

namespace Walk

variable {σ : Type} {w : Scope} {d : Disk} {v : Visitor σ} {s s' : σ} {dir name : Bytes}
  {ls : List Listed} {l : Listed}

/-! ## 1. Traces

The definitions follow those of the walk case by case, with the state left out.  A failure is the last thing in a
trace. -/

/-- What is visited in order, and the failure at the end. -/
abbrev Trace := List Visit × Option Failure

/-- One trace after the other, if there is no failure in between.  A failure hides whatever would have come after
it. -/
def chain : Trace → Trace → Trace
  | (xs, none), t => (xs ++ t.1, t.2)
  | (xs, some f), _ => (xs, some f)

/-- The visit to a name. -/
def Scope.visitOf (w : Scope) (name : Bytes) (isDir : Bool) : Visit :=
  ⟨name, Path.relativeTo w.root name, isDir⟩

/-- What comes of one item; `enter` gives what is in a directory.  A link is visited if it leads to a file and
passed over if it leads to a directory, and one that leads nowhere ends the walk. -/
def traceItem (w : Scope) (d : Disk) (enter : Bytes → Trace) (name : Bytes) (kind : Kind) : Trace :=
  if Exclusion.excludes w.exclude (Path.relativeTo w.root name) then ([], none)
  else
    match kind with
    | .file => ([w.visitOf name false], none)
    | .dir => chain ([w.visitOf name true], none) (enter name)
    | .link =>
      match w.tree.stat d name with
      | .error cause => ([], some (unreadable name cause))
      | .ok info => if info.isDir then ([], none) else ([w.visitOf name false], none)

/-- What comes of the items of a directory. -/
def traceItems (w : Scope) (d : Disk) (enter : Bytes → Trace) (dir : Bytes) : List Listed → Trace
  | [] => ([], none)
  | l :: rest =>
    chain (traceItem w d enter (Path.child dir l.name) l.kind) (traceItems w d enter dir rest)

/-- What is in a directory, down to a given depth. -/
def traceDirectory (w : Scope) (d : Disk) : Nat → Bytes → Trace
  | 0, _ => ([], none)
  | depth + 1, dir =>
    match w.tree.list d dir with
    | .error cause => ([], some (unreadable dir cause))
    | .ok listed => traceItems w d (traceDirectory w d depth) dir listed

/-- What a walk comes to on a disk that stays as it is. -/
def trace (w : Scope) (d : Disk) : Trace :=
  match w.tree.stat d w.root with
  | .error cause => ([], some (unreadable w.root cause))
  | .ok info => if info.isDir then traceDirectory w d w.tree.depth w.root else ([], none)

/-! ## 2. Playing a trace

Making visits stops at the first one that fails, as the walk does.  Playing one trace after the other is playing
their chain (`play_chain`), and this is what lets a walk and its trace be compared part by part. -/

/-- Makes visits one after the other, up to the first that fails. -/
def replay (v : Visitor σ) : List Visit → σ → σ × Option Failure
  | [], s => (s, none)
  | x :: xs, s => andThen (v.visit x s) (replay v xs)

/-- Makes the visits of a trace; if none fails the trace's own failure is left. -/
def play (v : Visitor σ) (t : Trace) (s : σ) : σ × Option Failure :=
  andThen (replay v t.1 s) fun s' => (s', t.2)

theorem andThen_eq_ok {done : σ × Option Failure} {next : σ → σ × Option Failure} :
    andThen done next = (s', none) ↔ ∃ s, done = (s, none) ∧ next s = (s', none) := by
  obtain ⟨s, f⟩ := done
  cases f <;> simp [andThen]

theorem andThen_assoc (done : σ × Option Failure) (f g : σ → σ × Option Failure) :
    andThen (andThen done f) g = andThen done fun s => andThen (f s) g := by
  obtain ⟨s, x⟩ := done
  cases x <;> rfl

theorem replay_append (v : Visitor σ) (ys : List Visit) : ∀ (xs : List Visit) (s : σ),
    replay v (xs ++ ys) s = andThen (replay v xs s) (replay v ys)
  | [], _ => rfl
  | x :: xs, s => by
    rw [List.cons_append, replay, replay, andThen_assoc]
    exact congrArg _ (funext fun s => replay_append v ys xs s)

theorem play_ok (v : Visitor σ) (xs : List Visit) (s : σ) : play v (xs, none) s = replay v xs s := by
  rw [play]
  obtain ⟨s', f⟩ := replay v xs s
  cases f <;> rfl

/-- A trace has been played to its end if it has no failure of its own and no visit failed. -/
theorem play_eq_ok {t : Trace} :
    play v t s = (s', none) ↔ t.2 = none ∧ replay v t.1 s = (s', none) := by
  rw [play, andThen_eq_ok]
  constructor
  · rintro ⟨s₁, hr, h⟩
    rw [Prod.mk.injEq] at h
    exact ⟨h.2, h.1 ▸ hr⟩
  · rintro ⟨ht, hr⟩
    exact ⟨s', hr, by rw [ht]⟩

theorem play_chain (v : Visitor σ) (a b : Trace) (s : σ) :
    play v (chain a b) s = andThen (play v a s) (play v b) := by
  obtain ⟨xs, f⟩ := a
  cases f with
  | none =>
    rw [play_ok, chain, play, replay_append, andThen_assoc]
    rfl
  | some f =>
    rw [chain, play, andThen_assoc]
    rfl

/-! ## 3. A walk plays its trace

The induction goes along with the recursion of the walk: over the items of a directory, and over the depth.
`Plays` is what is shown for each part, and it speaks of the visits that are still to come, since an invariant
may depend on them.  An example of such an invariant is that no place that is still to be written has been
written yet. -/

/-- One trace is the other or, where calls may fail, a beginning of it that ends with a failure. -/
def Stops (lossy : Prop) (a b : Trace) : Prop := a = b ∨ (lossy ∧ a.1 <+: b.1 ∧ a.2 ≠ none)

/-- A call gives the answer `b` or, where calls may fail, a failure. -/
def Answers {α : Type} (lossy : Prop) (a b : Except Failure α) : Prop :=
  a = b ∨ (lossy ∧ ∃ f, a = .error f)

/-- The directories that a walk lists. -/
inductive Entered (w : Scope) (d : Disk) : Bytes → Prop
  | root : Entered w d w.root
  | item {dir : Bytes} {ls : List Listed} {l : Listed} : Entered w d dir →
      w.tree.list d dir = .ok ls → l ∈ ls → l.kind = .dir → Entered w d (Path.child dir l.name)

/-- To whoever walks it the tree `t` looks on `d'` as that of `w` looks on `d`.  Only the directories that are
entered matter, and of links only those that are listed in them. -/
structure SeesAlike (lossy : Prop) (w : Scope) (t : Tree) (d d' : Disk) : Prop where
  depth : t.depth = w.tree.depth
  list : ∀ {dir}, Entered w d dir → Answers lossy (t.list d' dir) (w.tree.list d dir)
  stat : ∀ {dir ls l}, Entered w d dir → w.tree.list d dir = .ok ls → l ∈ ls → l.kind = .link →
    Answers lossy (t.stat d' (Path.child dir l.name)) (w.tree.stat d (Path.child dir l.name))

/-- An invariant of a walk through `t`, given what is still to be visited: under it `t` looks as the tree of `w`
looks on `d`, and visits keep it.  A visit that fails need not keep it, since the walk ends there. -/
structure Steady (lossy : Prop) (w : Scope) (t : Tree) (d : Disk) (v : Visitor σ)
    (inv : List Visit → σ → Prop) : Prop where
  sees : ∀ {rest s}, inv rest s → SeesAlike lossy w t d (v.disk s)
  visit : ∀ {x rest s s'}, inv (x :: rest) s → v.visit x s = (s', none) → inv rest s'

/-- What `act` does is to play the trace, or a beginning of it. -/
def Plays (lossy : Prop) (v : Visitor σ) (inv : List Visit → σ → Prop)
    (act : σ → σ × Option Failure) (tr : Trace) : Prop :=
  ∀ rest s, inv (tr.1 ++ rest) s → ∃ tr', Stops lossy tr' tr ∧ act s = play v tr' s

section Steady

variable {lossy : Prop} {t : Tree} {inv : List Visit → σ → Prop}

/-- The invariant after several visits that went well. -/
theorem Steady.replay (h : Steady lossy w t d v inv) : ∀ {xs rest : List Visit} {s : σ},
    inv (xs ++ rest) s → replay v xs s = (s', none) → inv rest s'
  | [], _, _, hi, hr => by
    cases hr
    exact hi
  | x :: xs, _, _, hi, hr => by
    obtain ⟨s₁, h₁, hr⟩ := andThen_eq_ok.mp hr
    exact h.replay (h.visit hi h₁) hr

theorem prefix_chain (a b : Trace) : a.1 <+: (chain a b).1 := by
  obtain ⟨xs, f⟩ := a
  cases f with
  | none => exact List.prefix_append xs b.1
  | some f => exact List.prefix_refl xs

theorem andThen_play_of_failure {a : Trace} (ha : a.2 ≠ none) (next : σ → σ × Option Failure) (s : σ) :
    andThen (play v a s) next = play v a s := by
  obtain ⟨xs, f⟩ := a
  obtain ⟨f, rfl⟩ := Option.ne_none_iff_exists'.mp ha
  rw [play]
  cases Walk.replay v xs s with
  | mk s' g => cases g <;> rfl

/-- **If two parts play their traces, then one after the other they play the chain.**  The first part is run
under the invariant with the visits of the second still to come. -/
theorem Steady.chain (h : Steady lossy w t d v inv) {act next : σ → σ × Option Failure} {a b : Trace}
    (ha : Plays lossy v inv act a) (hb : Plays lossy v inv next b) :
    Plays lossy v inv (fun s => andThen (act s) next) (Walk.chain a b) := by
  intro rest s hi
  -- The visits of the first part are the beginning of all of them, also if it ends with a failure.
  have hwhole : inv (a.1 ++ ((Walk.chain a b).1.drop a.1.length ++ rest)) s := by
    rw [← List.append_assoc, List.prefix_iff_eq_append.mp (prefix_chain a b)]
    exact hi
  obtain ⟨a', hstop, hact⟩ := ha _ s hwhole
  dsimp only
  rw [hact]
  rcases hstop with rfl | ⟨hlossy, hpre, hfail⟩
  · obtain ⟨xs, f⟩ := a'
    cases f with
    | some f => exact ⟨(xs, some f), Or.inl rfl, andThen_play_of_failure (by simp) next s⟩
    | none =>
      rw [Walk.chain, List.append_assoc] at hi
      rw [play_ok]
      cases hr : Walk.replay v xs s with
      | mk s' f =>
        cases f with
        | some f =>
          -- A visit fails, so that the second part does not matter.
          refine ⟨_, Or.inl rfl, ?_⟩
          rw [play_chain, play_ok, hr]
          rfl
        | none =>
          obtain ⟨b', hstop, hnext⟩ := hb rest s' (h.replay hi hr)
          refine ⟨Walk.chain (xs, none) b', ?_, ?_⟩
          · rcases hstop with rfl | ⟨hlossy, hpre, hfail⟩
            · exact Or.inl rfl
            · exact Or.inr ⟨hlossy, (List.prefix_append_right_inj xs).mpr hpre, hfail⟩
          · rw [play_chain, play_ok, hr]
            exact hnext
  · exact ⟨a', Or.inr ⟨hlossy, hpre.trans (prefix_chain a b), hfail⟩,
      andThen_play_of_failure hfail next s⟩

theorem plays_visit (x : Visit) : Plays lossy v inv (v.visit x) ([x], none) := by
  intro rest s _
  refine ⟨_, Or.inl rfl, ?_⟩
  rw [play_ok, replay]
  cases v.visit x s with
  | mk s' f => cases f <;> rfl

/-- Where a call failed there is nothing more to play. -/
theorem plays_failure {tr : Trace} (hlossy : lossy) (f : Failure) (s : σ) :
    ∃ tr', Stops lossy tr' tr ∧ (s, some f) = play v tr' s :=
  ⟨([], some f), Or.inr ⟨hlossy, List.nil_prefix, by simp⟩, rfl⟩

/-- One item, given that the directories below play what is in them. -/
theorem Steady.item (h : Steady lossy w t d v inv) {enter : Bytes → σ → σ × Option Failure}
    {inside : Bytes → Trace} (henter : ∀ n, Entered w d n → Plays lossy v inv (enter n) (inside n))
    (hdir : Entered w d dir) (hls : w.tree.list d dir = .ok ls) (hl : l ∈ ls) :
    Plays lossy v inv (Walk.item { w with tree := t } v enter (Path.child dir l.name) l.kind)
      (traceItem w d inside (Path.child dir l.name) l.kind) := by
  intro rest s hi
  unfold Walk.item
  unfold traceItem at hi ⊢
  dsimp only
  -- What is excluded is not even looked at.
  by_cases hex : Exclusion.excludes w.exclude (Path.relativeTo w.root (Path.child dir l.name)) = true
  · rw [if_pos hex, if_pos hex]
    exact ⟨_, Or.inl rfl, rfl⟩
  rw [if_neg hex] at hi ⊢
  rw [if_neg hex]
  cases hk : l.kind with
  | file => exact plays_visit _ rest s (hk ▸ hi)
  | dir =>
    rw [hk] at hi
    exact h.chain (plays_visit _) (henter _ (.item hdir hls hl hk)) rest s hi
  | link =>
    rw [hk] at hi
    dsimp only at hi ⊢
    rcases (h.sees hi).stat hdir hls hl hk with hsame | ⟨hlossy, f, hfail⟩
    · rw [hsame]
      cases hstat : w.tree.stat d (Path.child dir l.name) with
      | error cause => exact ⟨_, Or.inl rfl, rfl⟩
      | ok info =>
        rw [hstat] at hi
        dsimp only at hi ⊢
        by_cases hinfo : info.isDir = true
        · rw [if_pos hinfo, if_pos hinfo]
          exact ⟨_, Or.inl rfl, rfl⟩
        · rw [if_neg hinfo] at hi ⊢
          rw [if_neg hinfo]
          exact plays_visit _ rest s hi
    · rw [hfail]
      exact plays_failure hlossy _ s

/-- The items of a directory, or any part of them. -/
theorem Steady.items (h : Steady lossy w t d v inv) {enter : Bytes → σ → σ × Option Failure}
    {inside : Bytes → Trace} (henter : ∀ n, Entered w d n → Plays lossy v inv (enter n) (inside n))
    (hdir : Entered w d dir) (hls : w.tree.list d dir = .ok ls) : ∀ {part : List Listed}, part ⊆ ls →
    Plays lossy v inv (Walk.items { w with tree := t } v enter dir part) (traceItems w d inside dir part)
  | [], _ => fun _ _ _ => ⟨_, Or.inl rfl, rfl⟩
  | l :: part, hpart =>
    h.chain (h.item henter hdir hls (hpart (by simp)))
      (h.items henter hdir hls fun _ hm => hpart (List.mem_cons_of_mem _ hm))

/-- A directory, by induction on the depth to which the walk may go. -/
theorem Steady.directory (h : Steady lossy w t d v inv) : ∀ (depth : Nat) (dir : Bytes),
    Entered w d dir →
    Plays lossy v inv (Walk.directory { w with tree := t } v depth dir) (traceDirectory w d depth dir)
  | 0, _, _ => fun _ _ _ => ⟨_, Or.inl rfl, rfl⟩
  | depth + 1, dir, hdir => by
    intro rest s hi
    unfold Walk.directory
    dsimp only
    rcases (h.sees hi).list hdir with hsame | ⟨hlossy, f, hfail⟩
    · rw [hsame]
      rw [traceDirectory] at hi ⊢
      cases hls : w.tree.list d dir with
      | error cause => exact ⟨_, Or.inl rfl, rfl⟩
      | ok ls =>
        rw [hls] at hi
        exact h.items (h.directory depth) hdir hls (fun _ hm => hm) rest s hi
    · rw [hfail]
      exact plays_failure hlossy _ s

/-- **A walk plays its trace**, or a beginning of it where calls may fail.  The invariant is needed if
there is something to walk at all. -/
theorem run_plays
    (h : ∀ info, w.tree.stat d w.root = .ok info → info.isDir = true → Steady lossy w t d v inv)
    (hi : inv (trace w d).1 s)
    (hroot : Answers lossy (t.stat (v.disk s) w.root) (w.tree.stat d w.root)) :
    ∃ tr, Stops lossy tr (trace w d) ∧ run { w with tree := t } v s = play v tr s := by
  unfold run
  dsimp only
  rcases hroot with hsame | ⟨hlossy, f, hfail⟩
  · rw [hsame]
    unfold trace at hi ⊢
    cases hstat : w.tree.stat d w.root with
    | error cause => exact ⟨_, Or.inl rfl, rfl⟩
    | ok info =>
      rw [hstat] at hi
      dsimp only at hi ⊢
      by_cases hinfo : info.isDir = true
      · have hsteady := h info hstat hinfo
        rw [if_pos hinfo] at hi ⊢
        rw [if_pos hinfo, (hsteady.sees hi).depth]
        exact hsteady.directory _ _ .root [] s (by rwa [List.append_nil])
      · rw [if_neg hinfo, if_neg hinfo]
        exact ⟨_, Or.inl rfl, rfl⟩
  · rw [hfail]
    exact plays_failure hlossy _ s

/-- Where no call fails that would not have failed, it is the trace and not only a beginning. -/
theorem run_eq_play
    (h : ∀ info, w.tree.stat d w.root = .ok info → info.isDir = true → Steady False w w.tree d v inv)
    (hi : inv (trace w d).1 s)
    (hroot : w.tree.stat (v.disk s) w.root = w.tree.stat d w.root) :
    run w v s = play v (trace w d) s := by
  obtain ⟨tr, hstop, hrun⟩ := run_plays h hi (Or.inl hroot)
  rcases hstop with rfl | ⟨hfalse, -⟩
  · exact hrun
  · exact hfalse.elim

end Steady

/-- Looking never fails, so that all is seen. -/
theorem replay_observer (see : Visit → σ → σ) : ∀ (xs : List Visit) (s : σ),
    replay (observer d see) xs s = (xs.foldl (fun s x => see x s) s, none)
  | [], _ => rfl
  | x :: xs, s => replay_observer see xs (see x s)

/-- **Whoever only looks sees the trace.** -/
theorem run_observer (w : Scope) (d : Disk) (see : Visit → σ → σ) (s : σ) :
    run w (observer d see) s = ((trace w d).1.foldl (fun s x => see x s) s, (trace w d).2) := by
  have hsteady : Steady False w w.tree d (observer d see) (fun _ _ => True) :=
    ⟨fun _ => ⟨rfl, fun _ => Or.inl rfl, fun _ _ _ _ => Or.inl rfl⟩, fun _ _ => trivial⟩
  rw [run_eq_play (fun _ _ _ => hsteady) trivial rfl, play, replay_observer]
  rfl

/-- The visits of a trace, collected, are the trace. -/
theorem play_collect (d : Disk) (tr : Trace) :
    play (observer d fun x seen => seen ++ [x]) tr [] = tr := by
  have hfold : ∀ (xs seen : List Visit), xs.foldl (fun seen x => seen ++ [x]) seen = seen ++ xs := by
    intro xs
    induction xs with
    | nil => exact fun seen => (List.append_nil seen).symm
    | cons x xs ih =>
      intro seen
      rw [List.foldl_cons, ih, List.append_assoc, List.singleton_append]
  rw [play, replay_observer, hfold, List.nil_append]
  rfl

/-- **The walk as a list is its trace.** -/
theorem visits_eq_trace (w : Scope) (d : Disk) : visits w d = trace w d := by
  rw [← play_collect d (trace w d), play, replay_observer, visits, run_observer]
  rfl

/-- Where the tree looks the same a walk comes to the same. -/
theorem trace_congr {d' : Disk}
    (h : ∀ info, w.tree.stat d w.root = .ok info → info.isDir = true → SeesAlike False w w.tree d d')
    (hroot : w.tree.stat d' w.root = w.tree.stat d w.root) : trace w d' = trace w d := by
  have hsteady : ∀ info, w.tree.stat d w.root = .ok info → info.isDir = true →
      Steady False w w.tree d (observer d' fun x seen => seen ++ [x]) fun _ _ => True :=
    fun info hstat hinfo => ⟨fun _ => h info hstat hinfo, fun _ _ => trivial⟩
  -- The walk on the other disk, which collects what it sees, plays the trace of this one.
  have hrun : visits w d' = play (observer d' fun x seen => seen ++ [x]) (trace w d) [] :=
    run_eq_play hsteady trivial hroot
  rwa [visits_eq_trace, play_collect] at hrun

/-- What is visited stands in a directory that is listed, and it is visited as a directory if it is listed as
one. -/
inductive Met (w : Scope) (d : Disk) (x : Visit) : Prop
  | intro {dir : Bytes} {ls : List Listed} {l : Listed} : Entered w d dir →
      w.tree.list d dir = .ok ls → l ∈ ls → x = w.visitOf (Path.child dir l.name) x.isDir →
      (x.isDir = true ↔ l.kind = .dir) → Met w d x

theorem mem_chain {a b : Trace} {x : Visit} (h : x ∈ (chain a b).1) : x ∈ a.1 ∨ x ∈ b.1 := by
  obtain ⟨xs, f⟩ := a
  cases f with
  | none => exact List.mem_append.mp h
  | some f => exact Or.inl h

/-- One item.  A link is never visited as a directory. -/
theorem met_of_mem_traceItem {inside : Bytes → Trace} {x : Visit} (hdir : Entered w d dir)
    (hls : w.tree.list d dir = .ok ls) (hl : l ∈ ls)
    (hin : ∀ n, Entered w d n → x ∈ (inside n).1 → Met w d x)
    (hx : x ∈ (traceItem w d inside (Path.child dir l.name) l.kind).1) : Met w d x := by
  unfold traceItem at hx
  split at hx
  · exact absurd hx (by simp)
  · cases hk : l.kind with
    | file =>
      rw [hk] at hx
      rw [List.mem_singleton.mp hx]
      exact ⟨hdir, hls, hl, rfl, by simp [Scope.visitOf, hk]⟩
    | dir =>
      rw [hk] at hx
      rcases mem_chain hx with hx | hx
      · rw [List.mem_singleton.mp hx]
        exact ⟨hdir, hls, hl, rfl, by simp [Scope.visitOf, hk]⟩
      · exact hin _ (.item hdir hls hl hk) hx
    | link =>
      rw [hk] at hx
      dsimp only at hx
      split at hx
      · exact absurd hx (by simp)
      · split at hx
        · exact absurd hx (by simp)
        · rw [List.mem_singleton.mp hx]
          exact ⟨hdir, hls, hl, rfl, by simp [Scope.visitOf, hk]⟩

theorem met_of_mem_traceItems {inside : Bytes → Trace} {x : Visit} (hdir : Entered w d dir)
    (hls : w.tree.list d dir = .ok ls) (hin : ∀ n, Entered w d n → x ∈ (inside n).1 → Met w d x) :
    ∀ {part : List Listed}, part ⊆ ls → x ∈ (traceItems w d inside dir part).1 → Met w d x
  | [], _, hx => absurd hx (by simp [traceItems])
  | l :: part, hpart, hx => by
    rcases mem_chain hx with hx | hx
    · exact met_of_mem_traceItem hdir hls (hpart (by simp)) hin hx
    · exact met_of_mem_traceItems hdir hls hin (fun _ hm => hpart (List.mem_cons_of_mem _ hm)) hx

theorem met_of_mem_traceDirectory {x : Visit} : ∀ (depth : Nat) {dir : Bytes}, Entered w d dir →
    x ∈ (traceDirectory w d depth dir).1 → Met w d x
  | 0, _, _, hx => absurd hx (by simp [traceDirectory])
  | depth + 1, dir, hdir, hx => by
    rw [traceDirectory] at hx
    split at hx
    · exact absurd hx (by simp)
    · rename_i ls hls
      exact met_of_mem_traceItems hdir hls (fun n => met_of_mem_traceDirectory depth) (fun _ hm => hm) hx

/-- A walk that ends well has found something to walk. -/
theorem root_of_trace_ok (h : (trace w d).2 = none) : ∃ info, w.tree.stat d w.root = .ok info := by
  unfold trace at h
  split at h
  · cases h
  · rename_i info hstat
    exact ⟨info, hstat⟩

/-- And if it has visited anything, then it started from a directory. -/
theorem root_of_mem_trace {x : Visit} (hx : x ∈ (trace w d).1) :
    ∃ info, w.tree.stat d w.root = .ok info ∧ info.isDir = true := by
  unfold trace at hx
  split at hx
  · exact absurd hx (by simp)
  · rename_i info hstat
    split at hx
    · rename_i hinfo
      exact ⟨info, hstat, hinfo⟩
    · exact absurd hx (by simp)

/-- **Whatever is visited was listed.** -/
theorem met_of_mem_trace {x : Visit} (hx : x ∈ (trace w d).1) : Met w d x := by
  unfold trace at hx
  split at hx
  · exact absurd hx (by simp)
  · split at hx
    · exact met_of_mem_traceDirectory _ .root hx
    · exact absurd hx (by simp)

/-! ## 4. The shape of a trace

Listings are sorted by name, and so is the walk: first by the name in the top directory, then by the name in the
next one, and so on.  As lists of names the paths of the visits ascend, and a directory comes before what is in
it since its path is a beginning of theirs.  The invariant `Shaped` says this about the visits in one directory;
`first` bounds the names that they begin with, so that what comes from two items can be put in order. -/

/-- A listing of names, in ascending order. -/
structure Tidy (ls : List Listed) : Prop where
  names : ∀ l ∈ ls, Path.IsName l.name
  ascending : ls.Pairwise (·.name < ·.name)

/-- The visit to what is reached over the names `q`. -/
def Scope.visitAt (w : Scope) (q : List Bytes) (isDir : Bool) : Visit :=
  ⟨Path.nameAt w.root q, Path.join q, isDir⟩

theorem visitOf_nameAt {q : List Bytes} (hq : q ≠ []) (h : ∀ n ∈ q, Path.IsName n) (isDir : Bool) :
    w.visitOf (Path.nameAt w.root q) isDir = w.visitAt q isDir := by
  rw [Scope.visitOf, Path.relativeTo_nameAt hq h, Scope.visitAt]

theorem visitAt_path {q : List Bytes} (h : ∀ n ∈ q, Path.IsName n) (isDir : Bool) :
    (w.visitAt q isDir).path = q := Path.names_join (Path.forall_isName h)

/-- Each visit is made in a directory that is known or was visited before.  A copy makes the directories that it
visits, so this says that it never has to make a file in a directory that is not there. -/
def Grounded : (List Bytes → Prop) → List Visit → Prop
  | _, [] => True
  | known, x :: xs => known x.path.dropLast ∧
      Grounded (fun q => known q ∨ (x.isDir = true ∧ q = x.path)) xs

theorem Grounded.mono : ∀ {xs : List Visit} {known more : List Bytes → Prop},
    (∀ q, known q → more q) → Grounded known xs → Grounded more xs
  | [], _, _, _, _ => trivial
  | _ :: _, _, _, h, hx => ⟨h _ hx.1, hx.2.mono fun q => Or.imp_left (h q)⟩

theorem Grounded.append : ∀ {xs ys : List Visit} {known : List Bytes → Prop},
    Grounded known xs → Grounded known ys → Grounded known (xs ++ ys)
  | [], _, _, _, hy => hy
  | _ :: _, _, _, hx, hy => ⟨hx.1, hx.2.append (hy.mono fun _ => Or.inl)⟩

/-- The visits in the directory `q`.  They are made over names that begin as `first` says, in the order
of these names, and each directory before what is in it. -/
structure Shaped (w : Scope) (q : List Bytes) (first : Bytes → Prop) (xs : List Visit) : Prop where
  paths : ∀ x ∈ xs, ∃ n r, first n ∧ (∀ m ∈ n :: r, Path.IsName m) ∧
    x = w.visitAt (q ++ n :: r) x.isDir
  sorted : xs.Pairwise (·.path < ·.path)
  grounded : ∀ known, known q → Grounded known xs

section Shape

variable {q : List Bytes} {first : Bytes → Prop} {xs ys : List Visit}

theorem Shaped.nil (w : Scope) (q : List Bytes) (first : Bytes → Prop) : Shaped w q first [] :=
  ⟨by simp, .nil, fun _ _ => trivial⟩

theorem forall_isName_append {r : List Bytes} (hq : ∀ n ∈ q, Path.IsName n)
    (hr : ∀ n ∈ r, Path.IsName n) : ∀ n ∈ q ++ r, Path.IsName n :=
  fun n hn => (List.mem_append.mp hn).elim (hq n) (hr n)

/-- The names over which a visit is made can be read off its relative path. -/
theorem Shaped.path_eq (hq : ∀ n ∈ q, Path.IsName n) (h : Shaped w q first xs) {x : Visit}
    (hx : x ∈ xs) : ∃ n r, first n ∧ x.path = q ++ n :: r := by
  obtain ⟨n, r, hn, hnames, he⟩ := h.paths x hx
  exact ⟨n, r, hn, he ▸ visitAt_path (forall_isName_append hq hnames) _⟩

/-- In the top directory there is nothing before these names. -/
theorem Shaped.proper (h : Shaped w [] first xs) {x : Visit} (hx : x ∈ xs) : x.Proper := by
  obtain ⟨n, r, -, hnames, he⟩ := h.paths x hx
  rw [List.nil_append] at he
  have hpath : x.path = n :: r := he ▸ visitAt_path hnames _
  exact ⟨by simp [hpath], hpath ▸ hnames, by rw [hpath, he]; rfl⟩

/-- Two sets of visits in the same directory, if all names of the first come before those of the second. -/
theorem Shaped.append (hq : ∀ n ∈ q, Path.IsName n) {second : Bytes → Prop}
    (hx : Shaped w q first xs) (hy : Shaped w q second ys)
    (hlt : ∀ m n, first m → second n → m < n) :
    Shaped w q (fun n => first n ∨ second n) (xs ++ ys) := by
  refine ⟨fun x hm => ?_, ?_, fun known hk => (hx.grounded known hk).append (hy.grounded known hk)⟩
  · rcases List.mem_append.mp hm with hm | hm
    · obtain ⟨n, r, hn, h⟩ := hx.paths x hm
      exact ⟨n, r, Or.inl hn, h⟩
    · obtain ⟨n, r, hn, h⟩ := hy.paths x hm
      exact ⟨n, r, Or.inr hn, h⟩
  · refine List.pairwise_append.mpr ⟨hx.sorted, hy.sorted, fun x hxm y hym => ?_⟩
    obtain ⟨m, r, hm, hxp⟩ := hx.path_eq hq hxm
    obtain ⟨n, r', hn, hyp⟩ := hy.path_eq hq hym
    rw [hxp, hyp]
    exact List.append_left_lt (List.cons_lt_cons_iff.mpr (Or.inl (hlt m n hm hn)))

theorem Shaped.imp {second : Bytes → Prop} (h : Shaped w q first xs) (hi : ∀ n, first n → second n) :
    Shaped w q second xs :=
  ⟨fun x hx => let ⟨n, r, hn, h⟩ := h.paths x hx; ⟨n, r, hi n hn, h⟩, h.sorted, h.grounded⟩

theorem Shaped.chain (hq : ∀ n ∈ q, Path.IsName n) {second : Bytes → Prop} {a b : Trace}
    (ha : Shaped w q first a.1) (hb : Shaped w q second b.1)
    (hlt : ∀ m n, first m → second n → m < n) :
    Shaped w q (fun n => first n ∨ second n) (chain a b).1 := by
  obtain ⟨xs, f⟩ := a
  cases f with
  | none => exact ha.append hq hb hlt
  | some f => exact ha.imp fun _ => Or.inl

/-- The visit to one item of the directory `q`. -/
theorem Shaped.single {n : Bytes} (hq : ∀ m ∈ q, Path.IsName m) (hn : Path.IsName n) (isDir : Bool) :
    Shaped w q (· = n) [w.visitAt (q ++ [n]) isDir] := by
  have hall : ∀ m ∈ [n], Path.IsName m := by simpa using hn
  refine ⟨?_, List.pairwise_singleton _ _, fun known hk => ⟨?_, trivial⟩⟩
  · intro x hx
    rw [List.mem_singleton] at hx
    subst hx
    exact ⟨n, [], rfl, hall, rfl⟩
  · rw [visitAt_path (forall_isName_append hq hall), List.dropLast_concat]
    exact hk

/-- The visit to a directory in `q`, and then to what is in it. -/
theorem Shaped.enter {n : Bytes} (hq : ∀ m ∈ q, Path.IsName m) (hn : Path.IsName n)
    (h : Shaped w (q ++ [n]) first xs) :
    Shaped w q (· = n) (w.visitAt (q ++ [n]) true :: xs) := by
  have hqn : ∀ m ∈ q ++ [n], Path.IsName m := forall_isName_append hq (by simpa using hn)
  have hpath := visitAt_path (w := w) hqn true
  refine ⟨fun x hx => ?_, List.pairwise_cons.mpr ⟨fun x hx => ?_, h.sorted⟩, fun known hk => ⟨?_, ?_⟩⟩
  · rcases List.mem_cons.mp hx with rfl | hx
    · exact ⟨n, [], rfl, by simpa using hn, rfl⟩
    · obtain ⟨m, r, -, hr, he⟩ := h.paths x hx
      rw [List.append_assoc, List.singleton_append] at he
      refine ⟨n, m :: r, rfl, fun k hk => ?_, he⟩
      rcases List.mem_cons.mp hk with rfl | hk
      · exact hn
      · exact hr k hk
  · obtain ⟨m, r, -, hp⟩ := h.path_eq hqn hx
    rw [hpath, hp]
    -- The path of the directory is a beginning of the others, so it is less.
    nth_rewrite 1 [← List.append_nil (q ++ [n])]
    exact List.append_left_lt (List.nil_lt_cons m r)
  · rw [hpath, List.dropLast_concat]
    exact hk
  · exact h.grounded _ (Or.inr ⟨rfl, hpath.symm⟩)

/-- One item of a directory.  Whatever comes of it begins with its name. -/
theorem traceItem_shaped {n : Bytes} {kind : Kind} {inside : Bytes → Trace}
    (hq : ∀ m ∈ q, Path.IsName m) (hn : Path.IsName n)
    (hin : Shaped w (q ++ [n]) (fun _ => True) (inside (Path.nameAt w.root (q ++ [n]))).1) :
    Shaped w q (· = n) (traceItem w d inside (Path.child (Path.nameAt w.root q) n) kind).1 := by
  have hqn : ∀ m ∈ q ++ [n], Path.IsName m := forall_isName_append hq (by simpa using hn)
  have hvisit := visitOf_nameAt (w := w) (by simp) hqn
  rw [← Path.nameAt_concat]
  unfold traceItem
  split
  · exact Shaped.nil w q _
  · cases kind with
    | file =>
      dsimp only
      rw [hvisit]
      exact Shaped.single hq hn false
    | dir =>
      dsimp only
      rw [chain, hvisit]
      exact Shaped.enter hq hn hin
    | link =>
      dsimp only
      split
      · exact Shaped.nil w q _
      · split
        · exact Shaped.nil w q _
        · rw [hvisit]
          exact Shaped.single hq hn false

/-- The items of a directory: each has its own name, and the names ascend. -/
theorem traceItems_shaped {inside : Bytes → Trace} (hq : ∀ m ∈ q, Path.IsName m)
    (hin : ∀ n, Path.IsName n →
      Shaped w (q ++ [n]) (fun _ => True) (inside (Path.nameAt w.root (q ++ [n]))).1) :
    ∀ {ls : List Listed}, Tidy ls →
      Shaped w q (fun n => ∃ l ∈ ls, l.name = n)
        (traceItems w d inside (Path.nameAt w.root q) ls).1
  | [], _ => Shaped.nil w q _
  | l :: ls, ht => by
    obtain ⟨hlt, hasc⟩ := List.pairwise_cons.mp ht.ascending
    have hl : Path.IsName l.name := ht.names l (by simp)
    have htail : Tidy ls := ⟨fun k hk => ht.names k (List.mem_cons_of_mem _ hk), hasc⟩
    have hitem : Shaped w q (· = l.name)
        (traceItem w d inside (Path.child (Path.nameAt w.root q) l.name) l.kind).1 :=
      traceItem_shaped hq hl (hin l.name hl)
    -- The names that are left are greater than this one.
    have hless : ∀ m n, m = l.name → (∃ k ∈ ls, k.name = n) → m < n := by
      rintro m n rfl ⟨k, hk, rfl⟩
      exact hlt k hk
    refine (hitem.chain hq (traceItems_shaped hq hin htail) hless).imp ?_
    rintro n (rfl | ⟨k, hk, rfl⟩)
    · exact ⟨l, by simp, rfl⟩
    · exact ⟨k, List.mem_cons_of_mem _ hk, rfl⟩

theorem traceDirectory_shaped (htidy : ∀ dir ls, w.tree.list d dir = .ok ls → Tidy ls) :
    ∀ (depth : Nat) {q : List Bytes}, (∀ m ∈ q, Path.IsName m) →
      Shaped w q (fun _ => True) (traceDirectory w d depth (Path.nameAt w.root q)).1
  | 0, q, _ => Shaped.nil w q _
  | depth + 1, q, hq => by
    rw [traceDirectory]
    split
    · exact Shaped.nil w q _
    · rename_i ls hls
      refine (traceItems_shaped hq (fun n hn => ?_) (htidy _ ls hls)).imp fun _ _ => trivial
      exact traceDirectory_shaped htidy depth (forall_isName_append hq (by simpa using hn))

/-- **The shape of a trace**, where directories are listed in order. -/
theorem trace_shaped (htidy : ∀ dir ls, w.tree.list d dir = .ok ls → Tidy ls) :
    Shaped w [] (fun _ => True) (trace w d).1 := by
  unfold trace
  split
  · exact Shaped.nil w [] _
  · split
    · exact traceDirectory_shaped htidy _ (q := []) (by simp)
    · exact Shaped.nil w [] _

end Shape

end Walk

end AgentKit
