import AgentKit.Proofs.Hindsight
/-!
# A walk alongside another

A walk that went well tells how others go that start where it started or further on.  One through a tree that
fails more does the same up to the first failure.  One on a disk that has advanced sees again what the first
saw.  Both are walks alongside the first: their states are related to its states, visit by visit.

The relation may speak of the visits that are still to be made.  They are those of the trace on the disk that
the first walk left, and on any later one (`Recalls`).

* `Alongside` says what is needed of the relation, call by call and visit by visit.
* **The parts of the second walk end as those of the first, or it is lost** (`Alongside.item`,
  `Alongside.items`, `Alongside.directory`), and so does the whole walk (`run_alongside`).

This is used for a copy that fails and is made again (`Recovery`).  The first walk is then an imagined one, of the copy as
it would have gone without faults.  The copy that failed goes alongside it up to its failure, and the copy that is
made again goes alongside it to the end, over the disk that the failed one has left.  `lost` is what is known of the
second walk once it has failed, and it is false where it cannot fail.
-/

namespace AgentKit.Walk

variable {σ τ : Type} {w : Scope} {t : Tree} {v : Visitor σ} {v' : Visitor τ} {s s₁ s' : σ} {r : τ} {dir : Bytes}
  {ls : List Listed} {l : Listed} {later : Disk → Disk → Prop} {ready : Bytes → Disk → Prop}
  {step : σ → Visit → σ → Prop} {rel : List Visit → σ → τ → Prop} {lost : τ → Prop} {xs ys : List Visit}
  {act next : τ → τ × Option Failure}

/-- What is known of the steps of a walk besides: they are what its visits do. -/
theorem Lasting.visited (h : Lasting w v later ready step) :
    Lasting w v later ready fun s x s' => v.visit x s = (s', none) ∧ step s x s' :=
  { h with
    visit := fun hready hls hl hkind hv => by
      obtain ⟨hlater, hstep, hinto⟩ := h.visit hready hls hl hkind hv
      exact ⟨hlater, ⟨hv, hstep⟩, hinto⟩ }

/-- A walk with `v'` through `t` goes alongside one with `v` through the tree of `w`.  In related states its calls
give the same answers, and its visits lead to related states, unless they fail and the walk is `lost`. -/
structure Alongside (w : Scope) (t : Tree) (v : Visitor σ) (v' : Visitor τ) (later : Disk → Disk → Prop)
    (ready : Bytes → Disk → Prop) (step : σ → Visit → σ → Prop) (rel : List Visit → σ → τ → Prop)
    (lost : τ → Prop) : Prop extends Lasting w v later ready step where
  depth : t.depth = w.tree.depth
  lists : ∀ {dir s ls xs r}, ready dir (v.disk s) → rel xs s r → w.tree.list (v.disk s) dir = .ok ls →
    Answers (lost r) (t.list (v'.disk r) dir) (.ok ls)
  stats : ∀ {dir s ls l info xs r}, ready dir (v.disk s) → rel xs s r →
    w.tree.list (v.disk s) dir = .ok ls → l ∈ ls →
    w.tree.stat (v.disk s) (Path.child dir l.name) = .ok info →
    Answers (lost r) (t.stat (v'.disk r) (Path.child dir l.name)) (.ok info)
  visits : ∀ {dir s s' ls l isDir xs r}, ready dir (v.disk s) → w.tree.list (v.disk s) dir = .ok ls → l ∈ ls →
    v.visit (w.visitOf (Path.child dir l.name) isDir) s = (s', none) →
    rel (w.visitOf (Path.child dir l.name) isDir :: xs) s r →
    (∃ r', v'.visit (w.visitOf (Path.child dir l.name) isDir) r = (r', none) ∧ rel xs s' r') ∨
      ∃ r' f, v'.visit (w.visitOf (Path.child dir l.name) isDir) r = (r', some f) ∧ lost r'

/-- While the first walk makes the visits `xs`, from `s` to `s'`, the second does `act` and stays alongside, or is
lost. -/
def Attends (rel : List Visit → σ → τ → Prop) (lost : τ → Prop) (xs : List Visit) (s s' : σ)
    (act : τ → τ × Option Failure) : Prop :=
  ∀ rest r, rel (xs ++ rest) s r → (∃ r', act r = (r', none) ∧ rel rest s' r') ∨
    ∃ r' f, act r = (r', some f) ∧ lost r'

theorem Attends.nothing (rel : List Visit → σ → τ → Prop) (lost : τ → Prop) (s : σ) :
    Attends rel lost [] s s fun r => (r, none) :=
  fun _ r hrel => Or.inl ⟨r, rfl, hrel⟩

/-- One part after the other.  If the second walk is lost in the first part, then so it is at the end. -/
theorem Attends.andThen (hact : Attends rel lost xs s s₁ act) (hnext : Attends rel lost ys s₁ s' next) :
    Attends rel lost (xs ++ ys) s s' fun r => Walk.andThen (act r) next := by
  intro rest r hrel
  rw [List.append_assoc] at hrel
  rcases hact _ r hrel with ⟨r₁, hdone, hrel₁⟩ | ⟨r', f, hfail, hlost⟩
  · rcases hnext _ r₁ hrel₁ with ⟨r', hdone', hrel'⟩ | ⟨r', f, hfail, hlost⟩
    · exact Or.inl ⟨r', andThen_eq_ok.mpr ⟨r₁, hdone, hdone'⟩, hrel'⟩
    · refine Or.inr ⟨r', f, ?_, hlost⟩
      dsimp only
      rw [hdone]
      exact hfail
  · refine Or.inr ⟨r', f, ?_, hlost⟩
    dsimp only
    rw [hfail]
    rfl

/-- A part of the first walk has led from `s` to `s'`, and `act` attends to the visits that any later disk
shows. -/
def Escorts (v : Visitor σ) (later : Disk → Disk → Prop) (step : σ → Visit → σ → Prop)
    (rel : List Visit → σ → τ → Prop) (lost : τ → Prop) (s s' : σ) (tr : Disk → Trace)
    (act : τ → τ × Option Failure) : Prop :=
  Recalls v later step s s' tr ∧ ∀ d, later (v.disk s') d → Attends rel lost (tr d).1 s s' act

theorem Alongside.chain (h : Alongside w t v v' later ready step rel lost) {a b : Disk → Trace}
    (ha : Escorts v later step rel lost s s₁ a act) (hb : Escorts v later step rel lost s₁ s' b next) :
    Escorts v later step rel lost s s' (fun d => Walk.chain (a d) (b d))
      fun r => Walk.andThen (act r) next := by
  refine ⟨h.toLasting.chain ha.1 hb.1, fun d hd => ?_⟩
  have hbefore := h.trans hb.1.1 hd
  -- The first part ended without a failure, as any later disk shows.
  have hchain : (Walk.chain (a d) (b d)).1 = (a d).1 ++ (b d).1 := by
    have hnone := (ha.1.2 d hbefore).1
    cases had : a d with
    | mk xs f =>
      rw [had] at hnone
      cases hnone
      rfl
  dsimp only
  rw [hchain]
  exact (ha.2 d hbefore).andThen (hb.2 d hd)

/-- The second walk makes the visit that the first makes. -/
theorem Alongside.attends_visit (h : Alongside w t v v' later ready step rel lost) {isDir : Bool}
    (hready : ready dir (v.disk s)) (hls : w.tree.list (v.disk s) dir = .ok ls) (hl : l ∈ ls)
    (hv : v.visit (w.visitOf (Path.child dir l.name) isDir) s = (s', none)) :
    Attends rel lost [w.visitOf (Path.child dir l.name) isDir] s s'
      (v'.visit (w.visitOf (Path.child dir l.name) isDir)) :=
  fun _ _ hrel => h.visits hready hls hl hv hrel

/-- One item.  Both walks see the same kind of thing, and of a link the same about what it leads to. -/
theorem Alongside.item (h : Alongside w t v v' later ready step rel lost)
    {enter : Bytes → σ → σ × Option Failure} {enter' : Bytes → τ → τ × Option Failure}
    {inside : Disk → Bytes → Trace}
    (henter : ∀ {n s s'}, ready n (v.disk s) → enter n s = (s', none) →
      Escorts v later step rel lost s s' (fun d => inside d n) (enter' n))
    (hready : ready dir (v.disk s)) (hls : w.tree.list (v.disk s) dir = .ok ls) (hl : l ∈ ls)
    (hrun : Walk.item w v enter (Path.child dir l.name) l.kind s = (s', none)) :
    Escorts v later step rel lost s s' (fun d => traceItem w d (inside d) (Path.child dir l.name) l.kind)
      (Walk.item { w with tree := t } v' enter' (Path.child dir l.name) l.kind) := by
  have hrecall := h.toLasting.item (fun hn he => (henter hn he).1) hready hls hl hrun
  refine ⟨hrecall, fun d hd => ?_⟩
  unfold Walk.item at hrun
  unfold traceItem
  dsimp only at hrun ⊢
  -- Both leave out what is excluded, since their patterns are the same.
  by_cases hex : Exclusion.excludes w.exclude (Path.relativeTo w.root (Path.child dir l.name)) = true
  · rw [if_pos hex] at hrun
    cases hrun
    rw [if_pos hex]
    intro rest r hrel
    unfold Walk.item
    dsimp only
    rw [if_pos hex]
    exact Attends.nothing rel lost s rest r hrel
  rw [if_neg hex] at hrun
  rw [if_neg hex]
  intro rest r hrel
  unfold Walk.item
  dsimp only
  rw [if_neg hex]
  cases hk : l.kind with
  | file =>
    rw [hk] at hrun hrel
    exact h.attends_visit hready hls hl hrun rest r hrel
  | dir =>
    rw [hk] at hrun hrel
    obtain ⟨s₁, hvisit, hrun⟩ := andThen_eq_ok.mp hrun
    obtain ⟨-, -, hinto⟩ := h.visit hready hls hl (by simp [hk]) hvisit
    have hattends := (h.attends_visit hready hls hl hvisit).andThen ((henter (hinto rfl) hrun).2 d hd)
    exact hattends rest r hrel
  | link =>
    rw [hk] at hrun hrel
    dsimp only at hrun hrel ⊢
    cases hstat : w.tree.stat (v.disk s) (Path.child dir l.name) with
    | error cause =>
      rw [hstat] at hrun
      cases hrun
    | ok info =>
      rw [h.stat hready (h.trans hrecall.1 hd) hls hl hstat] at hrel
      rw [hstat] at hrun
      dsimp only at hrun hrel
      rcases h.stats hready hrel hls hl hstat with hsame | ⟨hlost, f, hfail⟩
      · rw [hsame]
        dsimp only
        by_cases hinfo : info.isDir = true
        · rw [if_pos hinfo] at hrun hrel
          cases hrun
          rw [if_pos hinfo]
          exact Attends.nothing rel lost s rest r hrel
        · rw [if_neg hinfo] at hrun hrel
          rw [if_neg hinfo]
          exact h.attends_visit hready hls hl hrun rest r hrel
      · rw [hfail]
        exact Or.inr ⟨r, _, rfl, hlost⟩

/-- The items of a directory, which both have listed. -/
theorem Alongside.items (h : Alongside w t v v' later ready step rel lost)
    {enter : Bytes → σ → σ × Option Failure} {enter' : Bytes → τ → τ × Option Failure}
    {inside : Disk → Bytes → Trace}
    (henter : ∀ {n s s'}, ready n (v.disk s) → enter n s = (s', none) →
      Escorts v later step rel lost s s' (fun d => inside d n) (enter' n)) :
    ∀ {part : List Listed} {s : σ}, ready dir (v.disk s) → w.tree.list (v.disk s) dir = .ok ls →
      part ⊆ ls → Walk.items w v enter dir part s = (s', none) →
      Escorts v later step rel lost s s' (fun d => traceItems w d (inside d) dir part)
        (Walk.items { w with tree := t } v' enter' dir part)
  | [], _, _, _, _, hrun => by
    cases hrun
    exact ⟨h.nothing fun _ _ => rfl, fun _ _ => Attends.nothing rel lost s'⟩
  | l :: part, s, hready, hls, hpart, hrun => by
    obtain ⟨s₁, hitem, hrun⟩ := andThen_eq_ok.mp hrun
    have hfirst := h.item henter hready hls (hpart (by simp)) hitem
    have hlater := hfirst.1.1
    exact h.chain hfirst (h.items henter (h.stays hready hlater) (h.list hready hlater hls)
      (fun _ hm => hpart (List.mem_cons_of_mem _ hm)) hrun)

theorem Alongside.directory (h : Alongside w t v v' later ready step rel lost) :
    ∀ (depth : Nat) {dir : Bytes} {s s' : σ}, ready dir (v.disk s) →
      Walk.directory w v depth dir s = (s', none) →
      Escorts v later step rel lost s s' (fun d => traceDirectory w d depth dir)
        (Walk.directory { w with tree := t } v' depth dir)
  | 0, _, s, _, _, hrun => by
    cases hrun
    exact ⟨h.nothing fun _ _ => rfl, fun _ _ => Attends.nothing rel lost s⟩
  | depth + 1, dir, s, s', hready, hrun => by
    have hrecall := h.toLasting.directory (depth + 1) hready hrun
    refine ⟨hrecall, fun d hd rest r hrel => ?_⟩
    unfold Walk.directory at hrun ⊢
    dsimp only at hrel ⊢
    cases hls : w.tree.list (v.disk s) dir with
    | error cause =>
      rw [hls] at hrun
      cases hrun
    | ok ls =>
      rw [hls] at hrun
      rw [traceDirectory, h.list hready (h.trans hrecall.1 hd) hls] at hrel
      rcases h.lists hready hrel hls with hsame | ⟨hlost, f, hfail⟩
      · rw [hsame]
        exact (h.items (h.directory depth) hready hls (fun _ hm => hm) hrun).2 d hd rest r hrel
      · rw [hfail]
        exact Or.inr ⟨r, _, rfl, hlost⟩

/-- **A walk alongside one that succeeded ends as it did, or is lost.** -/
theorem run_alongside (h : Alongside w t v v' later ready step rel lost)
    (hroot : ∀ {info}, w.tree.stat (v.disk s) w.root = .ok info → ∀ d, later (v.disk s) d →
      w.tree.stat d w.root = .ok info)
    (hroot' : ∀ {info}, w.tree.stat (v.disk s) w.root = .ok info →
      Answers (lost r) (t.stat (v'.disk r) w.root) (.ok info))
    (hready : ∀ {info}, w.tree.stat (v.disk s) w.root = .ok info → info.isDir = true →
      ready w.root (v.disk s))
    (hrun : run w v s = (s', none)) (hrel : rel (trace w (v.disk s')).1 s r) :
    (∃ r', run { w with tree := t } v' r = (r', none) ∧ rel [] s' r') ∨
      ∃ r' f, run { w with tree := t } v' r = (r', some f) ∧ lost r' := by
  have hlater := (run_recalls h.toLasting hroot hready hrun).1
  unfold run at hrun ⊢
  dsimp only
  cases hstat : w.tree.stat (v.disk s) w.root with
  | error cause =>
    rw [hstat] at hrun
    cases hrun
  | ok info =>
    rw [hstat] at hrun
    rw [trace, hroot hstat _ hlater] at hrel
    dsimp only at hrun hrel
    rcases hroot' hstat with hsame | ⟨hlost, f, hfail⟩
    · rw [hsame]
      dsimp only
      by_cases hinfo : info.isDir = true
      · rw [if_pos hinfo] at hrun hrel
        rw [if_pos hinfo, h.depth]
        refine (h.directory _ (hready hstat hinfo) hrun).2 _ (h.refl _) [] r ?_
        rwa [List.append_nil]
      · rw [if_neg hinfo] at hrun hrel
        cases hrun
        rw [if_neg hinfo]
        exact Or.inl ⟨r, rfl, hrel⟩
    · rw [hfail]
      exact Or.inr ⟨r, _, rfl, hlost⟩

end AgentKit.Walk
