import AgentKit.Proofs.Walking
/-!
# A walk in hindsight

The trace of a tree on the disk as it was at the beginning does not say what a walk came to if its own
visits made something that it came to later.  But a walk that went well can be told from its end: it saw
listings and links that it was to leave as they were, so the disk that it left still shows all of them.

* `Lasting` gives a relation between a disk and the disks that can come of it, under which what the walk
  has seen stays so.
* `Recalls` says of a part of a walk that every later disk shows the visits it made.  **The parts of a walk
  can be recalled** (`Lasting.item`, `Lasting.items`, `Lasting.directory`), so **a walk that succeeded made
  the visits of the trace on the disk it left** (`run_recalls`).

Compare this with `Steady` in `Walking`.  There the tree has to look the same all the time, failures included, and then
the walk plays the trace of the beginning even if it fails.  Here only what succeeded has to last, so that a link may
come to lead somewhere while the walk goes on; but nothing is said of a walk that fails, since what it failed at may
have been mended by now.

Why does it not matter which later disk is taken?  In the induction the first part of a walk is recalled on the disk at
the end of the second part, which is later than its own.  So the statement for a part has to hold for all of them.
-/

namespace AgentKit.Walk

variable {σ : Type} {w : Scope} {v : Visitor σ} {s s₁ s' : σ} {d d' : Disk} {dir : Bytes}
  {ls : List Listed} {l : Listed} {later : Disk → Disk → Prop} {ready : Bytes → Disk → Prop}
  {step : σ → Visit → σ → Prop}

/-- Visits made one after the other, each of them a `step`. -/
inductive Makes (step : σ → Visit → σ → Prop) : List Visit → σ → σ → Prop
  | nil (s : σ) : Makes step [] s s
  | cons {x : Visit} {xs : List Visit} {s s₁ s' : σ} : step s x s₁ → Makes step xs s₁ s' →
      Makes step (x :: xs) s s'

theorem Makes.mono {step' : σ → Visit → σ → Prop} {xs : List Visit} (h : Makes step xs s s')
    (himp : ∀ {s x s'}, step s x s' → step' s x s') : Makes step' xs s s' := by
  induction h with
  | nil s => exact .nil s
  | cons hstep _ ih => exact .cons (himp hstep) ih

theorem Makes.append {xs ys : List Visit} (hx : Makes step xs s s₁) (hy : Makes step ys s₁ s') :
    Makes step (xs ++ ys) s s' := by
  induction hx with
  | nil s => exact hy
  | cons h _ ih => exact .cons h (ih hy)

/-- What a walk has seen stays so on every `later` disk, and `ready` directories stay ready.  A visit that
succeeds in a ready directory leads to a later disk, on which a directory that was visited is ready. -/
structure Lasting (w : Scope) (v : Visitor σ) (later : Disk → Disk → Prop)
    (ready : Bytes → Disk → Prop) (step : σ → Visit → σ → Prop) : Prop where
  refl : ∀ d, later d d
  trans : ∀ {d₁ d₂ d₃}, later d₁ d₂ → later d₂ d₃ → later d₁ d₃
  stays : ∀ {dir d d'}, ready dir d → later d d' → ready dir d'
  list : ∀ {dir d d' ls}, ready dir d → later d d' → w.tree.list d dir = .ok ls →
    w.tree.list d' dir = .ok ls
  stat : ∀ {dir d d' ls l info}, ready dir d → later d d' → w.tree.list d dir = .ok ls → l ∈ ls →
    w.tree.stat d (Path.child dir l.name) = .ok info →
    w.tree.stat d' (Path.child dir l.name) = .ok info
  visit : ∀ {dir s s' ls l isDir}, ready dir (v.disk s) → w.tree.list (v.disk s) dir = .ok ls → l ∈ ls →
    (isDir = true ↔ l.kind = .dir) →
    v.visit (w.visitOf (Path.child dir l.name) isDir) s = (s', none) →
    later (v.disk s) (v.disk s') ∧ step s (w.visitOf (Path.child dir l.name) isDir) s' ∧
      (isDir = true → ready (Path.child dir l.name) (v.disk s'))

/-- What led from `s` to `s'` was to make the visits that any later disk shows. -/
def Recalls (v : Visitor σ) (later : Disk → Disk → Prop) (step : σ → Visit → σ → Prop) (s s' : σ)
    (tr : Disk → Trace) : Prop :=
  later (v.disk s) (v.disk s') ∧
    ∀ d, later (v.disk s') d → (tr d).2 = none ∧ Makes step (tr d).1 s s'

theorem Lasting.nothing (h : Lasting w v later ready step) {tr : Disk → Trace}
    (htr : ∀ d, later (v.disk s) d → tr d = ([], none)) : Recalls v later step s s tr := by
  refine ⟨h.refl _, fun d hd => ?_⟩
  rw [htr d hd]
  exact ⟨rfl, .nil s⟩

/-- One visit, which any later disk shows. -/
theorem Lasting.single (h : Lasting w v later ready step) {x : Visit} {tr : Disk → Trace}
    (hl : later (v.disk s) (v.disk s')) (hx : step s x s')
    (htr : ∀ d, later (v.disk s) d → tr d = ([x], none)) : Recalls v later step s s' tr := by
  refine ⟨hl, fun d hd => ?_⟩
  rw [htr d (h.trans hl hd)]
  exact ⟨rfl, .cons hx (.nil s')⟩

/-- One part after the other: what the first saw is still to be seen when the second has come to its end. -/
theorem Lasting.chain (h : Lasting w v later ready step) {a b : Disk → Trace}
    (ha : Recalls v later step s s₁ a) (hb : Recalls v later step s₁ s' b) :
    Recalls v later step s s' fun d => Walk.chain (a d) (b d) := by
  refine ⟨h.trans ha.1 hb.1, fun d hd => ?_⟩
  obtain ⟨hanone, hamakes⟩ := ha.2 d (h.trans hb.1 hd)
  obtain ⟨hbnone, hbmakes⟩ := hb.2 d hd
  have hchain : Walk.chain (a d) (b d) = ((a d).1 ++ (b d).1, (b d).2) := by
    cases had : a d with
    | mk xs f =>
      rw [had] at hanone
      cases hanone
      rfl
  dsimp only
  rw [hchain]
  exact ⟨hbnone, hamakes.append hbmakes⟩

/-- One item of a directory that is ready. -/
theorem Lasting.item (h : Lasting w v later ready step) {enter : Bytes → σ → σ × Option Failure}
    {inside : Disk → Bytes → Trace}
    (henter : ∀ {n s s'}, ready n (v.disk s) → enter n s = (s', none) →
      Recalls v later step s s' fun d => inside d n)
    (hready : ready dir (v.disk s)) (hls : w.tree.list (v.disk s) dir = .ok ls) (hl : l ∈ ls)
    (hrun : Walk.item w v enter (Path.child dir l.name) l.kind s = (s', none)) :
    Recalls v later step s s' fun d =>
      traceItem w d (inside d) (Path.child dir l.name) l.kind := by
  unfold Walk.item at hrun
  unfold traceItem
  dsimp only at hrun ⊢
  by_cases hex : Exclusion.excludes w.exclude (Path.relativeTo w.root (Path.child dir l.name)) = true
  · rw [if_pos hex] at hrun
    cases hrun
    exact h.nothing fun d _ => if_pos hex
  rw [if_neg hex] at hrun
  simp only [if_neg hex]
  cases hk : l.kind with
  | file =>
    rw [hk] at hrun
    obtain ⟨hlater, hstep, -⟩ := h.visit hready hls hl (by simp [hk]) hrun
    exact h.single hlater hstep fun _ _ => rfl
  | dir =>
    rw [hk] at hrun
    obtain ⟨s₁, hvisit, hrun⟩ := andThen_eq_ok.mp hrun
    obtain ⟨hlater, hstep, hinto⟩ := h.visit hready hls hl (by simp [hk]) hvisit
    have hfirst : Recalls v later step s s₁ fun _ =>
        ([w.visitOf (Path.child dir l.name) true], none) := h.single hlater hstep fun _ _ => rfl
    exact h.chain hfirst (henter (hinto rfl) hrun)
  | link =>
    rw [hk] at hrun
    dsimp only at hrun ⊢
    cases hstat : w.tree.stat (v.disk s) (Path.child dir l.name) with
    | error cause =>
      rw [hstat] at hrun
      cases hrun
    | ok info =>
      -- What the link led to when the walk came to it, it leads to on every later disk.
      have hstays : ∀ d, later (v.disk s) d → w.tree.stat d (Path.child dir l.name) = .ok info :=
        fun d hd => h.stat hready hd hls hl hstat
      rw [hstat] at hrun
      dsimp only at hrun
      by_cases hinfo : info.isDir = true
      · rw [if_pos hinfo] at hrun
        cases hrun
        refine h.nothing fun d hd => ?_
        simp only [hstays d hd, hinfo, if_true]
      · rw [if_neg hinfo] at hrun
        obtain ⟨hlater, hstep, -⟩ := h.visit hready hls hl (by simp [hk]) hrun
        refine h.single hlater hstep fun d hd => ?_
        simp only [hstays d hd, hinfo]
        rfl

/-- The items of one listing, in turn. -/
theorem Lasting.items (h : Lasting w v later ready step) {enter : Bytes → σ → σ × Option Failure}
    {inside : Disk → Bytes → Trace}
    (henter : ∀ {n s s'}, ready n (v.disk s) → enter n s = (s', none) →
      Recalls v later step s s' fun d => inside d n) :
    ∀ {part : List Listed} {s : σ}, ready dir (v.disk s) → w.tree.list (v.disk s) dir = .ok ls →
      part ⊆ ls → Walk.items w v enter dir part s = (s', none) →
      Recalls v later step s s' fun d => traceItems w d (inside d) dir part
  | [], s, _, _, _, hrun => by
    cases hrun
    exact h.nothing fun _ _ => rfl
  | l :: part, s, hready, hls, hpart, hrun => by
    obtain ⟨s₁, hitem, hrun⟩ := andThen_eq_ok.mp hrun
    have hfirst := h.item henter hready hls (hpart (by simp)) hitem
    -- The directory is listed once, and would be listed so when the walk comes to the next item.
    exact h.chain hfirst (h.items henter (h.stays hready hfirst.1) (h.list hready hfirst.1 hls)
      (fun _ hm => hpart (List.mem_cons_of_mem _ hm)) hrun)

/-- By induction on the depth.  What was listed is listed on every later disk. -/
theorem Lasting.directory (h : Lasting w v later ready step) : ∀ (depth : Nat) {dir : Bytes} {s s' : σ},
    ready dir (v.disk s) → Walk.directory w v depth dir s = (s', none) →
    Recalls v later step s s' fun d => traceDirectory w d depth dir
  | 0, _, _, _, _, hrun => by
    cases hrun
    exact h.nothing fun _ _ => rfl
  | depth + 1, dir, s, s', hready, hrun => by
    unfold Walk.directory at hrun
    cases hls : w.tree.list (v.disk s) dir with
    | error cause =>
      rw [hls] at hrun
      cases hrun
    | ok ls =>
      rw [hls] at hrun
      obtain ⟨hlater, hmakes⟩ := h.items (h.directory depth) hready hls (fun _ hm => hm) hrun
      refine ⟨hlater, fun d hd => ?_⟩
      dsimp only
      rw [traceDirectory, h.list hready (h.trans hlater hd) hls]
      exact hmakes d hd

/-- **A walk that succeeded made the visits of the trace on the disk it left**, and on any later one. -/
theorem run_recalls (h : Lasting w v later ready step)
    (hroot : ∀ {info}, w.tree.stat (v.disk s) w.root = .ok info → ∀ d, later (v.disk s) d →
      w.tree.stat d w.root = .ok info)
    (hready : ∀ {info}, w.tree.stat (v.disk s) w.root = .ok info → info.isDir = true →
      ready w.root (v.disk s))
    (hrun : run w v s = (s', none)) : Recalls v later step s s' (trace w) := by
  unfold run at hrun
  cases hstat : w.tree.stat (v.disk s) w.root with
  | error cause =>
    rw [hstat] at hrun
    cases hrun
  | ok info =>
    rw [hstat] at hrun
    dsimp only at hrun
    by_cases hinfo : info.isDir = true
    · rw [if_pos hinfo] at hrun
      obtain ⟨hlater, hmakes⟩ := h.directory _ (hready hstat hinfo) hrun
      refine ⟨hlater, fun d hd => ?_⟩
      rw [trace, hroot hstat d (h.trans hlater hd)]
      dsimp only
      rw [if_pos hinfo]
      exact hmakes d hd
    · rw [if_neg hinfo] at hrun
      cases hrun
      refine h.nothing fun d hd => ?_
      rw [trace, hroot hstat d hd]
      dsimp only
      rw [if_neg hinfo]

end AgentKit.Walk
