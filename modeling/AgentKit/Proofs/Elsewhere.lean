import AgentKit.Proofs.Hindsight
import AgentKit.Proofs.Sources
/-!
# Sources that lead elsewhere

`Tree.Apart` wants the links of a source to keep off a part `P` of the disk altogether.  Here a link may
lead over `P`, and even over what is not there yet, as long as it ends elsewhere.  Such a link need not be
followed alike before and after something is made in `P`: it may dangle first and lead somewhere then.
But what it has once led to stays, and so does all that has been read.

1. `Advances` says how a disk may change: `P` is free, outside of it nothing goes and nothing changes, and
   only directories around `P` may come.
2. `Aloof` says of two places that no link in one ends in the other.  **What is found over directories of
   the one is not in the other** (`Aloof.follows_outside`).
3. **A look at an aloof tree that succeeded succeeds again**: the root and the items (`Tree.LeadsOut.stat`),
   the listings (`Tree.Aloof.list`) and the files (`Tree.LeadsOut.openFile`).
4. So does a walk, which comes to the same (`Walk.visits_advances`).

The price for the weaker condition is that only successes carry over.  A failed look may succeed later, when a
directory on the way has come, and so a failed walk may come to something else when it is made again.  The theorem is
therefore about walks that succeeded, and it is used to say what a copy that succeeded has copied.
-/

namespace AgentKit

namespace Disk

variable {d d' d₁ d₂ : Disk} {S P p r : Place} {q : List Bytes} {path : Bytes} {e : Entry}

/-! ## 1. Disks that advance

The relation is made for a copy into `P`: it makes the directories around its destination first, and then writes
in it. -/

/-- From `d` to `d'` directories and links stay, and outside of `P` all that there was is still there. -/
structure Retains (P : Place) (d d' : Disk) : Prop extends Keeps d d' where
  held : ∀ p e, ¬ P <+: p → d.get? p = some e → d'.get? p = some e

/-- Besides, nothing has come that is neither in `P` nor around it. -/
structure Advances (P : Place) (d d' : Disk) : Prop extends Retains P d d' where
  aside : ∀ p, ¬ P <+: p → ¬ p <+: P → d'.get? p = d.get? p

theorem Retains.trans (h : Retains P d d₁) (h' : Retains P d₁ d₂) : Retains P d d₂ :=
  ⟨h.toKeeps.trans h'.toKeeps, fun p e hp he => h'.held p e hp (h.held p e hp he)⟩

theorem Advances.refl (P : Place) (d : Disk) : Advances P d d :=
  ⟨⟨Keeps.refl d, fun _ _ _ h => h⟩, fun _ _ _ => rfl⟩

theorem Advances.trans (h : Advances P d d₁) (h' : Advances P d₁ d₂) : Advances P d d₂ :=
  ⟨h.toRetains.trans h'.toRetains, fun p hp hp' => (h'.aside p hp hp').trans (h.aside p hp hp')⟩

/-- What is put in `P` can be anything that leaves directories and links alone. -/
theorem Puts.advances (h : Puts d p e d') (hg : Gentle d p e) (hp : P <+: p) : Advances P d d' := by
  have hother : ∀ r, ¬ P <+: r → d'.get? r = d.get? r := by
    intro r hr
    apply h.other
    rintro rfl
    exact hr hp
  exact ⟨⟨h.keeps hg, fun r e hr he => (hother r hr).trans he⟩, fun r hr _ => hother r hr⟩

/-- What was found outside of `P` is found again. -/
theorem Retains.find (h : Retains P d d')
    (hout : ∀ p, Follows d true maxLinks (d.start path) (Path.names path) p → ¬ P <+: p)
    (hf : d.find true path = .ok (p, e)) : d'.find true path = .ok (p, e) := by
  obtain ⟨hl, he, -⟩ := find_eq_ok.mp hf
  exact find_keeps h.toKeeps hf (h.held p e (hout p (locate_eq_ok.mp hl).2) he)

/-! ## 2. Places that do not lead to each other

A trail takes what is missing for a directory, so the end of a link's trail is where the link can ever end while
a copy goes on. -/

/-- Neither of the directories at `S` and `P` is inside the other, and no link in `S` ends in `P`.  What is
missing on the way of a link counts as a directory. -/
structure Aloof (d : Disk) (S P : Place) : Prop where
  not_inside : ¬ P <+: S
  not_around : ¬ S <+: P
  links : ∀ q target, S <+: q → d.get? q = some (.link target) →
    ∀ r ∈ (d.trailWithin maxLinks (linkStart q.dropLast target) (hops target)).getLast?, ¬ P <+: r

/-- Whether two places are aloof can be read off the entries. -/
theorem aloof_of_entries (hin : ¬ P <+: S) (haround : ¬ S <+: P)
    (h : ∀ x ∈ d.entries, ∀ r ∈ (d.linkTrail x.1 x.2).getLast?, ¬ P <+: r) : d.Aloof S P :=
  ⟨hin, haround, fun _ _ _ hl => h _ (link_mem_entries hl)⟩

/-- To keep off altogether is more than to end elsewhere. -/
theorem Apart.aloof (h : d.Apart S P) : d.Aloof S P :=
  ⟨h.not_inside, h.not_around, fun q target hq hl r hr => h.links q target hq hl r (List.mem_of_getLast? hr)⟩

/-- Where links end depends on links, which stay. -/
theorem Aloof.keeps (h : d.Aloof S P) (hk : Keeps d d') : d'.Aloof S P := by
  refine ⟨h.not_inside, h.not_around, fun q target hq hl => ?_⟩
  rw [trailWithin_congr hk.link]
  exact h.links q target hq ((hk.link q target).mp hl)

theorem Aloof.outside (h : d.Aloof S P) (hr : S <+: r) : ¬ P <+: r :=
  outside_of_prefix h.not_inside h.not_around hr

/-- With more links to spend a path leads where it led. -/
theorem Follows.more {follow : Bool} {n k : Nat} {ns : List Bytes} (h : Follows d follow n p ns r)
    (hk : n ≤ k) : Follows d follow k p ns r := by
  induction h generalizing k with
  | stop n p => exact .stop k p
  | dot hp _ ih => exact .dot hp (ih hk)
  | up hp _ ih => exact .up hp (ih hk)
  | into hp hn he _ ih => exact .into hp hn he (ih hk)
  | last hp hn he => exact .last hp hn he
  | link hp hn he hr _ ih =>
    obtain ⟨j, rfl⟩ := Nat.exists_eq_add_of_le' (Nat.lt_of_lt_of_le (Nat.succ_pos _) hk)
    exact .link hp hn he hr (ih (Nat.le_of_succ_le_succ hk))
  | lastLink hp hn he hf => exact .lastLink hp hn he hf

/-- Names behind directories lead on from there. -/
theorem Paved.strip {follow : Bool} {n : Nat} {ms : List Bytes} (hms : ms ≠ []) :
    ∀ {q : List Bytes} {p : Place}, d.Paved p q → (∀ m ∈ q, Path.IsName m) →
      Follows d follow n p (q ++ ms) r → Follows d follow n (p ++ q) ms r
  | [], p, _, _, h => by rwa [List.append_nil]
  | name :: q, p, hpaved, hq, h => by
    have hname := hq name (by simp)
    rw [List.cons_append] at h
    -- The first name is that of a directory, so only one of the rules applies.
    generalize hrest : q ++ ms = rest at h
    cases h with
    | dot => exact absurd rfl hname.ne_dot
    | up => exact absurd rfl hname.ne_up
    | into _ _ _ h =>
      subst hrest
      have hstrip := hpaved.tail.strip hms (fun m hm => hq m (List.mem_cons_of_mem _ hm)) h
      rwa [List.append_assoc, List.singleton_append] at hstrip
    | last => exact absurd (List.append_eq_nil_iff.mp hrest).2 hms
    | link _ _ he => exact absurd he hpaved.ne_link
    | lastLink _ _ he => exact absurd he hpaved.ne_link

/-- **What is found over directories of `S`, behind a link at the end too, is not in `P`.** -/
theorem Aloof.follows_outside (h : d.Aloof S P) (hpaved : d.Paved S q) {n : Bytes} {k : Nat}
    (hq : ∀ m ∈ q ++ [n], Path.IsName m) (hk : k ≤ maxLinks) (hf : Follows d true k S (q ++ [n]) r) :
    ¬ P <+: r := by
  have hn : Path.IsName n := hq n (by simp)
  have hthere : ¬ P <+: S ++ q ++ [n] :=
    h.outside ((List.prefix_append S q).trans (List.prefix_append _ [n]))
  have hlast := hpaved.strip (by simp) (fun m hm => hq m (List.mem_append_left _ hm)) hf
  generalize hns : [n] = ns at hlast
  cases hlast with
  | stop => cases hns
  | dot => exact absurd (List.cons.inj hns).1 hn.ne_dot
  | up => exact absurd (List.cons.inj hns).1 hn.ne_up
  | into _ _ _ hstop =>
    obtain ⟨rfl, rfl⟩ := List.cons.inj hns
    cases hstop
    exact hthere
  | last =>
    cases hns
    exact hthere
  -- Behind the link, which ends outside whatever it leads over.
  | @link j _ _ _ _ t _ _ he _ hbehind =>
    obtain ⟨rfl, rfl⟩ := List.cons.inj hns
    rw [List.append_nil] at hbehind
    have hlink := h.links _ t ((List.prefix_append S q).trans (List.prefix_append _ [n])) he r
    rw [List.dropLast_concat] at hlink
    exact hlink (hbehind.more (Nat.le_of_succ_le hk)).getLast?_trail
  | lastLink _ _ _ hfalse => cases hfalse

end Disk

/-! ## 3. Trees

What is asked of one name is `LeadsOut`, and what is asked of a tree is `Aloof`.  The second gives the first for
the root and for all that a walk comes to (`Aloof.item`). -/

namespace Tree

open Disk

variable {d d' : Disk} {S P p : Place} {dir root name : Bytes} {info : Info} {r : Reading}

/-- The name does not lead into `P`. -/
def LeadsOut (name : Bytes) (d : Disk) (P : Place) : Tree → Prop
  | .onDisk dir => ∀ path, pathOf dir name = .ok path →
      ∀ p, Follows d true maxLinks (d.start path) (Path.names path) p → ¬ P <+: p
  | .inMemory _ => True
  | .faulty _ t => t.LeadsOut name d P

/-- What does not lead into `P` by now did not lead there before. -/
theorem LeadsOut.earlier (hk : Keeps d d') : ∀ {t : Tree}, t.LeadsOut name d' P → t.LeadsOut name d P
  | .onDisk _, h => fun path hpath p hp => h path hpath p (hk.start path ▸ hp.keeps hk)
  | .inMemory _, _ => trivial
  | .faulty _ t, h => LeadsOut.earlier hk (t := t) h

/-- **What was seen of a name is seen again.** -/
theorem LeadsOut.stat (hr : Retains P d d') : ∀ {t : Tree}, t.LeadsOut name d P →
    t.stat d name = .ok info → t.stat d' name = .ok info
  | .onDisk dir, h, hstat => by
    obtain ⟨path, hpath, hs⟩ := onPathOf_eq_ok.mp hstat
    obtain ⟨p, e, hfind, he⟩ := statusOf_eq_ok.mp hs
    have hfind' := hr.find (h path hpath) hfind
    exact onPathOf_eq_ok.mpr ⟨path, hpath, statusOf_eq_ok.mpr ⟨p, e, hfind', he⟩⟩
  | .inMemory _, _, hstat => hstat
  | .faulty faults t, h, hstat => by
    obtain ⟨hcause, hstat⟩ := Fault.orElse_eq_ok.mp hstat
    exact Fault.orElse_eq_ok.mpr ⟨hcause, LeadsOut.stat hr (t := t) h hstat⟩

/-- What a call on an open file answers depends on the answer of the tree behind the faults. -/
theorem openFile_faulty {faults : List Fault} {t : Tree} :
    (Tree.faulty faults t).openFile d name = .ok r ↔
      Fault.cause? faults name .opening = none ∧ ∃ r', t.openFile d name = .ok r' ∧
        r = { r' with
          info := Fault.orElse faults "stat" name .status r'.info
          content := (Fault.cut faults name (r'.content, r'.failure)).1
          failure := (Fault.cut faults name (r'.content, r'.failure)).2 } := by
  rw [openFile, Fault.orElse_eq_ok]
  refine and_congr_right fun _ => ?_
  cases t.openFile d name with
  | error f => simp [Except.map]
  | ok r' =>
    simp only [Except.map, Except.ok.injEq, exists_eq_left']
    exact eq_comm

/-- **What was read is read again**, with the same content. -/
theorem LeadsOut.openFile (hr : Retains P d d') : ∀ {t : Tree} {r : Reading}, t.LeadsOut name d P →
    t.openFile d name = .ok r → t.openFile d' name = .ok r
  | .onDisk dir, r, h, ho => by
    obtain ⟨⟨p, e⟩, hopened, hreading⟩ := except_bind_ok.mp ho
    obtain ⟨path, hpath, hopened⟩ := onPathOf_eq_ok.mp hopened
    obtain ⟨hfind, hread⟩ := openedAt_eq_ok.mp hopened
    have hfind' := hr.find (h path hpath) hfind
    exact except_bind_ok.mpr ⟨(p, e), onPathOf_eq_ok.mpr ⟨path, hpath, openedAt_eq_ok.mpr ⟨hfind', hread⟩⟩,
      hreading⟩
  | .inMemory _, _, _, ho => ho
  | .faulty faults t, r, h, ho => by
    obtain ⟨hcause, r', hr', rfl⟩ := openFile_faulty.mp ho
    exact openFile_faulty.mpr ⟨hcause, r', LeadsOut.openFile hr (t := t) h hr', rfl⟩

/-- What is read is not in `P`. -/
theorem LeadsOut.place : ∀ {t : Tree} {r : Reading}, t.LeadsOut name d P → t.openFile d name = .ok r →
    r.place = some p → ¬ P <+: p
  | .onDisk dir, r, h, ho, hp => by
    obtain ⟨⟨p', e⟩, hopened, hreading⟩ := except_bind_ok.mp ho
    obtain ⟨path, hpath, hopened⟩ := onPathOf_eq_ok.mp hopened
    have hloc := (find_eq_ok.mp (openedAt_eq_ok.mp hopened).1).1
    cases e with
    | file m c =>
      cases hreading
      cases hp
      exact h path hpath p (locate_eq_ok.mp hloc).2
    | dir m =>
      cases hreading
      cases hp
    | link target =>
      cases hreading
      cases hp
  | .inMemory m, r, _, ho, hp => by
    obtain ⟨e, -, hreading⟩ := except_bind_ok.mp ho
    cases hreading
    cases hp
  | .faulty faults t, r, h, ho, hp => by
    obtain ⟨-, r', hr', rfl⟩ := openFile_faulty.mp ho
    exact LeadsOut.place (t := t) h hr' hp

/-- What is known of an open file is what is known of its name. -/
theorem stat_of_openFile : ∀ {t : Tree} {r : Reading}, t.openFile d name = .ok r → r.info = .ok info →
    t.stat d name = .ok info
  | .onDisk dir, r, ho, hinfo => by
    obtain ⟨⟨p, e⟩, hopened, hreading⟩ := except_bind_ok.mp ho
    obtain ⟨path, hpath, hopened⟩ := onPathOf_eq_ok.mp hopened
    have hstatus : d.statusOf path = .ok e.info :=
      statusOf_eq_ok.mpr ⟨p, e, (openedAt_eq_ok.mp hopened).1, rfl⟩
    have he : e.info = info := by
      cases e <;> cases hreading <;> exact Except.ok.inj hinfo
    exact onPathOf_eq_ok.mpr ⟨path, hpath, he ▸ hstatus⟩
  | .inMemory m, r, ho, hinfo => by
    obtain ⟨e, hopened, hreading⟩ := except_bind_ok.mp ho
    cases hreading
    exact except_bind_ok.mpr ⟨e, hopened, hinfo⟩
  | .faulty faults t, r, ho, hinfo => by
    obtain ⟨-, r', hr', rfl⟩ := openFile_faulty.mp ho
    obtain ⟨hcause, hinfo⟩ := Fault.orElse_eq_ok.mp hinfo
    exact Fault.orElse_eq_ok.mpr ⟨hcause, stat_of_openFile (t := t) hr' hinfo⟩

/-- The tree and what is at `P` and below have nothing of each other in them, and no link of the tree ends
in `P`. -/
def Aloof (root : Bytes) (d : Disk) (P : Place) : Tree → Prop
  | .onDisk dir => ∀ path, pathOf dir root = .ok path → d.Aloof (d.goal path) P
  | .inMemory _ => True
  | .faulty _ t => t.Aloof root d P

theorem Apart.aloof : ∀ {t : Tree}, t.Apart root d P → t.Aloof root d P
  | .onDisk _, h => fun path hpath => (h path hpath).aloof
  | .inMemory _, _ => trivial
  | .faulty _ t, h => Apart.aloof (t := t) h

theorem Aloof.keeps (hk : Keeps d d') : ∀ {t : Tree}, t.Aloof root d P → t.Aloof root d' P
  | .onDisk _, h => fun path hpath => by
    rw [hk.goal_eq]
    exact (h path hpath).keeps hk
  | .inMemory _, _ => trivial
  | .faulty _ t, h => Aloof.keeps hk (t := t) h

theorem Aloof.leadsOut : ∀ {t : Tree}, t.Aloof root d P → t.LeadsOut root d P
  | .onDisk _, h => fun path hpath p hp => by
    have hgoal : d.goal path = p := by
      rw [goal, trail, ← Disk.start, hp.getLast?_trail]
      rfl
    exact hgoal ▸ (h path hpath).not_inside
  | .inMemory _, _ => trivial
  | .faulty _ t, h => Aloof.leadsOut (t := t) h

theorem Aloof.rootAt (h : (Tree.onDisk dir).Aloof root d P)
    (hstat : (Tree.onDisk dir).stat d root = .ok info) (hdir : info.isDir = true) :
    ∃ S, RootAt d dir root S ∧ d.Aloof S P := rootAt_of_goal h hstat hdir

section

variable {exclude : List Bytes} {dir' : Bytes} {ls : List Listed} {l : Listed} (hd : d.Sound)

include hd

/-- **What a walk comes to does not lead into `P`.** -/
theorem Aloof.item : ∀ {t : Tree} {info : Info}, t.Aloof root d P → t.stat d root = .ok info →
    info.isDir = true → Walk.Entered ⟨t, root, exclude⟩ d dir' → t.list d dir' = .ok ls → l ∈ ls →
    t.LeadsOut (Path.child dir' l.name) d P
  | .onDisk dir, info, hal, hstat, hdir, hin, hls, hl => by
    obtain ⟨S, hS, hal⟩ := hal.rootAt hstat hdir
    obtain ⟨q, hq, rfl, hpaved⟩ := hS.entered hd hin
    obtain ⟨-, p, -, -, -, -, rfl⟩ := list_onDisk.mp hls
    obtain ⟨⟨n, kind⟩, hmem, rfl⟩ := List.mem_map.mp hl
    have hn : Path.IsName n := hd.listing_isName hmem
    have hqn : ∀ m ∈ q ++ [n], Path.IsName m := Walk.forall_isName_append hq (by simpa using hn)
    intro path hpath r hr
    rw [← Path.nameAt_concat] at hpath
    obtain ⟨k, hk, hfol⟩ := hS.follow
    rw [← followWithin_eq_ok, hfol (by simp) hqn hpath (Keeps.refl d), followWithin_eq_ok] at hr
    exact hal.follows_outside hpaved hqn hk hr
  | .inMemory _, _, _, _, _, _, _, _ => trivial
  | .faulty _ t, _, hal, hstat, hdir, hin, hls, hl =>
    Aloof.item (t := t) hal (Fault.orElse_eq_ok.mp hstat).2 hdir (entered_of_faulty hin)
      (list_of_faulty hls) hl

/-- **Directories are listed as they were.** -/
theorem Aloof.list (hadv : Advances P d d') : ∀ {t : Tree} {info : Info}, t.Aloof root d P →
    t.stat d root = .ok info → info.isDir = true → Walk.Entered ⟨t, root, exclude⟩ d dir' →
    t.list d dir' = .ok ls → t.list d' dir' = .ok ls
  | .onDisk dir, info, hal, hstat, hdir, hin, hls => by
    obtain ⟨S, hS, hal⟩ := hal.rootAt hstat hdir
    obtain ⟨q, hq, rfl, hpaved⟩ := hS.entered hd hin
    obtain ⟨path, p, e, hpath, hfind, hread, rfl⟩ := list_onDisk.mp hls
    obtain rfl := hS.place hq hpaved hpath hfind
    have hinside : ∀ r, S <+: S ++ q ++ r := fun r => by
      rw [List.append_assoc]
      exact List.prefix_append S _
    have he : d'.get? (S ++ q) = some e :=
      hadv.held _ e (hal.outside (List.prefix_append S q)) (find_eq_ok.mp hfind).2.1
    -- The items are in the source, so they are neither in `P` nor around it, and there nothing has come.
    have hlisting : d'.listing (S ++ q) = d.listing (S ++ q) := by
      refine listing_congr fun n => hadv.aside _ (hal.outside (hinside [n])) fun hP => ?_
      exact hal.not_around ((hinside [n]).trans hP)
    exact list_onDisk.mpr ⟨path, S ++ q, e, hpath, find_keeps hadv.toKeeps hfind he, hread,
      by rw [hlisting]⟩
  | .inMemory _, _, _, _, _, _, hls => hls
  | .faulty faults t, _, hal, hstat, hdir, hin, hls => by
    obtain ⟨hopen, hls⟩ := Fault.orElse_eq_ok.mp hls
    obtain ⟨hlist, hls⟩ := Fault.orElse_eq_ok.mp hls
    have hsame := Aloof.list hadv (t := t) hal (Fault.orElse_eq_ok.mp hstat).2 hdir
      (entered_of_faulty hin) hls
    exact Fault.orElse_eq_ok.mpr ⟨hopen, Fault.orElse_eq_ok.mpr ⟨hlist, hsame⟩⟩

end

end Tree

/-! ## 4. Walks

The walk is made twice, on the two disks, and `Lasting` from `Hindsight` compares them.  The condition under
which a directory is listed alike has to last, too, and `Sighted` is that condition. -/

namespace Walk

open Disk

variable {w : Scope} {d d' : Disk} {P : Place} {dir : Bytes} {ls : List Listed} {l : Listed}

/-- A walk whose source does not lead into `P` lists the directory `dir`. -/
structure Sighted (w : Scope) (P : Place) (dir : Bytes) (d : Disk) : Prop where
  sound : d.Sound
  aloof : w.tree.Aloof w.root d P
  root : ∃ info, w.tree.stat d w.root = .ok info ∧ info.isDir = true
  entered : Entered w d dir

theorem Sighted.list (h : Sighted w P dir d) (hadv : Advances P d d') (hls : w.tree.list d dir = .ok ls) :
    w.tree.list d' dir = .ok ls := by
  obtain ⟨info, hstat, hinfo⟩ := h.root
  exact h.aloof.list h.sound hadv hstat hinfo h.entered hls

theorem Sighted.item (h : Sighted w P dir d) (hls : w.tree.list d dir = .ok ls) (hl : l ∈ ls) :
    w.tree.LeadsOut (Path.child dir l.name) d P := by
  obtain ⟨info, hstat, hinfo⟩ := h.root
  exact h.aloof.item h.sound hstat hinfo h.entered hls hl

theorem Sighted.enter (h : Sighted w P dir d) (hls : w.tree.list d dir = .ok ls) (hl : l ∈ ls)
    (hk : l.kind = .dir) : Sighted w P (Path.child dir l.name) d :=
  ⟨h.sound, h.aloof, h.root, .item h.entered hls hl hk⟩

/-- **What is listed will be listed.** -/
theorem Sighted.stays (h : Sighted w P dir d) (hadv : Advances P d d') (hd' : d'.Sound) :
    Sighted w P dir d' := by
  obtain ⟨info, hstat, hinfo⟩ := h.root
  refine ⟨hd', h.aloof.keeps hadv.toKeeps, ⟨info, h.aloof.leadsOut.stat hadv.toRetains hstat, hinfo⟩, ?_⟩
  have hentered := h.entered
  -- By induction on how the directory came to be listed: those above it are listed as before.
  induction hentered with
  | root => exact .root
  | item hin hls hl hk ih =>
    have hsight : Sighted w P _ d := ⟨h.sound, h.aloof, h.root, hin⟩
    exact .item (ih hsight) (hsight.list hadv hls) hl hk

/-- What is collected along the way is the list of visits. -/
theorem Makes.collected {xs seen seen' : List Visit}
    (h : Makes (fun s x s' => s' = s ++ [x]) xs seen seen') : seen' = seen ++ xs := by
  induction h with
  | nil s => exact (List.append_nil s).symm
  | cons hx _ ih => rw [ih, hx, List.append_assoc, List.singleton_append]

/-- **A walk that succeeded comes to the same on a disk that has advanced.** -/
theorem visits_advances (hd : d.Sound) (hd' : d'.Sound) (hal : w.tree.Aloof w.root d P)
    (hadv : Advances P d d') (h : (visits w d).2 = none) : visits w d' = visits w d := by
  let later : Disk → Disk → Prop := fun a b => Advances P a b ∧ (a.Sound → b.Sound)
  have hlasting : Lasting w (observer d fun x seen => seen ++ [x]) later (Sighted w P)
      fun s x s' => s' = s ++ [x] := by
    refine ⟨fun a => ⟨Advances.refl P a, fun ha => ha⟩,
      fun hab hbc => ⟨hab.1.trans hbc.1, fun ha => hbc.2 (hab.2 ha)⟩,
      fun hs hl => hs.stays hl.1 (hl.2 hs.sound), fun hs hl => hs.list hl.1,
      fun hs hl hls hmem hstat => (hs.item hls hmem).stat hl.1.toRetains hstat,
      fun {dir s s' ls l isDir} hs hls hl hkind hvisit => ?_⟩
    cases hvisit
    exact ⟨⟨Advances.refl P d, fun ha => ha⟩, rfl, fun hdir => hs.enter hls hl (hkind.mp hdir)⟩
  have hrun : run w (observer d fun x seen => seen ++ [x]) [] = ((visits w d).1, none) :=
    Prod.ext rfl h
  have hrec := run_recalls hlasting (fun hstat a ha => hal.leadsOut.stat ha.1.toRetains hstat)
    (fun hstat hinfo => ⟨hd, hal, ⟨_, hstat, hinfo⟩, .root⟩) hrun
  obtain ⟨hnone, hmakes⟩ := hrec.2 d' ⟨hadv, fun _ => hd'⟩
  rw [visits_eq_trace w d']
  exact Prod.ext hmakes.collected.symm (hnone.trans h.symm)

end Walk

end AgentKit
