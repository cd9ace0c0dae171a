import AgentKit.Proofs.Copying
import AgentKit.Proofs.Reaching
import AgentKit.Tree.Compare
/-!
# What a comparison reports

A comparison reads every file of the source and the file of the same name in the destination, and then looks
for files that only the destination has.  Each file of the source has one of four findings, so that the parts
of the report and the failures divide the files among them.

1. What the findings mean (`Found`).
2. The report in closed form (`run_eq`).
3. **The parts of a report** (`Sorts`, `Ordered`): which files they hold, and in which order.
4. **A clean report.**  Files of the source are read below the clean form of the destination's path, while
   the search for others takes the path as it is.  If the two lead to the same directory
   (`Unambiguous`), a clean report says that source and destination have the same files; if they do not, it
   says less (`clean_iff`).
5. **What cannot be read.**  A file that cannot be read has a failure and nothing else changes.  A directory
   that cannot be listed, or a link that leads nowhere, ends the walk: in the source there is no report then,
   and in the destination the report lacks what would have come later (`run_reports`).

A comparison changes nothing, so the walks see one disk throughout and their visits can be taken as lists from the
start.  What the program does with a state that it hands from visit to visit becomes a few filters over the list of
files (`after`).  Everything about the parts of the report is then about these filters: that they are disjoint, that
their lengths add up, and which files are in them.

A report is a pair of a drift and a failure, and both can be there.  A file that could not be compared is in none of the
parts, so a report may be clean and have failed at the same time; the theorems say what it means in either case.
-/

namespace AgentKit.Compare

open Disk

variable {w : Walk.Scope} {dest : Bytes} {d : Disk} {patch : Bool} {x y : Visit} {drift : Drift}
  {exclude : List Bytes} {xs : List Visit} {s : State}

/-! ## 1. Findings

The relation is the specification of the four branches, with a fifth for the file in the destination that is
there but cannot be read. -/

/-- What reading a file in the source and in the destination comes to. -/
inductive Found (w : Walk.Scope) (dest : Bytes) (d : Disk) (x : Visit) : Finding → Prop
  | missing {kit : Bytes} {f : Failure} : w.tree.read d x.name = .ok kit →
      d.read (Path.below dest x.rel) = .error f → f.isAbsence = true → Found w dest d x .missing
  | unchanged {kit : Bytes} : w.tree.read d x.name = .ok kit →
      d.read (Path.below dest x.rel) = .ok kit → Found w dest d x .unchanged
  | modified {kit installed : Bytes} : w.tree.read d x.name = .ok kit →
      d.read (Path.below dest x.rel) = .ok installed → kit ≠ installed →
      Found w dest d x (.modified installed kit)
  | noSource {f : Failure} : w.tree.read d x.name = .error f →
      Found w dest d x (.failed (.during ("failed to read source " ++ x.rel) f))
  | noInstalled {kit : Bytes} {f : Failure} : w.tree.read d x.name = .ok kit →
      d.read (Path.below dest x.rel) = .error f → f.isAbsence = false →
      Found w dest d x (.failed (.during ("failed to read installed " ++ x.rel) f))

/-- **Every file has one finding.** -/
theorem finding_eq_iff {r : Finding} : finding w.tree d dest x = r ↔ Found w dest d x r := by
  constructor
  · rintro rfl
    unfold finding
    cases hkit : w.tree.read d x.name with
    | error f => exact .noSource hkit
    | ok kit =>
      dsimp only
      cases hinst : d.read (Path.below dest x.rel) with
      | error f =>
        dsimp only
        by_cases habs : f.isAbsence = true
        · rw [if_pos habs]
          exact .missing hkit hinst habs
        · rw [if_neg habs]
          exact .noInstalled hkit hinst (by simpa using habs)
      | ok installed =>
        dsimp only
        by_cases heq : kit = installed
        · rw [if_pos heq]
          exact .unchanged hkit (heq ▸ hinst)
        · rw [if_neg heq]
          exact .modified hkit hinst heq
  · intro h
    unfold finding
    cases h with
    | missing hkit hinst habs => simp [hkit, hinst, habs]
    | unchanged hkit hinst => simp [hkit, hinst]
    | modified hkit hinst hne => simp [hkit, hinst, hne]
    | noSource hkit => simp [hkit]
    | noInstalled hkit hinst habs => simp [hkit, hinst, habs]

/-- A file has one finding, since it is computed. -/
theorem Found.eq {r r' : Finding} (h : Found w dest d x r) (h' : Found w dest d x r') : r = r' :=
  (finding_eq_iff.mpr h).symm.trans (finding_eq_iff.mpr h')

/-! ## 2. The report in closed form

Each visit to a file puts one entry into one of the lists.  So after all of them each list is a filter of the
files, in the order in which they were visited. -/

def Finding.isMissing : Finding → Bool
  | .missing => true
  | .unchanged | .modified .. | .failed _ => false

def Finding.isUnchanged : Finding → Bool
  | .unchanged => true
  | .missing | .modified .. | .failed _ => false

/-- What a finding adds to the modified files. -/
def Finding.change? (rel : Bytes) (patch : Bool) : Finding → Option Modified
  | .modified installed kit => some ⟨rel, if patch then patchOf rel installed kit else []⟩
  | .missing | .unchanged | .failed _ => none

def Finding.failure? : Finding → Option Failure
  | .failed f => some f
  | .missing | .unchanged | .modified .. => none

/-- The files among visits. -/
def filesOf (xs : List Visit) : List Visit := xs.filter (!·.isDir)

/-- The files that a walk visits. -/
def files (w : Walk.Scope) (d : Disk) : List Visit := filesOf (Walk.visits w d).1

/-- The state after `s` when the files `fs` have been compared. -/
def after (t : Tree) (d : Disk) (dest : Bytes) (patch : Bool) (fs : List Visit) (s : State) : State :=
  { drift :=
      { missing := s.drift.missing ++ (fs.filter fun x => (finding t d dest x).isMissing).map (·.rel)
        modified := s.drift.modified ++
          fs.filterMap fun x => (finding t d dest x).change? x.rel patch
        extra := s.drift.extra
        unchanged := s.drift.unchanged + (fs.filter fun x => (finding t d dest x).isUnchanged).length }
    seen := s.seen ++ fs.map (·.rel)
    failures := s.failures ++ fs.filterMap fun x => (finding t d dest x).failure? }

/-- **One visit after the other, in closed form.** -/
theorem foldl_see (t : Tree) (d : Disk) (dest : Bytes) (patch : Bool) : ∀ (xs : List Visit) (s : State),
    xs.foldl (fun s x => see t d dest patch x s) s = after t d dest patch (filesOf xs) s
  | [], s => by simp [after, filesOf]
  | x :: xs, s => by
    rw [List.foldl_cons, foldl_see t d dest patch xs, see]
    cases hdir : x.isDir with
    | true => simp [filesOf, hdir]
    | false =>
      have hcons : filesOf (x :: xs) = x :: filesOf xs := by simp [filesOf, hdir]
      rw [hcons]
      simp only [Bool.false_eq_true, if_false]
      cases hf : finding t d dest x <;>
        simp [after, enter, hf, Finding.isMissing, Finding.isUnchanged, Finding.change?,
          Finding.failure?, Nat.add_assoc, Nat.add_comm]

/-- The files that a walk through the destination visits; there are none if it is no directory. -/
def installed (exclude : List Bytes) (dest : Bytes) (d : Disk) : List Visit :=
  if d.isDirectory dest then files ⟨.onDisk dest, ".", exclude⟩ d else []

/-- The failure at which the walk through the destination ends. -/
def searchFailure? (exclude : List Bytes) (dest : Bytes) (d : Disk) : Option Failure :=
  if d.isDirectory dest then (Walk.visits ⟨.onDisk dest, ".", exclude⟩ d).2 else none

/-- The search for other files, in closed form.  What has been seen in the source does not change while it goes
on. -/
theorem foldl_seeInstalled : ∀ (xs : List Visit) (s : State),
    xs.foldl (fun s x => seeInstalled x s) s =
      { s with drift.extra := s.drift.extra ++
        ((filesOf xs).filter fun x => !s.seen.contains x.rel).map (·.rel) }
  | [], s => by simp [filesOf]
  | x :: xs, s => by
    rw [List.foldl_cons, foldl_seeInstalled xs, seeInstalled]
    cases hdir : x.isDir with
    | true => simp [filesOf, hdir]
    | false =>
      cases hseen : s.seen.contains x.rel with
      | true => simp [filesOf, hdir, List.contains_iff_mem.mp hseen]
      | false =>
        have hnot : x.rel ∉ s.seen := by simpa using hseen
        simp [filesOf, hdir, hnot]

theorem lookForExtra_eq (exclude : List Bytes) (dest : Bytes) (d : Disk) (s : State) :
    lookForExtra exclude dest d s =
      { s with
        drift.extra := s.drift.extra ++
          ((installed exclude dest d).filter fun x => !s.seen.contains x.rel).map (·.rel)
        failures := s.failures ++ (searchFailure? exclude dest d).toList } := by
  unfold lookForExtra installed searchFailure?
  cases hdir : d.isDirectory dest with
  | false => simp
  | true =>
    simp only [Bool.not_true, Bool.false_eq_true, if_false, if_true]
    rw [Walk.run_observer, foldl_seeInstalled, files, Walk.visits_eq_trace]
    cases (Walk.trace ⟨.onDisk dest, ".", exclude⟩ d).2 <;> simp

/-- All that a comparison gathers. -/
def gathered (w : Walk.Scope) (dest : Bytes) (patch : Bool) (d : Disk) : State :=
  lookForExtra w.exclude dest d (after w.tree d dest patch (files w d) {})

/-- **The report in closed form.** -/
theorem run_eq (hp : Walk.checkPatterns w.exclude = .ok ()) (hok : (Walk.visits w d).2 = none) :
    run w dest patch d =
      { drift := some (inOrder (gathered w dest patch d).drift)
        failure := if (gathered w dest patch d).failures.isEmpty then none
          else some (.several (gathered w dest patch d).failures)
        log := [note dest (inOrder (gathered w dest patch d).drift)] } := by
  rw [Walk.visits_eq_trace] at hok
  unfold run gathered files
  rw [hp, Walk.run_observer, hok, Walk.visits_eq_trace, foldl_see]

/-- **When there is a report.** -/
theorem run_drift : (run w dest patch d).drift = some drift ↔
    Walk.checkPatterns w.exclude = .ok () ∧ (Walk.visits w d).2 = none ∧
      drift = inOrder (gathered w dest patch d).drift := by
  constructor
  · intro h
    have hp : Walk.checkPatterns w.exclude = .ok () := by
      cases hp : Walk.checkPatterns w.exclude with
      | ok u => rfl
      | error f =>
        unfold run at h
        rw [hp] at h
        cases h
    -- A walk through the source that fails gives no report at all.
    have hok : (Walk.visits w d).2 = none := by
      cases hok : (Walk.visits w d).2 with
      | none => rfl
      | some f =>
        rw [Walk.visits_eq_trace] at hok
        unfold run at h
        rw [hp, Walk.run_observer, hok] at h
        cases h
    rw [run_eq hp hok] at h
    exact ⟨hp, hok, (Option.some.inj h).symm⟩
  · rintro ⟨hp, hok, rfl⟩
    rw [run_eq hp hok]

/-- Where nothing failed there is a report. -/
theorem exists_drift (h : (run w dest patch d).failure = none) :
    ∃ drift, (run w dest patch d).drift = some drift := by
  unfold run at h ⊢
  cases hp : Walk.checkPatterns w.exclude with
  | error f =>
    rw [hp] at h
    cases h
  | ok u =>
    rw [hp] at h
    dsimp only at h ⊢
    cases hrun : Walk.run w (Walk.observer d (see w.tree d dest patch)) {} with
    | mk s f =>
      rw [hrun] at h
      cases f with
      | some f => cases h
      | none => exact ⟨_, rfl⟩

/-! ## 3. The parts of a report

What the lists hold and that they are in order.  The program sorts them by name at the end, and the names are
different since the visits are. -/

theorem Finding.isMissing_iff {r : Finding} : r.isMissing = true ↔ r = .missing := by
  cases r <;> simp [Finding.isMissing]

theorem Finding.isUnchanged_iff {r : Finding} : r.isUnchanged = true ↔ r = .unchanged := by
  cases r <;> simp [Finding.isUnchanged]

theorem Finding.failure?_eq_some {r : Finding} {f : Failure} : r.failure? = some f ↔ r = .failed f := by
  cases r <;> simp [Finding.failure?]

theorem Finding.change?_isSome {r : Finding} {rel : Bytes} :
    (r.change? rel patch).isSome = true ↔ ∃ installed kit, r = .modified installed kit := by
  cases r <;> simp [Finding.change?]

/-- A modified file is entered under its own name. -/
theorem Finding.change?_path {r : Finding} {rel : Bytes} {m : Modified}
    (h : r.change? rel patch = some m) : m.path = rel := by
  cases r with
  | modified installed kit =>
    cases h
    rfl
  | missing => cases h
  | unchanged => cases h
  | failed f => cases h

instance : Decidable (Found w dest d x .unchanged) :=
  decidable_of_iff _ (Finding.isUnchanged_iff.trans finding_eq_iff)

/-- A file has a failure or it does not. -/
theorem failure?_isSome : (finding w.tree d dest x).failure?.isSome = true ↔
    ∃ f, Found w dest d x (.failed f) := by
  simp only [Option.isSome_iff_exists, Finding.failure?_eq_some, finding_eq_iff]

instance : Decidable (∃ f, Found w dest d x (.failed f)) := decidable_of_iff _ failure?_isSome

/-- The parts of a drift hold the files with the findings they stand for, and each file that could not be
compared has one of the failures. -/
structure Sorts (w : Walk.Scope) (dest : Bytes) (d : Disk) (drift : Drift) (failures : List Failure) :
    Prop where
  missing : ∀ rel, rel ∈ drift.missing ↔ ∃ x ∈ files w d, x.rel = rel ∧ Found w dest d x .missing
  modified : ∀ rel, rel ∈ drift.modified.map (·.path) ↔
    ∃ x ∈ files w d, x.rel = rel ∧ ∃ installed kit, Found w dest d x (.modified installed kit)
  unchanged : drift.unchanged = ((files w d).filter fun x => Found w dest d x .unchanged).length
  failures : List.Forall₂ (fun x f => Found w dest d x (.failed f))
    ((files w d).filter fun x => ∃ f, Found w dest d x (.failed f)) failures

/-- The parts of a drift are in ascending order and have nothing in common. -/
structure Ordered (drift : Drift) : Prop where
  missing : drift.missing.Pairwise (· < ·)
  modified : (drift.modified.map (·.path)).Pairwise (· < ·)
  extra : drift.extra.Pairwise (· < ·)
  missing_modified : ∀ rel ∈ drift.missing, rel ∉ drift.modified.map (·.path)
  missing_extra : ∀ rel ∈ drift.missing, rel ∉ drift.extra
  modified_extra : ∀ rel ∈ drift.modified.map (·.path), rel ∉ drift.extra

/-- The failures of single files. -/
def fileFailures (w : Walk.Scope) (dest : Bytes) (d : Disk) : List Failure :=
  (files w d).filterMap fun x => (finding w.tree d dest x).failure?

theorem gathered_failures : (gathered w dest patch d).failures =
    fileFailures w dest d ++ (searchFailure? w.exclude dest d).toList := by
  rw [gathered, lookForExtra_eq]
  rfl

theorem forall₂_filterMap {α β : Type} (f : α → Option β) : ∀ l : List α,
    List.Forall₂ (fun a b => f a = some b) (l.filter fun a => (f a).isSome) (l.filterMap f)
  | [] => .nil
  | a :: l => by
    cases h : f a with
    | none =>
      rw [List.filter_cons_of_neg (by simp [h]), List.filterMap_cons_none h]
      exact forall₂_filterMap f l
    | some b =>
      rw [List.filter_cons_of_pos (by simp [h]), List.filterMap_cons_some h]
      exact .cons h (forall₂_filterMap f l)

theorem gathered_missing {rel : Bytes} : rel ∈ (gathered w dest patch d).drift.missing ↔
    ∃ x ∈ files w d, x.rel = rel ∧ Found w dest d x .missing := by
  rw [gathered, lookForExtra_eq]
  simp only [after, List.nil_append, List.mem_map, List.mem_filter, Finding.isMissing_iff,
    finding_eq_iff]
  constructor
  · rintro ⟨x, ⟨hx, hf⟩, rfl⟩
    exact ⟨x, hx, rfl, hf⟩
  · rintro ⟨x, hx, rfl, hf⟩
    exact ⟨x, ⟨hx, hf⟩, rfl⟩

/-- Which files are modified. -/
theorem gathered_modified {rel : Bytes} : rel ∈ (gathered w dest patch d).drift.modified.map (·.path) ↔
    ∃ x ∈ files w d, x.rel = rel ∧ ∃ installed kit, Found w dest d x (.modified installed kit) := by
  rw [gathered, lookForExtra_eq]
  simp only [after, List.nil_append, List.mem_map, List.mem_filterMap]
  constructor
  · rintro ⟨m, ⟨x, hx, hm⟩, rfl⟩
    obtain ⟨installed, kit, hf⟩ := Finding.change?_isSome.mp (Option.isSome_of_eq_some hm)
    exact ⟨x, hx, (Finding.change?_path hm).symm, installed, kit, finding_eq_iff.mp hf⟩
  · rintro ⟨x, hx, rfl, installed, kit, hf⟩
    obtain ⟨m, hm⟩ := Option.isSome_iff_exists.mp
      (Finding.change?_isSome.mpr ⟨installed, kit, finding_eq_iff.mpr hf⟩)
    exact ⟨m, ⟨x, hx, hm⟩, Finding.change?_path hm⟩

/-- Which files only the destination has: the search has seen them there, and the walk through the source has
not. -/
theorem gathered_extra {rel : Bytes} : rel ∈ (gathered w dest patch d).drift.extra ↔
    (∃ x ∈ installed w.exclude dest d, x.rel = rel) ∧ ∀ x ∈ files w d, x.rel ≠ rel := by
  rw [gathered, lookForExtra_eq]
  simp only [after, List.nil_append, List.mem_map, List.mem_filter, List.contains_eq_mem,
    Bool.not_eq_true', decide_eq_false_iff_not, not_exists, not_and]
  constructor
  · rintro ⟨x, ⟨hx, hnot⟩, rfl⟩
    exact ⟨⟨x, hx, rfl⟩, hnot⟩
  · rintro ⟨⟨x, hx, rfl⟩, hnot⟩
    exact ⟨x, ⟨hx, hnot⟩, rfl⟩

/-- **The parts of a report hold what they stand for.** -/
theorem gathered_sorts (w : Walk.Scope) (dest : Bytes) (patch : Bool) (d : Disk) :
    Sorts w dest d (inOrder (gathered w dest patch d).drift) (fileFailures w dest d) := by
  refine ⟨fun rel => ?_, fun rel => ?_, ?_, ?_⟩
  · rw [inOrder, Bytes.mem_sort, gathered_missing]
  · have hsame : rel ∈ (inOrder (gathered w dest patch d).drift).modified.map (·.path) ↔
        rel ∈ (gathered w dest patch d).drift.modified.map (·.path) := by
      simp only [inOrder, List.mem_map, mem_sortBy]
    exact hsame.trans gathered_modified
  · rw [gathered, lookForExtra_eq, inOrder, after]
    dsimp only
    rw [Nat.zero_add]
    congr 1
    refine List.filter_congr fun x _ => ?_
    rw [Bool.eq_iff_iff, Finding.isUnchanged_iff, finding_eq_iff, decide_eq_true_eq]
  · have hall := forall₂_filterMap (fun x => (finding w.tree d dest x).failure?) (files w d)
    have hfilter : ((files w d).filter fun x => ∃ f, Found w dest d x (.failed f)) =
        (files w d).filter fun x => (finding w.tree d dest x).failure?.isSome := by
      refine List.filter_congr fun x _ => ?_
      rw [Bool.eq_iff_iff, failure?_isSome, decide_eq_true_eq]
    rw [hfilter]
    exact hall.imp fun x f h => finding_eq_iff.mp (Finding.failure?_eq_some.mp h)

theorem length_parts (w : Walk.Scope) (dest : Bytes) (patch : Bool) (d : Disk) : ∀ fs : List Visit,
    (fs.filter fun x => (finding w.tree d dest x).isMissing).length +
        (fs.filterMap fun x => (finding w.tree d dest x).change? x.rel patch).length +
        (fs.filter fun x => (finding w.tree d dest x).isUnchanged).length +
        (fs.filterMap fun x => (finding w.tree d dest x).failure?).length = fs.length
  | [] => rfl
  | x :: fs => by
    have ih := length_parts w dest patch d fs
    simp only [List.filter_cons, List.filterMap_cons, List.length_cons]
    -- What the lists are does not matter here, only that one of them grows by one.
    generalize fs.filter (fun x => (finding w.tree d dest x).isMissing) = missing at ih ⊢
    generalize fs.filterMap (fun x => (finding w.tree d dest x).change? x.rel patch) = modified at ih ⊢
    generalize fs.filter (fun x => (finding w.tree d dest x).isUnchanged) = unchanged at ih ⊢
    generalize fs.filterMap (fun x => (finding w.tree d dest x).failure?) = failed at ih ⊢
    cases finding w.tree d dest x <;>
      simp only [Finding.isMissing, Finding.isUnchanged, Finding.change?, Finding.failure?, if_true,
        if_false, Bool.false_eq_true, List.length_cons] <;>
      omega

theorem foldl_count : ∀ (xs : List Visit) (n : Nat),
    xs.foldl (fun n x => Count.see x n) n = n + (filesOf xs).length
  | [], n => rfl
  | x :: xs, n => by
    rw [List.foldl_cons, foldl_count xs, Count.see]
    cases hdir : x.isDir with
    | true => simp [filesOf, hdir]
    | false =>
      simp only [filesOf, List.filter_cons, hdir, Bool.not_false, if_true, if_false,
        Bool.false_eq_true, List.length_cons]
      omega

/-- The number of files is what the program counts before a copy. -/
theorem count_files (hp : Walk.checkPatterns w.exclude = .ok ()) :
    (Count.files w d).1 = (files w d).length := by
  unfold Count.files
  rw [hp, Walk.run_observer, foldl_count, files, Walk.visits_eq_trace, Nat.zero_add]

/-- **The parts and the failures divide the files among them.** -/
theorem gathered_total (hp : Walk.checkPatterns w.exclude = .ok ()) :
    (inOrder (gathered w dest patch d).drift).missing.length +
        (inOrder (gathered w dest patch d).drift).modified.length +
        (inOrder (gathered w dest patch d).drift).unchanged + (fileFailures w dest d).length =
      (Count.files w d).1 := by
  rw [count_files hp, ← length_parts w dest patch d (files w d), gathered, lookForExtra_eq, inOrder,
    fileFailures, after]
  simp

/-- Different files have different names. -/
theorem files_nodup (hd : d.Sound) (ht : w.tree.Proper) : ((files w d).map (·.rel)).Nodup := by
  have hshaped : Walk.Shaped w [] (fun _ => True) (Walk.trace w d).1 :=
    Walk.trace_shaped fun _ _ => Tree.list_tidy hd ht
  rw [files, Walk.visits_eq_trace]
  refine List.pairwise_map.mpr ((hshaped.sorted.filter _).imp fun {x y} hlt heq => ?_)
  rw [Visit.path, heq, ← Visit.path] at hlt
  exact List.lt_irrefl y.path hlt

theorem nodup_map_of_sublist {fs gs : List Visit} (h : (gs.map (·.rel)).Nodup) (hs : fs.Sublist gs) :
    (fs.map (·.rel)).Nodup := (hs.map _).nodup h

theorem installed_nodup (hd : d.Sound) (exclude : List Bytes) (dest : Bytes) :
    ((installed exclude dest d).map (·.rel)).Nodup := by
  unfold installed
  split
  · exact files_nodup hd trivial
  · exact List.nodup_nil

/-- The names of modified files, as a filter. -/
theorem map_path_filterMap (t : Tree) (d : Disk) (dest : Bytes) (patch : Bool) : ∀ fs : List Visit,
    (fs.filterMap fun x => (finding t d dest x).change? x.rel patch).map (·.path) =
      (fs.filter fun x => ((finding t d dest x).change? x.rel patch).isSome).map (·.rel)
  | [] => rfl
  | x :: fs => by
    have ih := map_path_filterMap t d dest patch fs
    rw [List.filterMap_cons, List.filter_cons]
    cases h : (finding t d dest x).change? x.rel patch with
    | none => exact ih
    | some m =>
      simp only [Option.isSome_some, if_true, List.map_cons]
      rw [ih, Finding.change?_path h]

theorem gathered_extra_nodup (hd : d.Sound) (w : Walk.Scope) (dest : Bytes) (patch : Bool) :
    (gathered w dest patch d).drift.extra.Nodup := by
  rw [gathered, lookForExtra_eq, after]
  exact nodup_map_of_sublist (installed_nodup hd w.exclude dest) List.filter_sublist

/-- **The parts of a report are in ascending order and have nothing in common.** -/
theorem gathered_ordered (hd : d.Sound) (ht : w.tree.Proper) (dest : Bytes) (patch : Bool) :
    Ordered (inOrder (gathered w dest patch d).drift) := by
  have hfiles := files_nodup hd ht
  have hsorts := gathered_sorts w dest patch d
  -- Where the destination has a file that the source does not, the name is not that of a file of the source.
  have hextra : ∀ rel, rel ∈ (inOrder (gathered w dest patch d).drift).extra →
      ∀ x ∈ files w d, x.rel ≠ rel := by
    intro rel hrel
    rw [inOrder, Bytes.mem_sort, gathered_extra] at hrel
    exact hrel.2
  refine ⟨?_, ?_, ?_, fun rel hmis hmod => ?_, fun rel hmis hext => ?_, fun rel hmod hext => ?_⟩
  · rw [gathered, lookForExtra_eq, inOrder, after]
    exact Bytes.sort_pairwise_lt (nodup_map_of_sublist hfiles List.filter_sublist)
  · rw [inOrder]
    dsimp only
    rw [map_sortBy, gathered, lookForExtra_eq, after]
    dsimp only
    rw [List.nil_append, map_path_filterMap]
    exact Bytes.sort_pairwise_lt (nodup_map_of_sublist hfiles List.filter_sublist)
  · exact Bytes.sort_pairwise_lt (gathered_extra_nodup hd w dest patch)
  · obtain ⟨x, hx, rfl, hf⟩ := (hsorts.missing rel).mp hmis
    obtain ⟨y, hy, heq, installed, kit, hf'⟩ := (hsorts.modified _).mp hmod
    cases List.inj_on_of_nodup_map hfiles hy hx heq
    exact absurd (hf.eq hf') (by simp)
  · obtain ⟨x, hx, rfl, -⟩ := (hsorts.missing rel).mp hmis
    exact hextra _ hext x hx rfl
  · obtain ⟨x, hx, rfl, -⟩ := (hsorts.modified rel).mp hmod
    exact hextra _ hext x hx rfl

/-! ## 4. A clean report

The difficulty is the other direction of the search: is a file that was read in the destination also visited
there?  It is if the walk goes through the same directory that the file was read from, and meets no link on the
way; a link to a directory it would not enter. -/

/-- The path and its clean form lead to the same directory, or neither leads to one.  So it is for clean
paths, and for others unless they are empty, too long, or go up again from a link. -/
def Unambiguous (dest : Bytes) (d : Disk) : Prop :=
  ∀ P m, d.find true dest = .ok (P, .dir m) ↔ d.find true (Path.clean dest) = .ok (P, .dir m)

theorem unambiguous_of_clean (h : Path.clean dest = dest) : Unambiguous dest d := by
  intro P m
  rw [h]

/-- There is no link below the directory that the path leads to. -/
def NoLinkBelow (dest : Bytes) (d : Disk) : Prop :=
  ∀ P m, d.find true dest = .ok (P, .dir m) → NoLinkIn P d

/-- The files that a walk visits, by what stands in the tree. -/
theorem mem_files_iff (hd : d.Sound) (ht : w.tree.Proper) : x ∈ files w d ↔
    ∃ q, q ≠ [] ∧ Walk.Shown w d q false ∧ x = w.visitAt q false ∧
      ∀ b, Walk.Blocked w d b → ¬ b < q := by
  rw [files, filesOf, List.mem_filter, Walk.visits_eq_trace, Walk.mem_trace_iff (Walk.orderly hd ht)]
  constructor
  · rintro ⟨⟨q, isDir, hne, hs, rfl, hbefore⟩, hfile⟩
    have hisDir : isDir = false := by simpa [Walk.Scope.visitAt] using hfile
    subst hisDir
    exact ⟨q, hne, hs, rfl, hbefore⟩
  · rintro ⟨q, hne, hs, rfl, hbefore⟩
    exact ⟨⟨q, false, hne, hs, rfl, hbefore⟩, rfl⟩

/-- What is in the destination, where there are no links and all of it can be read. -/
theorem installed_iff {P : Place} {m : Nat} {rel : Bytes} (hd : d.Sound)
    (hfind : d.find true dest = .ok (P, .dir m)) (hno : NoLinkIn P d)
    (hs : searchFailure? exclude dest d = none) :
    (∃ x ∈ installed exclude dest d, x.rel = rel) ↔
      ∃ q, q ≠ [] ∧ rel = Path.join q ∧ Walk.Kept exclude q ∧
        ∃ m c, d.get? (P ++ q) = some (.file m c) := by
  have hdir : d.isDirectory dest = true := isDirectory_iff.mpr ⟨P, m, hfind⟩
  rw [searchFailure?, if_pos hdir, Walk.visits_eq_trace] at hs
  obtain ⟨info, hstat⟩ := Walk.root_of_trace_ok hs
  have hroot := Walk.rootAt_dot hstat hfind
  rw [← Walk.mem_files_onDisk hd hroot hno hs, installed, if_pos hdir, files, filesOf,
    Walk.visits_eq_trace]
  constructor
  · rintro ⟨x, hx, rfl⟩
    obtain ⟨hx, hfile⟩ := List.mem_filter.mp hx
    exact ⟨x, hx, by simpa using hfile, rfl⟩
  · rintro ⟨x, hx, hfile, rfl⟩
    exact ⟨x, List.mem_filter.mpr ⟨hx, by simp [hfile]⟩, rfl⟩

/-- A file that is read in the destination is found there by the walk. -/
theorem installed_of_read {c : Bytes} (hd : d.Sound) (ht : w.tree.Proper) (hun : Unambiguous dest d)
    (hno : NoLinkBelow dest d) (hs : searchFailure? w.exclude dest d = none) (hx : x ∈ files w d)
    (hread : d.read (Path.below dest x.rel) = .ok c) :
    ∃ y ∈ installed w.exclude dest d, y.rel = x.rel := by
  obtain ⟨q, hne, hshown, rfl, -⟩ := (mem_files_iff hd ht).mp hx
  obtain ⟨k, hreach⟩ := hshown.reached
  have hnames := hreach.names (Walk.orderly hd ht).tidy
  obtain ⟨r, m, hfile, -⟩ := read_eq_ok.mp hread
  obtain ⟨P, m', hclean⟩ := find_clean_of_below hne hnames hfile
  have hfind := (hun P m').mpr hclean
  have hhome : Home dest P d := home_of_find hclean (hno P m' hfind)
  obtain ⟨-, -, -, hget⟩ := (hhome.find hne hnames).mp hfile
  exact (installed_iff hd hfind (hno P m' hfind) hs).mpr ⟨q, hne, rfl, hreach.kept, m, c, hget⟩

/-- Nothing failed if every file could be compared and the search came to its end. -/
theorem failure_eq_none (hp : Walk.checkPatterns w.exclude = .ok ()) (hok : (Walk.visits w d).2 = none) :
    (run w dest patch d).failure = none ↔
      fileFailures w dest d = [] ∧ searchFailure? w.exclude dest d = none := by
  rw [run_eq hp hok, gathered_failures]
  dsimp only
  cases hf : fileFailures w dest d <;> cases hs : searchFailure? w.exclude dest d <;> simp

/-- **A clean report says that no difference was seen**: what could be read on both sides is the same, and
the walk through the destination visited no other files. -/
theorem clean_iff_compared : (inOrder (gathered w dest patch d).drift).clean = true ↔
    (∀ x ∈ files w d, Found w dest d x .unchanged ∨ ∃ f, Found w dest d x (.failed f)) ∧
      ∀ x ∈ installed w.exclude dest d, ∃ y ∈ files w d, y.rel = x.rel := by
  have hsorts := gathered_sorts w dest patch d
  have hclean : ∀ e : Drift, e.clean = true ↔ e.missing = [] ∧ e.modified = [] ∧ e.extra = [] := by
    intro e
    simp only [Drift.clean, Bool.and_eq_true, List.isEmpty_iff, and_assoc]
  have hextra : ∀ rel, rel ∈ (inOrder (gathered w dest patch d).drift).extra ↔
      (∃ x ∈ installed w.exclude dest d, x.rel = rel) ∧ ∀ x ∈ files w d, x.rel ≠ rel := by
    intro rel
    rw [inOrder, Bytes.mem_sort, gathered_extra]
  rw [hclean]
  constructor
  · -- Nothing is entered, so no file has a finding that would have been.
    rintro ⟨hmis, hmod, hext⟩
    refine ⟨fun x hx => ?_, fun x hx => ?_⟩
    · cases hr : finding w.tree d dest x with
      | unchanged => exact Or.inl (finding_eq_iff.mp hr)
      | missing =>
        have hmem := (hsorts.missing x.rel).mpr ⟨x, hx, rfl, finding_eq_iff.mp hr⟩
        rw [hmis] at hmem
        cases hmem
      | modified i k =>
        have hmem := (hsorts.modified x.rel).mpr ⟨x, hx, rfl, i, k, finding_eq_iff.mp hr⟩
        rw [hmod] at hmem
        cases hmem
      | failed f => exact Or.inr ⟨f, finding_eq_iff.mp hr⟩
    · by_contra hno
      have hmem := (hextra x.rel).mpr ⟨⟨x, hx, rfl⟩, fun y hy heq => hno ⟨y, hy, heq⟩⟩
      rw [hext] at hmem
      cases hmem
  · rintro ⟨hall, hsub⟩
    refine ⟨List.eq_nil_iff_forall_not_mem.mpr fun rel hrel => ?_,
      List.eq_nil_iff_forall_not_mem.mpr fun m hm => ?_,
      List.eq_nil_iff_forall_not_mem.mpr fun rel hrel => ?_⟩
    · obtain ⟨x, hx, -, hr⟩ := (hsorts.missing rel).mp hrel
      rcases hall x hx with h | ⟨f, h⟩ <;> exact absurd (hr.eq h) (by simp)
    · obtain ⟨x, hx, -, i, k, hr⟩ := (hsorts.modified m.path).mp (List.mem_map.mpr ⟨m, hm, rfl⟩)
      rcases hall x hx with h | ⟨f, h⟩ <;> exact absurd (hr.eq h) (by simp)
    · obtain ⟨⟨x, hx, rfl⟩, hnot⟩ := (hextra rel).mp hrel
      obtain ⟨y, hy, heq⟩ := hsub x hx
      exact hnot y hy heq

theorem fileFailures_eq_nil : fileFailures w dest d = [] ↔
    ∀ x ∈ files w d, ¬ ∃ f, Found w dest d x (.failed f) := by
  rw [fileFailures, List.filterMap_eq_nil_iff]
  refine forall₂_congr fun x _ => ?_
  rw [← failure?_isSome, Bool.not_eq_true, Option.isSome_eq_false_iff, Option.isNone_iff_eq_none]

/-- What a clean report says if every file could be read, whatever the path of the destination. -/
theorem clean_iff (hf : fileFailures w dest d = []) :
    (inOrder (gathered w dest patch d).drift).clean = true ↔
      (∀ x ∈ files w d, Found w dest d x .unchanged) ∧
        ∀ x ∈ installed w.exclude dest d, ∃ y ∈ files w d, y.rel = x.rel := by
  rw [clean_iff_compared]
  refine and_congr_left fun _ => forall₂_congr fun x hx => ?_
  rw [or_iff_left (fileFailures_eq_nil.mp hf x hx)]

/-- **Every file of the source is entered once**: where it is missing, modified or unchanged, or with a
failure of its own, and the numbers add up.  The parts are in ascending order and have nothing in common, and
files that only the destination has are no files of the source.

If nothing failed, a clean report says that all files of the source are in the destination with the same
content, and that the walk through the destination visits no others.  If also there are no links below the
destination and its path is unambiguous, the walk visits the same files on both sides. -/
theorem run_classifies (hd : d.Sound) (ht : w.tree.Proper)
    (h : (run w dest patch d).drift = some drift) :
    ∃ failures, Sorts w dest d drift failures ∧
      (run w dest patch d).failure =
        (match failures ++ (searchFailure? w.exclude dest d).toList with
          | [] => none
          | fs => some (.several fs)) ∧
      drift.missing.length + drift.modified.length + drift.unchanged + failures.length =
        (Count.files w d).1 ∧
      Ordered drift ∧
      (∀ rel, rel ∈ drift.extra ↔
        (∃ x ∈ installed w.exclude dest d, x.rel = rel) ∧ ∀ x ∈ files w d, x.rel ≠ rel) ∧
      ((run w dest patch d).failure = none →
        (drift.clean = true ↔ (∀ x ∈ files w d, Found w dest d x .unchanged) ∧
          ∀ x ∈ installed w.exclude dest d, ∃ y ∈ files w d, y.rel = x.rel) ∧
        (NoLinkBelow dest d → Unambiguous dest d →
          (drift.clean = true ↔ (∀ x ∈ files w d, Found w dest d x .unchanged) ∧
            ∀ rel, (∃ x ∈ installed w.exclude dest d, x.rel = rel) ↔ ∃ x ∈ files w d, x.rel = rel))) := by
  obtain ⟨hp, hok, rfl⟩ := run_drift.mp h
  refine ⟨fileFailures w dest d, gathered_sorts w dest patch d, ?_, gathered_total hp,
    gathered_ordered hd ht dest patch, fun rel => ?_, fun hfail => ?_⟩
  · rw [run_eq hp hok, gathered_failures]
    dsimp only
    cases fileFailures w dest d ++ (searchFailure? w.exclude dest d).toList <;> rfl
  · rw [inOrder, Bytes.mem_sort, gathered_extra]
  · obtain ⟨hf, hs⟩ := (failure_eq_none hp hok).mp hfail
    refine ⟨clean_iff hf, fun hno hun => (clean_iff hf).trans (and_congr_right fun hall => ?_)⟩
    constructor
    · intro hsub rel
      constructor
      · rintro ⟨x, hx, rfl⟩
        exact hsub x hx
      · rintro ⟨x, hx, rfl⟩
        cases hall x hx with
        | unchanged _ hread => exact installed_of_read hd ht hun hno hs hx hread
    · exact fun hsame x hx => (hsame x.rel).mp ⟨x, hx, rfl⟩

/-- A kit with a file that may not be read, and a directory that differs from it in every way. -/
def differentInEveryWay : Disk :=
  { entries :=
      [([("kit" : Bytes)], .dir 0o755),
        ([("kit" : Bytes), ("a" : Bytes)], .file 0o644 "1"),
        ([("kit" : Bytes), ("b" : Bytes)], .file 0o644 "2"),
        ([("kit" : Bytes), ("c" : Bytes)], .file 0o644 "3"),
        ([("kit" : Bytes), ("d" : Bytes)], .file 0o200 "4"),
        ([("here" : Bytes)], .dir 0o755),
        ([("here" : Bytes), ("a" : Bytes)], .file 0o644 "1"),
        ([("here" : Bytes), ("b" : Bytes)], .file 0o644 "0"),
        ([("here" : Bytes), ("e" : Bytes)], .file 0o644 "5")] }

theorem differentInEveryWay_sound : differentInEveryWay.Sound := sound_of_entries (by decide)

theorem differentInEveryWay_noLink (dest : Bytes) : NoLinkBelow dest differentInEveryWay := by
  intro P m _
  have hnone : ∀ x ∈ differentInEveryWay.entries, x.2.kind ≠ .link := by decide
  exact noLinkIn_of_entries fun x hx _ => hnone x hx

/-- The kit is compared with the directory, and without the file that may not be read with itself. -/
theorem run_classifies_differentInEveryWay :
    (∃ failures, Sorts ⟨.onDisk "/kit", ".", []⟩ "/here" differentInEveryWay ⟨["c"], [⟨"b", []⟩], ["e"], 1⟩ failures ∧
        1 + 1 + 1 + failures.length = (Count.files ⟨.onDisk "/kit", ".", []⟩ differentInEveryWay).1) ∧
      ∀ rel, (∃ x ∈ installed ["d"] "/kit" differentInEveryWay, x.rel = rel) ↔
        ∃ x ∈ files ⟨.onDisk "/kit", ".", ["d"]⟩ differentInEveryWay, x.rel = rel := by
  have hdrift : (run ⟨.onDisk "/kit", ".", []⟩ "/here" false differentInEveryWay).drift =
      some ⟨["c"], [⟨"b", []⟩], ["e"], 1⟩ := by decide +kernel
  have hself : (run ⟨.onDisk "/kit", ".", ["d"]⟩ "/kit" false differentInEveryWay).drift =
      some ⟨[], [], [], 3⟩ := by decide +kernel
  have hnone : (run ⟨.onDisk "/kit", ".", ["d"]⟩ "/kit" false differentInEveryWay).failure = none :=
    Option.isNone_iff_eq_none.mp (by decide +kernel)
  obtain ⟨failures, hsorts, -, htotal, -⟩ :=
    run_classifies (w := ⟨.onDisk "/kit", ".", []⟩) differentInEveryWay_sound trivial hdrift
  obtain ⟨-, -, -, -, -, -, hclean⟩ :=
    run_classifies (w := ⟨.onDisk "/kit", ".", ["d"]⟩) differentInEveryWay_sound trivial hself
  have hiff := (hclean hnone).2 (differentInEveryWay_noLink _) (unambiguous_of_clean (by decide))
  exact ⟨⟨failures, hsorts, htotal⟩, (hiff.mp (by decide)).2⟩

/-- A file next to a link into a directory that has no files. -/
def linkIntoEmptyDirectory : Disk :=
  { entries :=
      [([("a" : Bytes)], .file 0o644 "x"),
        ([("x" : Bytes)], .dir 0o755),
        ([("x" : Bytes), ("y" : Bytes)], .dir 0o755),
        ([("l" : Bytes)], .link "x/y")] }

/-- A tree with the same file. -/
def kitOfThatFile : Walk.Scope := ⟨.inMemory { entries := [("a", .file 0o644 "x")] }, ".", []⟩

/-- A report can be clean although there is nothing in the destination.  The empty path leads to no directory,
and up again from the link there is one without files; but the file is read where the clean paths lead. -/
theorem clean_of_files_elsewhere :
    (∀ dest ∈ (["", "l/.."] : List Bytes),
      (run kitOfThatFile dest false linkIntoEmptyDirectory).drift = some ⟨[], [], [], 1⟩ ∧
        (run kitOfThatFile dest false linkIntoEmptyDirectory).failure.isNone = true ∧
        installed [] dest linkIntoEmptyDirectory = []) ∧
      (files kitOfThatFile linkIntoEmptyDirectory).map (·.rel) = ["a"] ∧
      linkIntoEmptyDirectory.isDirectory "" = false ∧ linkIntoEmptyDirectory.isDirectory "l/.." = true ∧
      NoLinkBelow "l/.." linkIntoEmptyDirectory := by
  refine ⟨by decide +kernel, by decide +kernel, by decide +kernel, by decide +kernel, ?_⟩
  intro P m hfind
  have hgoal : linkIntoEmptyDirectory.goal "l/.." = [("x" : Bytes)] := by decide +kernel
  rw [goal_of_find hfind] at hgoal
  subst hgoal
  exact noLinkIn_of_entries (by decide)

/-! ## 5. What cannot be read

Now the same without assuming that nothing failed.  Of the two walks, the one through the source decides whether
there is a report, and the other one how much of the destination is in it. -/

theorem visits_ok_iff (hd : d.Sound) (ht : w.tree.Proper) : (Walk.visits w d).2 = none ↔
    (∃ info, w.tree.stat d w.root = .ok info) ∧ ∀ q, ¬ Walk.Blocked w d q := by
  rw [Walk.visits_eq_trace]
  exact Walk.trace_ok_iff (Walk.orderly hd ht)

/-- The search comes to its end if nothing in the destination is an obstacle. -/
theorem searchFailure?_eq_none (hd : d.Sound) : searchFailure? exclude dest d = none ↔
    (d.isDirectory dest = true → (∃ info, (Tree.onDisk dest).stat d "." = .ok info) ∧
      ∀ q, ¬ Walk.Blocked ⟨.onDisk dest, ".", exclude⟩ d q) := by
  unfold searchFailure?
  cases hdir : d.isDirectory dest with
  | false => simp
  | true =>
    have hok := @visits_ok_iff ⟨.onDisk dest, ".", exclude⟩ d hd trivial
    simpa using hok

/-- A walk visits the file over the names `q` if it is there and nothing before it ends the walk. -/
theorem exists_file_iff {q : List Bytes} (hd : d.Sound) (ht : w.tree.Proper)
    (hq : ∀ n ∈ q, Path.IsName n) :
    (∃ x ∈ files w d, x.rel = Path.join q) ↔
      q ≠ [] ∧ Walk.Shown w d q false ∧ ∀ b, Walk.Blocked w d b → ¬ b < q := by
  constructor
  · rintro ⟨x, hx, hrel⟩
    obtain ⟨r, hne, hs, rfl, hbefore⟩ := (mem_files_iff hd ht).mp hx
    obtain ⟨k, hk⟩ := hs.reached
    have hnames := congrArg Path.names hrel
    rw [Walk.Scope.visitAt, Path.names_join (Path.forall_isName hq),
      Path.names_join (Path.forall_isName (hk.names (Walk.orderly hd ht).tidy))] at hnames
    subst hnames
    exact ⟨hne, hs, hbefore⟩
  · rintro ⟨hne, hs, hbefore⟩
    exact ⟨w.visitAt q false, (mem_files_iff hd ht).mpr ⟨q, hne, hs, rfl, hbefore⟩, rfl⟩

theorem exists_installed_iff {q : List Bytes} (hd : d.Sound) (hq : ∀ n ∈ q, Path.IsName n) :
    (∃ x ∈ installed exclude dest d, x.rel = Path.join q) ↔
      d.isDirectory dest = true ∧ q ≠ [] ∧ Walk.Shown ⟨.onDisk dest, ".", exclude⟩ d q false ∧
        ∀ b, Walk.Blocked ⟨.onDisk dest, ".", exclude⟩ d b → ¬ b < q := by
  unfold installed
  cases d.isDirectory dest with
  | false => simp
  | true =>
    have hfile := @exists_file_iff ⟨.onDisk dest, ".", exclude⟩ d q hd trivial hq
    simpa using hfile

/-- **How much is reported when not everything can be read.**  There is a report if the root of the source can
be looked at and nothing within reach in the source ends the walk.  It then covers all files of the source
within reach, and of the files within reach that only the destination has those before which nothing ends the
walk there.  Nothing failed if besides all files could be read and nothing ended the walk. -/
theorem run_reports (hd : d.Sound) (ht : w.tree.Proper)
    (hp : Walk.checkPatterns w.exclude = .ok ()) :
    ((run w dest patch d).drift.isSome = true ↔
      (∃ info, w.tree.stat d w.root = .ok info) ∧ ∀ q, ¬ Walk.Blocked w d q) ∧
    ∀ drift, (run w dest patch d).drift = some drift →
      (∀ x, x ∈ files w d ↔ ∃ q, q ≠ [] ∧ Walk.Shown w d q false ∧ x = w.visitAt q false) ∧
      (∃ failures, Sorts w dest d drift failures) ∧
      (∀ q, (∀ n ∈ q, Path.IsName n) → (Path.join q ∈ drift.extra ↔
        d.isDirectory dest = true ∧ q ≠ [] ∧ Walk.Shown ⟨.onDisk dest, ".", w.exclude⟩ d q false ∧
          ¬ Walk.Shown w d q false ∧
          ∀ b, Walk.Blocked ⟨.onDisk dest, ".", w.exclude⟩ d b → ¬ b < q)) ∧
      ((run w dest patch d).failure = none ↔
        (∀ x ∈ files w d, ∀ f, ¬ Found w dest d x (.failed f)) ∧
          (d.isDirectory dest = true → (∃ info, (Tree.onDisk dest).stat d "." = .ok info) ∧
            ∀ q, ¬ Walk.Blocked ⟨.onDisk dest, ".", w.exclude⟩ d q)) := by
  refine ⟨?_, fun drift h => ?_⟩
  · rw [← visits_ok_iff hd ht, Option.isSome_iff_exists]
    constructor
    · rintro ⟨drift, h⟩
      exact (run_drift.mp h).2.1
    · exact fun hok => ⟨_, run_drift.mpr ⟨hp, hok, rfl⟩⟩
  · obtain ⟨-, hok, rfl⟩ := run_drift.mp h
    have hfree := ((visits_ok_iff hd ht).mp hok).2
    -- The walk through the source met no obstacle, so all that is shown was visited.
    have hfile : ∀ x, x ∈ files w d ↔
        ∃ q, q ≠ [] ∧ Walk.Shown w d q false ∧ x = w.visitAt q false := by
      intro x
      rw [mem_files_iff hd ht]
      constructor
      · rintro ⟨q, hne, hs, hx, -⟩
        exact ⟨q, hne, hs, hx⟩
      · rintro ⟨q, hne, hs, hx⟩
        exact ⟨q, hne, hs, hx, fun b hb => absurd hb (hfree b)⟩
    refine ⟨hfile, ⟨_, gathered_sorts w dest patch d⟩, fun q hq => ?_, ?_⟩
    · have hsource := exists_file_iff hd ht hq
      rw [inOrder, Bytes.mem_sort, gathered_extra, exists_installed_iff hd hq]
      constructor
      · rintro ⟨⟨hdir, hne, hs, hbefore⟩, hnot⟩
        refine ⟨hdir, hne, hs, fun hshown => ?_, hbefore⟩
        obtain ⟨x, hx, hrel⟩ := hsource.mpr ⟨hne, hshown, fun b hb => absurd hb (hfree b)⟩
        exact hnot x hx hrel
      · rintro ⟨hdir, hne, hs, hnot, hbefore⟩
        exact ⟨⟨hdir, hne, hs, hbefore⟩, fun x hx hrel => hnot (hsource.mp ⟨x, hx, hrel⟩).2.1⟩
    · rw [failure_eq_none hp hok, searchFailure?_eq_none hd]
      refine and_congr_left fun _ => ?_
      rw [fileFailures, List.filterMap_eq_nil_iff]
      refine forall₂_congr fun x _ => ?_
      rw [← Option.isNone_iff_eq_none, ← Option.not_isSome, Bool.not_eq_true', ← Bool.not_eq_true,
        failure?_isSome, not_exists]

/-- A kit, and a directory with a link that leads nowhere between two files of its own. -/
def danglingLinkBesideFiles : Disk :=
  { entries :=
      [([("kit" : Bytes)], .dir 0o755),
        ([("kit" : Bytes), ("a" : Bytes)], .file 0o644 "1"),
        ([("kit" : Bytes), ("b" : Bytes)], .file 0o644 "2"),
        ([("here" : Bytes)], .dir 0o755),
        ([("here" : Bytes), ("a" : Bytes)], .file 0o644 "1"),
        ([("here" : Bytes), ("c" : Bytes)], .file 0o644 "3"),
        ([("here" : Bytes), ("m" : Bytes)], .link "gone"),
        ([("here" : Bytes), ("z" : Bytes)], .file 0o644 "4")] }

/-- The second of the two files is not reported, because something ends the walk. -/
theorem run_reports_danglingLinkBesideFiles :
    (run ⟨.onDisk "/kit", ".", []⟩ "/here" false danglingLinkBesideFiles).drift = some ⟨["b"], [], ["c"], 1⟩ ∧
      (∀ q, ¬ Walk.Blocked ⟨.onDisk "/kit", ".", []⟩ danglingLinkBesideFiles q) ∧
      (∃ failures, Sorts ⟨.onDisk "/kit", ".", []⟩ "/here" danglingLinkBesideFiles ⟨["b"], [], ["c"], 1⟩ failures) ∧
      ∃ q, Walk.Blocked ⟨.onDisk "/here", ".", []⟩ danglingLinkBesideFiles q := by
  have hdrift : (run ⟨.onDisk "/kit", ".", []⟩ "/here" false danglingLinkBesideFiles).drift =
      some ⟨["b"], [], ["c"], 1⟩ := by decide +kernel
  have hsome : (run ⟨.onDisk "/kit", ".", []⟩ "/here" false danglingLinkBesideFiles).failure.isSome = true := by
    decide +kernel
  have hcompared : ∀ x ∈ files ⟨.onDisk "/kit", ".", []⟩ danglingLinkBesideFiles,
      ¬ ∃ f, Found ⟨.onDisk "/kit", ".", []⟩ "/here" danglingLinkBesideFiles x (.failed f) := by decide +kernel
  have hstat : ((Tree.onDisk "/here").stat danglingLinkBesideFiles ".").toOption.isSome = true := by decide +kernel
  obtain ⟨hisSome, hreport⟩ := run_reports (w := ⟨.onDisk "/kit", ".", []⟩) (d := danglingLinkBesideFiles)
    (sound_of_entries (by decide)) trivial rfl
  obtain ⟨-, hsorts, -, hfailure⟩ := hreport _ hdrift
  refine ⟨hdrift, (hisSome.mp (by rw [hdrift]; rfl)).2, hsorts, ?_⟩
  by_contra hnone
  have hok := hfailure.mpr
    ⟨fun x hx f hf => hcompared x hx ⟨f, hf⟩, fun _ => ⟨?_, fun q hq => hnone ⟨q, hq⟩⟩⟩
  · rw [hok] at hsome
    cases hsome
  · cases hs : (Tree.onDisk "/here").stat danglingLinkBesideFiles "." with
    | ok info => exact ⟨info, rfl⟩
    | error f =>
      rw [hs] at hstat
      cases hstat

/-- A kit with a link that leads nowhere, and a directory with the file that can be read. -/
def danglingLinkInKit : Disk :=
  { entries :=
      [([("kit" : Bytes)], .dir 0o755),
        ([("kit" : Bytes), ("a" : Bytes)], .file 0o644 "1"),
        ([("kit" : Bytes), ("gone" : Bytes)], .link "nowhere"),
        ([("here" : Bytes)], .dir 0o755),
        ([("here" : Bytes), ("a" : Bytes)], .file 0o644 "1")] }

/-- The link takes the whole report with it, although the root and the file can be read. -/
theorem no_drift_with_dangling_link :
    (run ⟨.onDisk "/kit", ".", []⟩ "/here" false danglingLinkInKit).drift = none ∧
      ((Tree.onDisk "/kit").stat danglingLinkInKit ".").toOption.map (·.isDir) = some true ∧
      ((Tree.onDisk "/kit").read danglingLinkInKit "a").toOption = some "1" ∧
      (danglingLinkInKit.read "/here/a").toOption = some "1" :=
  ⟨by decide +kernel, by decide +kernel, by decide +kernel, by decide +kernel⟩

end AgentKit.Compare
