import AgentKit.Install
import AgentKit.Proofs.Delivery
import AgentKit.Proofs.Edits
/-!
# Installing into a project

An install is a copy into a directory of the project, the kit.

1. The project and the kit in it have clean paths, and whoever finds the project finds it again after the
   install.
2. The directory of the kit stands in the project, so that it alone is made (`Made`).  A walk through a source
   that has nothing to do with it comes to the same before and after (`Ended.trace_before`).
3. **An install that succeeds is a copy** (`run_ok`), and a copy makes nothing but the kit (`copy_ended`).

For copies in general there are difficulties with the path of the destination: it may have `..` in it, so that its clean
form leads elsewhere, or several directories may be missing on the way.  None of this can happen to a kit.  Its path
is made from an absolute path, which is clean, by adding one name (`settled_kitPath`), and the directory around it is
the project, which is there (`Project.parent_kitPath`).  What is proved here lets the modules on installs forget about
these cases.
-/

namespace AgentKit

open Disk

/-! ## 1. Projects

A project is given by a path that may be relative.  It is made absolute first, and only then looked at. -/

namespace Disk

variable {d : Disk} {path root : Bytes}

/-- An absolute path is the clean form of one. -/
theorem absolute_ok (h : d.absolute path = .ok root) :
    ∃ t, Path.isAbsolute t = true ∧ root = Path.clean t := by
  unfold absolute at h
  by_cases habs : Path.isAbsolute path = true
  · rw [if_pos habs] at h
    cases h
    exact ⟨path, habs, rfl⟩
  · rw [if_neg habs] at h
    obtain ⟨_, -, h⟩ := except_bind_ok.mp h
    cases h
    by_cases hempty : path.isEmpty = true
    · exact ⟨d.here.text, rfl, by simp [Path.below, Place.text, hempty]⟩
    · exact ⟨d.here.text ++ "/" ++ path, rfl, by simp [Path.below, Place.text, hempty]⟩

theorem absoluteOr_eq (h : d.absolute path = .ok root) : d.absoluteOr path = root := by
  unfold absoluteOr
  rw [h]

end Disk

namespace Project

variable {d d' : Disk} {project root parent : Bytes}

/-- A project is found exactly if its absolute path leads to a directory. -/
theorem resolve_ok : resolve d project = .ok root ↔
    d.absolute project = .ok root ∧ d.isDirectory root = true := by
  unfold resolve
  constructor
  · intro h
    split at h
    · cases h
    · rename_i full habs
      split at h
      · cases h
      · rename_i info hstat
        split at h
        · rename_i hdir
          cases h
          refine ⟨habs, ?_⟩
          unfold isDirectory
          rw [explain_eq_ok.mp hstat]
          exact hdir
        · cases h
  · rintro ⟨habs, hdir⟩
    obtain ⟨p, m, hfind⟩ := isDirectory_iff.mp hdir
    have hstat : d.stat root = .ok (Entry.dir m).info :=
      explain_eq_ok.mpr (statusOf_eq_ok.mpr ⟨p, _, hfind, rfl⟩)
    rw [habs]
    dsimp only
    rw [hstat]
    exact if_pos rfl

/-- A project that is found stays where it is. -/
theorem resolve_upholds (hup : Upholds d d') (h : resolve d project = .ok root) :
    resolve d' project = .ok root := by
  obtain ⟨habs, hdir⟩ := resolve_ok.mp h
  exact resolve_ok.mpr ⟨hup.absolute habs, hup.isDirectory hdir⟩

theorem resolve_keeps (hk : Keeps d d') (h : resolve d project = .ok root) :
    resolve d' project = .ok root := resolve_upholds hk.upholds h

/-- The path of a project is clean and starts at the root. -/
theorem resolve_clean (h : resolve d project = .ok root) :
    Path.isAbsolute root = true ∧ Path.clean root = root := by
  obtain ⟨t, ht, rfl⟩ := absolute_ok (resolve_ok.mp h).1
  refine ⟨?_, Path.clean_clean ht⟩
  rw [Path.clean_eq_spell, ht]
  rfl

/-- The path of a project that was given by an absolute path. -/
theorem resolve_absolute (habs : Path.isAbsolute project = true) (h : resolve d project = .ok root) :
    root = Path.clean project := by
  have habsolute := (resolve_ok.mp h).1
  unfold Disk.absolute at habsolute
  rw [if_pos habs] at habsolute
  cases habsolute
  rfl

theorem isName_marker : Path.IsName Kit.marker := ⟨by decide, by decide, by decide, by decide⟩

/-- The names of the kit are those of the project and one more. -/
theorem kitPath_eq (h : Path.isAbsolute root = true) :
    kitPath root = Path.spell true (Path.cleanNames root ++ [Kit.marker]) := by
  have hbelow := Path.below_join root (q := [Kit.marker]) (by simp) (by simpa using isName_marker)
  rw [Path.join_singleton, h] at hbelow
  exact hbelow

theorem clean_kitPath (h : Path.isAbsolute root = true) : Path.clean (kitPath root) = kitPath root := by
  rw [kitPath_eq h]
  refine Path.clean_spell fun n hn => ?_
  rcases List.mem_append.mp hn with hn | hn
  · exact Path.isName_of_mem_cleanNames h hn
  · exact List.mem_singleton.mp hn ▸ isName_marker

/-- The kit stands in the project. -/
theorem parent_kitPath (h : resolve d project = .ok root) (hp : parentPath? (kitPath root) = some parent) :
    d.isDirectory parent = true := by
  obtain ⟨habs, hclean⟩ := resolve_clean h
  have hmarker : Kit.marker ≠ [] ∧ byte '/' ∉ Kit.marker := ⟨isName_marker.ne_nil, isName_marker.no_slash⟩
  rw [kitPath_eq habs, Path.parentPath?_spell true hmarker fun _ hn => Path.mem_cleanNames hn] at hp
  split at hp
  · cases hp
  · cases hp
    have hroot := Path.clean_eq_spell root
    rw [habs, hclean] at hroot
    rw [← hroot]
    exact (resolve_ok.mp h).2

end Project

/-- A path that starts at the root, is clean, and is not the root itself. -/
structure Path.Settled (dest : Bytes) : Prop where
  clean : Path.clean dest = dest
  absolute : Path.isAbsolute dest = true
  names : Path.cleanNames dest ≠ []

namespace Path.Settled

variable {dest : Bytes} {q : List Bytes}

theorem spelled (h : Settled dest) : dest = Path.spell true (Path.cleanNames dest) := by
  rw [← h.absolute, ← Path.clean_eq_spell, h.clean]

theorem noSlash (h : Settled dest) : Path.hasTrailingSlash dest = false := by
  rw [h.spelled]
  exact Path.hasTrailingSlash_spell true h.names fun _ => Path.mem_cleanNames

theorem ne_nil (h : Settled dest) : dest ≠ [] := by
  rw [h.spelled, Path.spell, if_pos rfl]
  simp

/-- What is below the directory has the path of the directory before it. -/
theorem below_eq (h : Settled dest) (hne : q ≠ []) (hq : ∀ n ∈ q, Path.IsName n) :
    Path.below dest (Path.join q) = dest ++ "/" ++ Path.join q := by
  have hspelled := h.spelled
  rw [Path.spell, if_pos rfl] at hspelled
  rw [Path.below_join dest hne hq, h.absolute, Path.spell, if_pos rfl, Path.join_append hne h.names,
    slash_eq]
  conv_rhs => rw [hspelled]
  simp

/-- A tree in such a directory finds its files under their names, if the system takes the paths. -/
theorem pathOf_eq (h : Settled dest) (hne : q ≠ []) (hq : ∀ n ∈ q, Path.IsName n)
    (hname : Path.isTreeName (Path.join q) = true) (hu : Usable (Path.below dest (Path.join q))) :
    Tree.pathOf dest (Path.join q) = .ok (Path.below dest (Path.join q)) := by
  have hnul : (Path.join q).contains 0 = false := by
    have hmem : (0 : UInt8) ∉ Path.join q := fun hz => hu.no_nul (by
      rw [h.below_eq hne hq]
      exact List.mem_append_right _ hz)
    simpa using hmem
  unfold Tree.pathOf
  rw [if_neg (by simp [h.ne_nil]), hname, hnul, h.noSlash, h.below_eq hne hq]
  rfl

/-- The root of the tree has a path with a dot, which is not cleaned away. -/
theorem pathOf_dot (h : Settled dest) : Tree.pathOf dest "." = .ok (dest ++ "/" ++ ".") := by
  unfold Tree.pathOf
  rw [if_neg (by simp [h.ne_nil]), h.noSlash]
  rfl

theorem length_dot (dest : Bytes) : (dest ++ "/" ++ ("." : Bytes)).length = dest.length + 2 := by
  have hslash : (Bytes.ofString "/").length = 1 := rfl
  have hdot : (Bytes.ofString ".").length = 1 := rfl
  rw [List.length_append, List.length_append, hslash, hdot]

end Path.Settled

/-! ## 2. Copies into a directory of the project

In contrast to the general case, at most one directory is made before the walk. -/

namespace Copy

variable {w : Walk.Scope} {dest : Bytes} {d d₀ b : Disk} {s : State}

/-- The destination was a directory, or there was nothing and it was made. -/
structure Made (dest : Bytes) (d d₀ : Disk) : Prop where
  keeps : Keeps d d₀
  before : d.isDirectory dest = true ∨ (d.isDirectory dest = false ∧ d.get? (d.goal dest) = none)
  after : d₀.isDirectory dest = true
  other : ∀ p, p ≠ d.goal dest → d₀.get? p = d.get? p

/-- So it is where the directory around the destination is there. -/
theorem made_of_parent {mode : Nat} (hne : dest ≠ [])
    (hpar : ∀ parent, parentPath? dest = some parent → d.isDirectory parent = true)
    (h : d.makeDirectories dest mode = (d₀, none)) : Made dest d d₀ := by
  have hadds := makeDirectories_adds d dest mode
  have hafter := makeDirectories_isDirectory h
  rw [h] at hadds
  rcases makeDirectories_cases hne hpar h with ⟨hdir, rfl⟩ | ⟨hdir, hnone, hputs⟩
  · exact ⟨hadds.keeps, Or.inl hdir, hafter, fun _ _ => rfl⟩
  · exact ⟨hadds.keeps, Or.inr ⟨hdir, hnone⟩, hafter, fun _ hp => hputs.other hp⟩

/-- Making the destination changes nothing outside of it. -/
theorem Made.outside (h : Made dest d d₀) : AgreeOutside (d.goal dest) d d₀ := by
  intro p hp
  refine h.other p ?_
  rintro rfl
  exact hp (List.prefix_refl _)

section

variable (h : Ended w dest (d.goal dest) d d₀ b s) (hmade : Made dest d d₀) (hclean : Path.clean dest = dest)

include h hmade hclean

theorem Ended.outside : AgreeOutside (d.goal dest) d s.disk := by
  intro p hp
  have hsettles := h.settles (p := p) (straight_of_clean hclean d₀ h.made) fun x _ heq =>
    hp (heq ▸ List.prefix_append _ x.path)
  exact hsettles.trans (hmade.outside p hp)

/-- **A walk through a source that is apart from the destination comes to the same before and after.** -/
theorem Ended.trace_before {info : Info} (hd : d.Sound) (hno : NoLinkIn (d.goal dest) d)
    (hap : w.tree.Apart w.root d (d.goal dest)) (hstat : w.tree.stat d w.root = .ok info) :
    Walk.trace w s.disk = Walk.trace w d :=
  Tree.trace_eq hd h.keeps (h.outside hmade hclean) hno hap hstat

end

end Copy

/-! ## 3. Installing

The path of the kit has all that section 2 asks for. -/

namespace Install

variable {i : Install} {source : Source} {project root : Bytes} {d d' : Disk} {r : Result} {t : Tree}
  {exclude : List Bytes} {patch : Bool}

/-- The path of a kit is as good as a path can be. -/
theorem settled_kitPath (h : Path.isAbsolute root = true) : Path.Settled (Project.kitPath root) := by
  have hnames : ∀ n ∈ Path.cleanNames root ++ [Kit.marker], Path.IsName n := by
    intro n hn
    rcases List.mem_append.mp hn with hn | hn
    · exact Path.isName_of_mem_cleanNames h hn
    · exact List.mem_singleton.mp hn ▸ Project.isName_marker
  have hne : Path.cleanNames root ++ [Kit.marker] ≠ [] := by simp
  refine ⟨Project.clean_kitPath h, ?_, ?_⟩
  · rw [Project.kitPath_eq h]
    rfl
  · rw [Project.kitPath_eq h, Path.cleanNames, Path.names_spell true hne (Path.forall_isName hnames),
      Path.foldl_cleanStep_names _ _ hnames]
    simp

/-- A copy into the kit that has come to its end made nothing but the kit and what is in it. -/
theorem copy_ended {w : Walk.Scope} {s : Copy.State} (hr : Project.resolve d project = .ok root)
    (h : Copy.Detached w.tree w.root (Project.kitPath root) d)
    (hrun : Copy.run w (Project.kitPath root) false d = (s, none)) :
    ∃ d₀ b, Copy.Ended w (Project.kitPath root) (d.goal (Project.kitPath root)) d d₀ b s ∧
      Copy.Made (Project.kitPath root) d d₀ ∧ Advances (d.goal (Project.kitPath root)) d s.disk := by
  have hsettled := settled_kitPath (Project.resolve_clean hr).1
  obtain ⟨d₀, b, hended⟩ := h.ended hrun
  have hadv := hended.advances h.sound (Or.inl hsettled.clean)
  rw [hsettled.clean] at hended hadv
  exact ⟨d₀, b, hended,
    Copy.made_of_parent hsettled.ne_nil (fun _ => Project.parent_kitPath hr) hended.made, hadv⟩

theorem check_ok : source.check d = .ok t ↔
    source.tree = some t ∧ ∃ info, t.stat d source.root = .ok info ∧ info.isDir = true := by
  unfold Source.check
  cases htree : source.tree with
  | none => simp
  | some t' =>
    dsimp only
    constructor
    · intro h
      split at h
      · cases h
      · rename_i info hstat
        split at h
        · rename_i hdir
          cases h
          exact ⟨rfl, info, hstat, hdir⟩
        · cases h
    · rintro ⟨h, info, hstat, hdir⟩
      cases h
      rw [hstat]
      exact if_pos hdir

/-- A comparison of a project with a source that is there is one of the kit with its tree. -/
theorem diff_eq (hc : source.check d = .ok t) (hr : Project.resolve d project = .ok root) :
    diff source exclude project patch d =
      Compare.run ⟨t, source.root, exclude⟩ (Project.kitPath root) patch d := by
  unfold diff
  rw [hc, hr]

/-- A forced install that succeeds is a copy. -/
theorem run_ok (hforce : i.force = true) (hreal : i.dryRun = false)
    (h : (i.run project d).result = .ok r) :
    ∃ t root s, i.source.check d = .ok t ∧ Project.resolve d project = .ok root ∧
      Copy.run ⟨t, i.source.root, i.exclude⟩ (Project.kitPath root) false d = (s, none) ∧
      (i.run project d).disk = s.disk ∧ r.files = s.count := by
  unfold run at h ⊢
  cases hc : i.source.check d with
  | error f =>
    rw [hc] at h
    cases h
  | ok t =>
    rw [hc] at h
    cases hr : Project.resolve d project with
    | error f =>
      rw [hr] at h
      cases h
    | ok root =>
      rw [hr] at h
      simp only [hforce, Bool.not_true, Bool.and_false, Bool.false_eq_true, if_false] at h ⊢
      unfold copy at h ⊢
      rw [hreal] at h ⊢
      dsimp only at h ⊢
      cases hrun : Copy.run ⟨t, i.source.root, i.exclude⟩ (Project.kitPath root) false d with
      | mk s f =>
        rw [hrun] at h
        cases f with
        | some f => cases h
        | none =>
          cases h
          exact ⟨t, root, s, rfl, rfl, hrun, rfl, rfl⟩

end Install

end AgentKit
