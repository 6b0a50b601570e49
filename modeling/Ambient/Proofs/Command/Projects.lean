import Ambient.CommandLine
import Ambient.Proofs.Files.Canonical
import Ambient.Proofs.Generation.Inputs

/-!
# Projects while outputs are written

No run writes a project file or a file of options. So a source keeps its project, and a project the
options in force, while outputs are written around it.
-/
namespace Ambient

namespace Path

/-- The extension of a name that ends in a dot and something without one. -/
theorem eq_of_mem_extension {name tail ext : String} (plain : '.' ∉ tail.toList)
    (ends : Text.endsWith name ("." ++ tail) = true) (h : ext ∈ (splitName name).2) :
    ext = tail := by
  obtain ⟨front, spelled⟩ := List.isSuffixOf_iff_suffix.mp ends
  have back : name.toList.reverse = tail.toList.reverse ++ '.' :: front.reverse := by
    have dot : ".".toList = ['.'] := rfl
    rw [← spelled, String.toList_append, dot]
    simp
  have after : (name.toList.reverse.takeWhile (· != '.')).reverse = tail.toList := by
    have inner : ∀ c ∈ tail.toList.reverse, (c != '.') = true := by
      intro c hc
      rw [bne_iff_ne]
      rintro rfl
      exact plain (List.mem_reverse.mp hc)
    rw [back, List.takeWhile_append_of_pos inner, List.takeWhile_cons_of_neg (by decide),
      List.append_nil, List.reverse_reverse]
  unfold splitName at h
  simp only [after] at h
  split at h
  · cases h
  · rw [String.ofList_toList] at h
    exact (Option.some.inj h).symm

end Path

namespace Generator
variable {name : String}

theorem not_isProjectFile (written : IsWrittenName name) : Project.isProjectFile name = false := by
  have other : ∀ tail : String, '.' ∉ tail.toList →
      Text.endsWith name ("." ++ tail) = true →
      Project.fileExtensions.contains tail = false → Project.isProjectFile name = false := by
    intro tail plain ends no
    unfold Project.isProjectFile
    cases ext : (Path.splitName name).2 with
    | none => rfl
    | some e => rw [Option.any_some, Path.eq_of_mem_extension plain ends ext, no]
  rcases written with output | sidecar
  · have inner : ("." ++ "ts").toList <:+ ".d.ts".toList := ⟨['.', 'd'], rfl⟩
    exact other "ts" (by decide)
      (List.isSuffixOf_iff_suffix.mpr (inner.trans (List.isSuffixOf_iff_suffix.mp output)))
      (by decide)
  · exact other "map" (by decide) sidecar (by decide)

theorem not_overrideName (written : IsWrittenName name) :
    (name.toLower == Project.overrideName) = false := by
  have other : ∀ tail : String, Text.endsWith name tail = true →
      (∃ c, tail.toList.getLast? = some c ∧ c.toLower ≠ 'n') →
        (name.toLower == Project.overrideName) = false := by
    rintro tail ends ⟨c, last, apart⟩
    rw [beq_eq_false_iff_ne]
    intro same
    obtain ⟨front, spelled⟩ := List.isSuffixOf_iff_suffix.mp ends
    have lower := congrArg (fun s => s.toList.getLast?) same
    simp only [Project.toList_toLower, List.getLast?_map] at lower
    rw [← spelled, List.getLast?_append, last] at lower
    exact apart (Option.some.inj lower)
  rcases written with output | sidecar
  · exact other _ output ⟨'s', rfl, by decide⟩
  · exact other _ sidecar ⟨'p', rfl, by decide⟩

end Generator

namespace Project
variable {fs : FileSystem} {q : List String} {p : Path}

theorem rootedAt_eq (fs : FileSystem) (p : Path) :
    let root := (fs.canonical p).toOption.getD p
    rootedAt fs p =
      ⟨root,
        ((fileIn? fs root).map fun name => (Path.splitName name).1).getD root.fileName⟩ := by
  unfold rootedAt
  cases fs.canonical p <;> rfl

/-- The root determines the project. -/
theorem rootedAt_congr {other : Path} (same : (rootedAt fs p).root = (rootedAt fs other).root) :
    rootedAt fs p = rootedAt fs other := by
  rw [rootedAt_eq, rootedAt_eq] at same ⊢
  simp only at same ⊢
  rw [same]

theorem exists_directoryOf (fs : FileSystem) (proper : ∀ n ∈ q, Path.IsEntry n) :
    ∃ dir, dir <+: q ∧ directoryOf fs (FileSystem.pathOf q) = FileSystem.pathOf dir := by
  unfold directoryOf
  rw [FileSystem.parent?_pathOf proper]
  split
  · exact ⟨q, List.prefix_rfl, rfl⟩
  · split
    · exact ⟨q, List.prefix_rfl, rfl⟩
    · exact ⟨q.dropLast, List.dropLast_prefix q, rfl⟩

/-- The directory that is chosen as a root. -/
def home (fs : FileSystem) (p : Path) : Path :=
  let dir := directoryOf fs p
  (dir.ancestors.find? fun d => (fileIn? fs d).isSome).getD dir

theorem around_eq (fs : FileSystem) (p : Path) : around fs p = rootedAt fs (home fs p) := rfl

theorem exists_home (fs : FileSystem) (proper : ∀ n ∈ q, Path.IsEntry n) :
    ∃ above, above <+: q ∧ home fs (FileSystem.pathOf q) = FileSystem.pathOf above := by
  obtain ⟨dir, front, spelled⟩ := exists_directoryOf fs proper
  have proper' : ∀ n ∈ dir, Path.IsEntry n := fun n hn => proper n (front.subset hn)
  simp only [home, spelled]
  cases found : (FileSystem.pathOf dir).ancestors.find? fun d => (fileIn? fs d).isSome with
  | none => exact ⟨dir, front, rfl⟩
  | some d =>
    obtain ⟨above, inner, shown⟩ :=
      FileSystem.exists_of_mem_ancestors proper' (List.mem_of_find?_eq_some found)
    exact ⟨above, inner.trans front, shown⟩

/-- A root that is looked for is spelled by the names that lead to it. -/
theorem exists_root_around (wf : fs.tree.WellFormed) (there : (fs.tree.find? q).isSome = true) :
    ∃ above, (∀ n ∈ above, Path.IsEntry n) ∧
      (around fs (FileSystem.pathOf q)).root = FileSystem.pathOf above := by
  have proper := FileSystem.isEntry_of_isSome wf there
  obtain ⟨above, front, spelled⟩ := exists_home fs proper
  have proper' : ∀ n ∈ above, Path.IsEntry n := fun n hn => proper n (front.subset hn)
  refine ⟨above, proper', ?_⟩
  rw [around_eq, spelled, rootedAt_eq]
  unfold FileSystem.canonical
  cases resolved : fs.resolve (FileSystem.pathOf above) with
  | error trouble => rfl
  | ok place =>
    have found := FileSystem.isSome_of_front front there
    obtain ⟨rfl, -⟩ := (FileSystem.resolve_pathOf_iff proper' found).mp resolved
    rfl

end Project

namespace CommandLine
variable {fs : FileSystem} {explicit : Option Path} {a b s t : Path}

theorem projectFor_none (fs : FileSystem) (p : Path) : projectFor fs none p = .around fs p := rfl

/-- Sources are grouped together only if they are of one project. -/
theorem projectFor_congr (wf : fs.tree.WellFormed) (one : fs.canonical a = .ok s)
    (two : fs.canonical b = .ok t)
    (same : (projectFor fs explicit s).root.same (projectFor fs explicit t).root = true) :
    projectFor fs explicit s = projectFor fs explicit t := by
  cases explicit with
  | some root => rfl
  | none =>
    obtain ⟨q, -, rfl, there⟩ := FileSystem.exists_of_canonical one
    obtain ⟨q', -, rfl, there'⟩ := FileSystem.exists_of_canonical two
    rw [projectFor_none, projectFor_none] at same ⊢
    obtain ⟨above, proper, root⟩ := Project.exists_root_around wf there
    obtain ⟨above', proper', root'⟩ := Project.exists_root_around wf there'
    rw [root, root'] at same
    rw [FileSystem.pathOf_eq_of_same proper proper' same, ← root'] at root
    rw [Project.around_eq, Project.around_eq] at root ⊢
    exact Project.rootedAt_congr root

end CommandLine

namespace FileSystem
variable {fs fs₁ : FileSystem} {p : Path} {q : List String}

instance (name : String) : Decidable (Generator.IsWrittenName name) :=
  inferInstanceAs
    (Decidable (Text.endsWith name ".d.ts" = true ∨ Text.endsWith name ".map" = true))

theorem isSome_node? (fs : FileSystem) (p : Path) :
    (fs.node? p).isSome = (fs.resolve p).toOption.isSome := by
  rw [node?_eq]
  cases resolved : fs.resolve p with
  | error trouble => rfl
  | ok place => exact isSome_of_resolve resolved

namespace Rewritten
variable (h : Rewritten Generator.IsWrittenName fs fs₁)
include h

theorem fileIn? (wf : fs.tree.WellFormed) : Project.fileIn? fs₁ = Project.fileIn? fs :=
  funext fun _ => h.find?_names wf fun _ => Generator.not_isProjectFile

theorem rootedAt (wf : fs.tree.WellFormed)
    (same : (fs₁.canonical p).toOption = (fs.canonical p).toOption) :
    Project.rootedAt fs₁ p = Project.rootedAt fs p := by
  rw [Project.rootedAt_eq, Project.rootedAt_eq, h.fileIn? wf, same]

theorem home (wf : fs.tree.WellFormed) : Project.home fs₁ p = Project.home fs p := by
  unfold Project.home Project.directoryOf
  rw [h.fileIn? wf, h.isDir]

theorem around (wf : fs.tree.WellFormed) (there : (fs.tree.find? q).isSome = true) :
    Project.around fs₁ (pathOf q) = Project.around fs (pathOf q) := by
  obtain ⟨above, front, spelled⟩ := Project.exists_home fs (isEntry_of_isSome wf there)
  rw [Project.around_eq, Project.around_eq, h.home wf, spelled]
  exact h.rootedAt wf (canonical_of_resolve (h.resolve_pathOf wf (isSome_of_front front there)))

/-- A source keeps its project. -/
theorem projectFor (wf : fs.tree.WellFormed) {explicit : Option Path} {source : Path}
    (kept : ∀ root ∈ explicit, (fs₁.canonical root).toOption = (fs.canonical root).toOption)
    (found : fs.canonical p = .ok source) :
    CommandLine.projectFor fs₁ explicit source = CommandLine.projectFor fs explicit source := by
  cases explicit with
  | some root => exact h.rootedAt wf (kept root rfl)
  | none =>
    obtain ⟨place, -, rfl, there⟩ := exists_of_canonical found
    rw [CommandLine.projectFor_none, CommandLine.projectFor_none, h.around wf there]

theorem override? (wf : fs.tree.WellFormed) (project : Project) :
    project.override? fs₁ = project.override? fs := by
  have same := h.filter_files wf (P := (·.toLower == Project.overrideName))
    (fun _ => Generator.not_overrideName) project
  unfold Project.override?
  rw [← List.head?_filter, same, List.head?_filter]

/-- A project keeps the options in force. -/
theorem ofProject (wf : fs.tree.WellFormed) (base : Options) (project : Project) :
    (Settings.ofProject fs₁ base project).toOption =
      (Settings.ofProject fs base project).toOption := by
  unfold Settings.ofProject
  rw [h.override? wf]
  cases found : project.override? fs with
  | none => rfl
  | some path =>
    have named : path.fileName?.any (·.toLower == Project.overrideName) = true := by
      unfold Project.override? at found
      exact @List.find?_some Path _ path _ found
    have read : (fs₁.read path).toOption = (fs.read path).toOption :=
      h.read fun n shown written => by
      rw [shown, Option.any_some, Generator.not_overrideName written] at named
      cases named
    simp only
    cases after : fs₁.read path <;> cases before : fs.read path <;> rw [after, before] at read
    · rfl
    · cases read
    · cases read
    · cases read
      rfl

omit h in
theorem settings_load (same : (fs₁.read p).toOption = (fs.read p).toOption) :
    (Settings.load fs₁ p).toOption = (Settings.load fs p).toOption := by
  unfold Settings.load
  cases after : fs₁.read p <;> cases before : fs.read p <;> rw [after, before] at same
  · rfl
  · cases same
  · cases same
  · cases same
    rfl

/-- The global options stay unless the file they are asked from is written. -/
theorem loadGlobal {home config : Option Path}
    (kept : ∀ p ∈ config, (fs₁.read p).toOption = (fs.read p).toOption) :
    (Settings.loadGlobal fs₁ home config).toOption =
      (Settings.loadGlobal fs home config).toOption := by
  cases config with
  | some path => exact settings_load (kept path rfl)
  | none =>
    cases home with
    | none => rfl
    | some home =>
      have entry : Path.IsEntry Project.globalName := by
        unfold Path.IsEntry
        decide
      have read : (fs₁.read (home.join ⟨Project.globalName⟩)).toOption =
          (fs.read (home.join ⟨Project.globalName⟩)).toOption :=
            h.read fun n shown written => by
        rw [Path.fileName?_join entry] at shown
        rw [← Option.some.inj shown] at written
        exact absurd written (by decide)
      unfold Settings.loadGlobal
      simp only
      rw [isSome_node?, isSome_node?, h.resolve_of_read read]
      split
      · exact settings_load read
      · rfl

end Rewritten

end FileSystem

end Ambient
