import Ambient.Proofs.Path.Relative
import Ambient.Proofs.Resolution.Reach
import Ambient.Proofs.Text.Order
import Mathlib.Data.List.Sort
import Mathlib.Data.Set.Function

/-!
# Where directives lead

The directives of an output are in order and each stands for one of the outputs that its
declarations refer to: the path of a directive, taken from the directory of the output, leads there.
So they depend on nothing but the set of these outputs.
-/
namespace Ambient

/-- A file below the root with no dots on the way to it. -/
def Path.IsOrdinary (p : Path) : Prop := ∃ names, names ≠ [] ∧ p.Follows names

theorem OutputNaming.exists_follows_parent (n : OutputNaming) {source : Path}
    (ordinary : source.IsOrdinary) (plain : '/' ∉ n.extension.toList)
    (some : n.keepExtension = true ∨ n.bareExtension ≠ "") :
    ∃ names, (n.outputPath source).parent.Follows names := by
  obtain ⟨names, going, follows⟩ := ordinary
  unfold outputPath
  by_cases keep : n.keepExtension = true
  · rw [if_pos keep]
    exact Path.exists_follows_parent_append follows going plain
  · have bare : '/' ∉ n.bareExtension.toList := by
      rw [bareExtension, String.toList_ofList]
      exact fun slash => plain ((List.dropWhile_suffix _).subset slash)
    rw [if_neg keep]
    exact Path.exists_follows_parent_withExtension follows going bare (some.resolve_left keep)

namespace Directive

/-- The outputs that declarations refer to, each by its components. -/
def targets (declarations : List Declaration) : Set (List Path.Component) :=
  {cs | ∃ d ∈ declarations, ∃ output ∈ d.references, output.components = cs}

/-- The outputs that declarations refer to are ordinary files, and none has a given name. -/
structure Unnamed (sidecarOf : Path → Option Sidecar)
    (declarations : List Declaration) : Prop where
  ordinary : ∀ d ∈ declarations, ∀ output ∈ d.references, output.IsOrdinary
  nameless : ∀ d ∈ declarations, ∀ output ∈ d.references,
    (sidecarOf output).bind Sidecar.givenName = none

variable {naming : OutputNaming} {sidecarOf sidecarOf' : Path → Option Sidecar}
  {declarations others : List Declaration} {source own dir output : Path} {previous : Option String}
  {names : List String}

theorem settle_of_not_keep : settle naming false sidecarOf declarations source previous =
    computed naming sidecarOf declarations source := by
  have none : (previous.filter fun text => false && !Text.blank text) = none := by
    cases previous <;> rfl
  rw [settle, none]

theorem mem_of_mem_foldl_insertNew {paths more : List Path} {p : Path}
    (h : p ∈ more.foldl Path.insertNew paths) : p ∈ paths ∨ p ∈ more := by
  induction more generalizing paths with
  | nil => exact .inl h
  | cons q more ih =>
    rw [List.foldl_cons] at h
    rcases ih h with known | later
    · unfold Path.insertNew at known
      split at known
      · exact .inl known
      · rcases List.mem_append.mp known with old | new
        · exact .inl old
        · exact .inr (List.mem_singleton.mp new ▸ List.mem_cons_self)
    · exact .inr (List.mem_cons_of_mem q later)

theorem mem_references_of_mem_dependencies (h : output ∈ dependencies declarations own) :
    ∃ d ∈ declarations, output ∈ d.references := by
  have member := mem_of_mem_foldl_insertNew (List.mem_filter.mp h).1
  exact List.mem_flatMap.mp (member.resolve_left List.not_mem_nil)

/-- Up to sameness the dependencies are the outputs referred to without the own one. -/
theorem exists_mem_dependencies_iff {cs : List Path.Component} :
    (∃ output ∈ dependencies declarations own, output.components = cs) ↔
      cs ∈ targets declarations \ {own.components} := by
  have other : ∀ output : Path, (!own.same output) = true ↔
      output.components ≠ own.components := by
    intro output
    rw [Bool.not_eq_true', Bool.eq_false_iff, Ne, Path.same_iff, eq_comm]
  constructor
  · rintro ⟨output, member, rfl⟩
    obtain ⟨d, hd, refers⟩ := mem_references_of_mem_dependencies member
    exact ⟨⟨d, hd, output, refers, rfl⟩, (other output).mp (List.mem_filter.mp member).2⟩
  · rintro ⟨⟨d, hd, output, refers, rfl⟩, apart⟩
    have all : output ∈ [] ++ declarations.flatMap (·.references) :=
      List.mem_flatMap.mpr ⟨d, hd, refers⟩
    obtain ⟨first, member, same⟩ :=
      Path.exists_same_foldl_insertNew.mpr ⟨output, all, Path.same_iff.mpr rfl⟩
    rw [Path.same_iff] at same
    exact ⟨first, List.mem_filter.mpr ⟨member, (other first).mpr (same ▸ apart)⟩, same⟩

theorem mem_computed_iff {entry : String} :
    entry ∈ computed naming sidecarOf declarations source ↔
    ∃ output ∈ dependencies declarations (naming.outputPath source),
      pathTo naming sidecarOf (naming.outputPath source).parent output = entry := by
  unfold computed sorted
  rw [List.mem_eraseDups, List.mem_mergeSort, List.mem_map]

theorem pairwise_lt_eraseDups (paths : List String) (ordered : paths.Pairwise (· ≤ ·)) :
    paths.eraseDups.Pairwise (· < ·) := by
  match paths with
  | [] => exact List.Pairwise.nil
  | path :: more =>
    rw [List.eraseDups_cons]
    obtain ⟨first, rest⟩ := List.pairwise_cons.mp ordered
    have fewer := List.length_filter_le (fun b => !b == path) more
    refine List.Pairwise.cons ?_ (pairwise_lt_eraseDups _ (rest.sublist List.filter_sublist))
    intro other later
    obtain ⟨member, apart⟩ := List.mem_filter.mp (List.mem_eraseDups.mp later)
    exact lt_of_le_of_ne (first other member) fun same => by simp [same] at apart
termination_by paths.length
decreasing_by simp; omega

theorem pairwise_lt_computed : (computed naming sidecarOf declarations source).Pairwise (· < ·) :=
  pairwise_lt_eraseDups _ (pairwise_sorted _)

theorem computed_eq_of_pairwise {paths : List String}
    (written : (dependencies declarations (naming.outputPath source)).map
      (pathTo naming sidecarOf (naming.outputPath source).parent) = paths)
    (increasing : paths.Pairwise (· < ·)) :
    computed naming sidecarOf declarations source = paths :=
  List.Pairwise.eq_of_mem_iff pairwise_lt_computed increasing fun entry => by
    rw [mem_computed_iff, ← written, List.mem_map]

/-- A dependency is a file below the root without a given name. -/
theorem Unnamed.exists_follows (unnamed : Unnamed sidecarOf declarations)
    (member : output ∈ dependencies declarations own) :
    ∃ above name, output.Follows (above ++ [name]) ∧
      (sidecarOf output).bind Sidecar.givenName = none := by
  obtain ⟨d, hd, refers⟩ := mem_references_of_mem_dependencies member
  obtain ⟨path, some, follows⟩ := unnamed.ordinary d hd output refers
  obtain ⟨above, name, rfl⟩ := List.eq_nil_or_concat path |>.resolve_left some
  rw [List.concat_eq_append] at follows
  exact ⟨above, name, follows, unnamed.nameless d hd output refers⟩

section
variable (here : dir.Follows names) (unnamed : Unnamed sidecarOf declarations)
include here unnamed

theorem destination_dependency (member : output ∈ dependencies declarations own) :
    Path.destination (dir.join ⟨pathTo naming sidecarOf dir output⟩) = output.components := by
  obtain ⟨above, name, follows, nameless⟩ := unnamed.exists_follows member
  exact destination_pathTo here follows nameless

/-- Dependencies with the same components have the same directive, whatever they are
dependencies of. -/
theorem pathTo_dependency (unnamed' : Unnamed sidecarOf' others) {output' : Path}
    (member : output ∈ dependencies declarations own)
    (member' : output' ∈ dependencies others own)
    (same : output.components = output'.components) :
    pathTo naming sidecarOf dir output = pathTo naming sidecarOf' dir output' := by
  obtain ⟨above, name, follows, nameless⟩ := unnamed.exists_follows member
  obtain ⟨-, -, -, nameless'⟩ := unnamed'.exists_follows member'
  have follows' : output'.Follows (above ++ [name]) := same.symm.trans follows
  rw [pathTo_follows here follows nameless, pathTo_follows here follows' nameless']

end

section
variable (here : (naming.outputPath source).parent.Follows names)
include here

theorem bijOn_destination (unnamed : Unnamed sidecarOf declarations) :
    Set.BijOn (fun entry => Path.destination ((naming.outputPath source).parent.join ⟨entry⟩))
      {entry | entry ∈ computed naming sidecarOf declarations source}
      (targets declarations \ {(naming.outputPath source).components}) := by
  refine ⟨?_, ?_, ?_⟩
  · intro entry member
    obtain ⟨output, dependency, rfl⟩ := mem_computed_iff.mp member
    show Path.destination _ ∈ _
    rw [destination_dependency here unnamed dependency]
    exact exists_mem_dependencies_iff.mp ⟨output, dependency, rfl⟩
  · intro entry member entry' member' same
    obtain ⟨output, dependency, rfl⟩ := mem_computed_iff.mp member
    obtain ⟨output', dependency', rfl⟩ := mem_computed_iff.mp member'
    change Path.destination _ = Path.destination _ at same
    rw [destination_dependency here unnamed dependency,
      destination_dependency here unnamed dependency'] at same
    exact pathTo_dependency here unnamed unnamed dependency dependency' same
  · intro cs target
    obtain ⟨output, dependency, rfl⟩ := exists_mem_dependencies_iff.mpr target
    exact ⟨_, mem_computed_iff.mpr ⟨output, dependency, rfl⟩,
      destination_dependency here unnamed dependency⟩

theorem mem_computed_of_targets (unnamed : Unnamed sidecarOf declarations)
    (unnamed' : Unnamed sidecarOf' others) (same : targets others = targets declarations)
    {entry : String} (member : entry ∈ computed naming sidecarOf' others source) :
    entry ∈ computed naming sidecarOf declarations source := by
  obtain ⟨output', dependency', rfl⟩ := mem_computed_iff.mp member
  have target := exists_mem_dependencies_iff.mp ⟨output', dependency', rfl⟩
  rw [same] at target
  obtain ⟨output, dependency, equal⟩ := exists_mem_dependencies_iff.mpr target
  exact mem_computed_iff.mpr
    ⟨output, dependency, pathTo_dependency here unnamed unnamed' dependency dependency' equal⟩

/-- The directives depend on the set of the outputs referred to and on nothing else. -/
theorem computed_eq_of_targets (unnamed : Unnamed sidecarOf declarations)
    (unnamed' : Unnamed sidecarOf' others) (same : targets others = targets declarations) :
    computed naming sidecarOf' others source = computed naming sidecarOf declarations source :=
  List.Pairwise.eq_of_mem_iff pairwise_lt_computed pairwise_lt_computed fun _ =>
    ⟨mem_computed_of_targets here unnamed unnamed' same,
      mem_computed_of_targets here unnamed' unnamed same.symm⟩

end

/-- Directives stand in the order of their bytes, they lead to the outputs referred to other than
the own one, each to one of them, and they depend on the set of these outputs alone. This is so
where the own output is in a directory below the root, as it is for an ordinary source and an
extension without a slash. -/
theorem settle_leads_to_targets (naming : OutputNaming) (source : Path) :
    (source.IsOrdinary → '/' ∉ naming.extension.toList →
        naming.keepExtension = true ∨ naming.bareExtension ≠ "" →
        ∃ names, (naming.outputPath source).parent.Follows names) ∧
      ∀ names, (naming.outputPath source).parent.Follows names →
        ∀ sidecarOf declarations previous, Unnamed sidecarOf declarations →
          let own := naming.outputPath source
          let entries := settle naming false sidecarOf declarations source previous
          (entries.map Text.utf8).Pairwise (· < ·) ∧
            Set.BijOn (fun entry => Path.destination (own.parent.join ⟨entry⟩))
              {entry | entry ∈ entries} (targets declarations \ {own.components}) ∧
            ∀ sidecarOf' others previous', Unnamed sidecarOf' others →
              targets others = targets declarations →
              settle naming false sidecarOf' others source previous' = entries := by
  refine ⟨naming.exists_follows_parent, ?_⟩
  intro names here sidecarOf declarations previous unnamed own entries
  have fresh : entries = computed naming sidecarOf declarations source := settle_of_not_keep
  rw [fresh]
  refine ⟨?_, bijOn_destination here unnamed, ?_⟩
  · exact List.pairwise_map.mpr (pairwise_lt_computed.imp Text.utf8_lt)
  · intro sidecarOf' others previous' unnamed' same
    rw [settle_of_not_keep]
    exact computed_eq_of_targets here unnamed unnamed' same

/-- A declaration that refers to an output beside it and one in another directory. -/
def twoReferences : Declaration :=
  ⟨"Tree", "App", false, none, none, [], [⟨"/q/Ant.cs.d.ts"⟩, ⟨"/p/Zoo.cs.d.ts"⟩]⟩

theorem unnamed_twoReferences : Unnamed (fun _ => none) [twoReferences] := by
  refine ⟨fun d hd output refers => ?_, fun _ _ _ _ => rfl⟩
  rw [List.mem_singleton.mp hd] at refers
  simp only [twoReferences, List.mem_cons, List.not_mem_nil, or_false] at refers
  rcases refers with rfl | rfl
  · exact ⟨["q", "Ant.cs.d.ts"], by decide, by decide⟩
  · exact ⟨["p", "Zoo.cs.d.ts"], by decide, by decide⟩

/-- A declaration that stands twice adds nothing. -/
theorem settle_leads_to_targets_of_two :
    let naming := OutputNaming.ofOptions Options.default
    let source : Path := ⟨"/p/Tree.cs"⟩
    source.IsOrdinary ∧ '/' ∉ naming.extension.toList ∧ naming.keepExtension = true ∧
      Unnamed (fun _ => none) [twoReferences] ∧
      settle naming false (fun _ => none) [twoReferences] source none =
        ["../q/Ant.cs.d.ts", "Zoo.cs.d.ts"] ∧
      settle naming false (fun _ => none) [twoReferences, twoReferences] source none =
        ["../q/Ant.cs.d.ts", "Zoo.cs.d.ts"] := by
  intro naming source
  have ordinary : source.IsOrdinary := ⟨["p", "Tree.cs"], by decide, by decide⟩
  have plain : '/' ∉ naming.extension.toList := by decide
  have both := settle_leads_to_targets naming source
  obtain ⟨names, here⟩ := both.1 ordinary plain (.inl rfl)
  have entries : settle naming false (fun _ => none) [twoReferences] source none =
      ["../q/Ant.cs.d.ts", "Zoo.cs.d.ts"] :=
    settle_of_not_keep.trans (computed_eq_of_pairwise (by decide) (by decide))
  have same : targets [twoReferences, twoReferences] = targets [twoReferences] := by
    simp [targets]
  have twice : Unnamed (fun _ => none) [twoReferences, twoReferences] :=
    ⟨by simpa using unnamed_twoReferences.ordinary, fun _ _ _ _ => rfl⟩
  have again := (both.2 names here (fun _ => none) [twoReferences] none unnamed_twoReferences).2.2
    (fun _ => none) _ none twice same
  exact ⟨ordinary, plain, rfl, unnamed_twoReferences, entries, again.trans entries⟩

/-- An extension may hold a double dot. The output is then in no directory below the root, and the
directive of a file beside the source leads to another file. -/
theorem settle_misleads_of_dots_in_extension :
    let naming := OutputNaming.ofOptions { Options.default with generatedFileExtension := "/../x" }
    let source : Path := ⟨"/p/Tree.cs"⟩
    let own := naming.outputPath source
    let entries := settle naming false (fun _ => none) [twoReferences] source none
    source.IsOrdinary ∧ Unnamed (fun _ => none) [twoReferences] ∧
      entries = ["../../../q/Ant.cs.d.ts", "../../Zoo.cs.d.ts"] ∧
      Path.destination (own.parent.join ⟨"../../Zoo.cs.d.ts"⟩) =
        [.root, .normal "Zoo.cs.d.ts"] ∧
      ¬ Set.BijOn (fun entry => Path.destination (own.parent.join ⟨entry⟩))
        {entry | entry ∈ entries} (targets [twoReferences] \ {own.components}) := by
  intro naming source own entries
  have ordinary : source.IsOrdinary := ⟨["p", "Tree.cs"], by decide, by decide⟩
  have spelled : entries = ["../../../q/Ant.cs.d.ts", "../../Zoo.cs.d.ts"] :=
    settle_of_not_keep.trans (computed_eq_of_pairwise (by decide) (by decide))
  have leads : Path.destination (own.parent.join ⟨"../../Zoo.cs.d.ts"⟩) =
      [.root, .normal "Zoo.cs.d.ts"] := by decide +kernel
  refine ⟨ordinary, unnamed_twoReferences, spelled, leads, fun bijection => ?_⟩
  have entry : "../../Zoo.cs.d.ts" ∈ entries := by
    rw [spelled]
    decide
  obtain ⟨⟨d, hd, output, refers, same⟩, -⟩ := bijection.1 entry
  have components : output.components = [.root, .normal "Zoo.cs.d.ts"] := same.trans leads
  rw [List.mem_singleton.mp hd] at refers
  simp only [twoReferences, List.mem_cons, List.not_mem_nil, or_false] at refers
  rcases refers with rfl | rfl
  · exact absurd components (by decide)
  · exact absurd components (by decide)

end Directive

end Ambient
