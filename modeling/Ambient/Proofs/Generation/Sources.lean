import Ambient.Proofs.Generation.Footprint
import Ambient.Proofs.Generation.Inputs

/-!
# What a run does to sources

A run can write over a source: where its output or a copy leads to the same place, the source holds
the rendered text afterwards. Nothing else of it touches a source, and with an ending that no source
has it touches none.
-/
namespace Ambient

namespace OutputNaming

/-- The ending of generated files is no part of the ending of a source, and the other way round. -/
def Apart (n : OutputNaming) : Prop := ∀ suffix ∈ [".cs", Project.documentSuffix],
  ¬ n.ending.toList <:+ suffix.toList ∧ ¬ suffix.toList <:+ n.ending.toList

instance (n : OutputNaming) : Decidable n.Apart :=
  inferInstanceAs (Decidable (∀ suffix ∈ [".cs", Project.documentSuffix], _ ∧ _))

theorem Apart.not_isSourceName {n : OutputNaming} (apart : n.Apart) {name : String}
    (ends : Text.endsWith name n.ending = true) : Project.isSourceName name = false := by
  have other : ∀ suffix ∈ [".cs", Project.documentSuffix],
      Text.endsWith name suffix = false := by
    intro suffix hs
    rw [Bool.eq_false_iff]
    intro also
    rcases List.suffix_or_suffix_of_suffix (List.isSuffixOf_iff_suffix.mp ends)
      (List.isSuffixOf_iff_suffix.mp also) with own | source
    · exact (apart suffix hs).1 own
    · exact (apart suffix hs).2 source
  unfold Project.isSourceName
  rw [other _ (by simp), other _ (by simp)]
  rfl

end OutputNaming

namespace FileSystem
variable {fs : FileSystem} {p w : Path} {place : List String}

theorem read_eq_of_resolve (there : fs.resolve w = .ok place) (here : fs.resolve p = .ok place) :
    fs.read p = fs.read w := by
  unfold read
  rw [there, here]

end FileSystem

namespace Generator
variable {g : Generator} {fs after : FileSystem} {t : Translated} {o : Outcome} {source p w : Path}
  {place : List String}

/-- What a run does is what writing its translation does. -/
theorem generate_of_translate (translated : (g.translate fs source).2 = .ok t) :
    (g.generate fs source).2 = g.write fs t := by
  unfold generate
  cases both : g.translate fs source with
  | mk g' result =>
    rw [both] at translated
    obtain rfl : result = .ok t := translated
    obtain ⟨options, mode⟩ := settings_translate both
    exact write_congr options mode

theorem generate_of_error {failure : Failure}
    (failed : (g.translate fs source).2 = .error failure) :
    (g.generate fs source).2 = (fs, .error failure) := by
  unfold generate
  cases both : g.translate fs source with
  | mk g' result =>
    rw [both] at failed
    obtain rfl : result = .error failure := failed
    rfl

/-- Paths that lead to one place end in one name, that of a source or not. -/
theorem isSourceName_of_resolve {name : String} (there : fs.resolve w = .ok place)
    (here : fs.resolve p = .ok place) (shown : w.fileName? = some name)
    (source : p.fileName?.any Project.isSourceName = true) : Project.isSourceName name = true := by
  cases own : p.fileName? with
  | none => rw [own] at source; cases source
  | some other =>
    have last := FileSystem.getLast?_of_resolve there shown
    rw [FileSystem.getLast?_of_resolve here own] at last
    rw [own, Option.any_some, Option.some.inj last] at source
    exact source

theorem sidecar_apart {output : Path} (there : fs.resolve (OutputNaming.mapPath output) = .ok place)
    (here : fs.resolve p = .ok place) : ¬ p.fileName?.any Project.isSourceName = true := by
  intro source
  obtain ⟨name, shown, ends⟩ := @OutputNaming.endsWith_mapPath output
  have also := isSourceName_of_resolve there here shown source
  rw [not_isSourceName (.inr ends)] at also
  cases also

/-- The output or a copy leads to the place of `p`. -/
def Covers (after : FileSystem) (t : Translated) (o : Outcome) (p : Path) : Prop :=
  ∃ w ∈ t.output :: o.copies, ∃ place, after.resolve w = .ok place ∧
    after.resolve p = .ok place

/-- A source that is written over holds the rendered text. -/
theorem Footprint.read_of_covers (left : g.Footprint fs after t o)
    (source : p.fileName?.any Project.isSourceName = true) (covers : Covers after t o p) :
    after.read p = .ok t.rendered.text := by
  obtain ⟨w, hw, place, there, here⟩ := covers
  rw [FileSystem.read_eq_of_resolve there here]
  rcases List.mem_cons.mp hw with rfl | copy
  · exact left.text
  · rcases left.copied w copy with text | ⟨place', there', map⟩
    · exact text
    · rw [there] at there'
      exact absurd source (sidecar_apart (Except.ok.inj there' ▸ map) here)

/-- A source that is not written over is left alone. -/
theorem Footprint.read_of_not_covers (left : g.Footprint fs after t o)
    (source : p.fileName?.any Project.isSourceName = true) (not : ¬ Covers after t o p) :
    (after.read p).toOption = (fs.read p).toOption := by
  refine left.others p fun w hw place there here => ?_
  rcases List.mem_cons.mp hw with rfl | later
  · exact not ⟨_, List.mem_cons_self, place, there, here⟩
  rcases List.mem_cons.mp later with rfl | copy
  · exact sidecar_apart there here source
  · exact not ⟨w, List.mem_cons_of_mem _ copy, place, there, here⟩

theorem Footprint.keeps_iff (left : g.Footprint fs after t o)
    (source : p.fileName?.any Project.isSourceName = true) :
    (after.read p).toOption = (fs.read p).toOption ↔
      (Covers after t o p → fs.read p = .ok t.rendered.text) := by
  by_cases covers : Covers after t o p
  · rw [left.read_of_covers source covers]
    constructor
    · intro same _
      exact toOption_eq_some_iff.mp same.symm
    · intro same
      rw [same covers]
  · exact ⟨fun _ covers' => absurd covers' covers,
      fun _ => left.read_of_not_covers source covers⟩

theorem output_of_translate (translated : (g.translate fs source).2 = .ok t) :
    t.output = g.naming.outputPath t.source := by
  unfold translate at translated
  cases loaded : load fs source with
  | error failure => rw [loaded] at translated; cases translated
  | ok file =>
    rw [loaded] at translated
    obtain rfl := Except.ok.inj translated
    rfl

theorem Footprint.exists_name (left : g.Footprint fs after t o) (shows : g.naming.Shows)
    (output : t.output = g.naming.outputPath t.source) (hw : w ∈ t.output :: o.copies) :
    ∃ name, w.fileName? = some name ∧ Text.endsWith name g.naming.ending = true := by
  rcases List.mem_cons.mp hw with rfl | copy
  · have found := FileSystem.toOption_read after t.output
    rw [left.text] at found
    obtain ⟨place, named, -⟩ := Option.bind_eq_some_iff.mp found.symm
    obtain ⟨name, -, shown, -⟩ := FileSystem.getLast?_of_place? named
    refine ⟨name, shown, ?_⟩
    rw [output] at shown
    exact OutputNaming.endsWith_ending shows shown
  · rw [left.copies] at copy
    obtain ⟨target, written⟩ := List.mem_filter.mp copy
    rw [FileSystem.isOk_write] at written
    obtain ⟨place, room⟩ := Option.isSome_iff_exists.mp written
    have named := FileSystem.place?_of_target? room
    obtain ⟨name, -, shown, -⟩ := FileSystem.getLast?_of_place? named
    rcases copyTargets_cases shows w target with never | each
    · rw [never fs] at named
      cases named
    · exact ⟨name, shown, each name shown⟩

/-- With an ending apart from those of sources, nothing is written over a source. -/
theorem Footprint.not_covers (left : g.Footprint fs after t o) (shows : g.naming.Shows)
    (apart : g.naming.Apart) (output : t.output = g.naming.outputPath t.source)
    (source : p.fileName?.any Project.isSourceName = true) : ¬ Covers after t o p := by
  rintro ⟨w, hw, place, there, here⟩
  obtain ⟨name, shown, ends⟩ := left.exists_name shows output hw
  have also := isSourceName_of_resolve there here shown source
  rw [apart.not_isSourceName ends] at also
  cases also

/-- A run that does not write leaves the tree alone. -/
theorem generate_cases (wf : fs.tree.WellFormed) :
    ((g.generate fs source).2.1 = fs ∧
        ∀ o, (g.generate fs source).2.2 = .ok o → o.written = false) ∨
      ∃ t o, (g.translate fs source).2 = .ok t ∧ (g.generate fs source).2.2 = .ok o ∧
        o.written = true ∧ g.Footprint fs (g.generate fs source).2.1 t o := by
  cases translated : (g.translate fs source).2 with
  | error failure =>
    rw [generate_of_error translated]
    exact .inl ⟨rfl, fun o ok => by cases ok⟩
  | ok t =>
    rw [generate_of_translate translated]
    cases ran : (g.write fs t).2 with
    | error failure => exact .inl ⟨write_of_error ran, fun o ok => by cases ok⟩
    | ok o =>
      rcases footprint_of_write wf (Prod.ext rfl ran) with ⟨skipped, same⟩ | ⟨written, left⟩
      · exact .inl ⟨same, fun o' ok => Except.ok.inj ok ▸ skipped⟩
      · exact .inr ⟨t, o, rfl, rfl, written, left⟩

/-- A source keeps its text unless the run writes another text over it, to its output or to a copy.
With an ending apart from those of sources every source keeps its text. -/
theorem generate_keeps_sources (g : Generator) (source : Path) (wf : fs.tree.WellFormed) :
    let after := (g.generate fs source).2.1
    (∀ p ∈ g.project.sources fs, (after.read p).toOption = (fs.read p).toOption ↔
        ∀ t o, (g.translate fs source).2 = .ok t → (g.generate fs source).2.2 = .ok o →
          o.written = true → Covers after t o p → fs.read p = .ok t.rendered.text) ∧
      (g.naming.Shows → g.naming.Apart →
        ∀ p ∈ g.project.sources fs, (after.read p).toOption = (fs.read p).toOption) := by
  intro after
  rcases @generate_cases g fs source wf with
    ⟨same, unwritten⟩ | ⟨t, o, translated, ran, written, left⟩
  · have kept : ∀ p, (after.read p).toOption = (fs.read p).toOption := by
      intro p
      show ((g.generate fs source).2.1.read p).toOption = _
      rw [same]
    refine ⟨fun p _ => ⟨fun _ t o _ ok writes => ?_, fun _ => kept p⟩,
      fun _ _ p _ => kept p⟩
    exact absurd ((unwritten o ok).symm.trans writes) (by decide)
  · refine ⟨fun p hp => ?_, fun shows apart p hp => ?_⟩
    · rw [left.keeps_iff (List.mem_filter.mp hp).2]
      constructor
      · intro covered t' o' translated' ran' _
        obtain rfl := Except.ok.inj (translated.symm.trans translated')
        obtain rfl := Except.ok.inj (ran.symm.trans ran')
        exact covered
      · intro covered
        exact covered t o translated ran written
    · exact left.read_of_not_covers (List.mem_filter.mp hp).2
        (left.not_covers shows apart (output_of_translate translated) (List.mem_filter.mp hp).2)

/-- The copy in the directory of the source does not lead to the source, and neither
does the output. -/
theorem generate_keeps_sources_of_copied :
    copied.tree.WellFormed ∧ copier.naming.Shows ∧ copier.naming.Apart ∧
      ⟨"/p/E.cs"⟩ ∈ copier.project.sources copied ∧
      ((copier.generate copied ⟨"E.cs"⟩).2.1.read ⟨"/p/E.cs"⟩).toOption =
        (copied.read ⟨"/p/E.cs"⟩).toOption := by
  have wf : copied.tree.WellFormed := by
    simp only [copied, FileTree.WellFormed, FileTree.WellFormedIn]
    decide
  have shows : copier.naming.Shows := OutputNaming.shows_of_extension rfl
  have apart : copier.naming.Apart := by decide
  have source : ⟨"/p/E.cs"⟩ ∈ copier.project.sources copied := by decide +kernel
  have kept := (generate_keeps_sources copier ⟨"E.cs"⟩ wf).2 shows apart _ source
  exact ⟨wf, shows, apart, source, kept⟩

def enumText : String := "public enum E \x7b A \x7d"

def declaredText : String :=
  "declare module Server.Dtos \x7b\n\tconst enum E \x7b\n\t\tA,\n\t\x7d\n\x7d\n"

/-- A project with one source. -/
def single : FileSystem :=
  ⟨.dir [("p", .dir [("App.csproj", .file ""), ("E.cs", .file enumText)])], ["p"]⟩

/-- Options with which an output has the name of its source. -/
def sameName : Options :=
  { Options.default with includeSourceExtension := false, generatedFileExtension := ".cs" }

def replacer : Generator := .new ⟨⟨"/p"⟩, "App"⟩ sameName .full

def sameNameText : String :=
  "\x7b\"IncludeOriginalExtension\": false, \"GeneratedFileExtension\": \".cs\"\x7d"

/-- Nothing keeps an extension from being that of the sources. The output then takes the place of
the source it is made from. -/
theorem generate_replaces_source :
    Options.parseJson sameNameText = .ok sameName ∧
      ⟨"/p/E.cs"⟩ ∈ replacer.project.sources single ∧
      single.read ⟨"/p/E.cs"⟩ = .ok enumText ∧
      (replacer.generate single ⟨"E.cs"⟩).2.1.read ⟨"/p/E.cs"⟩ = .ok declaredText ∧
      enumText ≠ declaredText := by
  refine ⟨?_, ?_, rfl, ?_, by decide⟩
  · with_unfolding_all rfl
  · decide +kernel
  · with_unfolding_all rfl

end Generator

end Ambient
