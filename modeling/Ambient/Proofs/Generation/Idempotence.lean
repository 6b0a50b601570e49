import Ambient.Proofs.Generation.Inputs
import Ambient.Proofs.Path.Way
import Ambient.Proofs.Rendering.Headers
import Ambient.Proofs.Rendering.Reading
import Ambient.Proofs.Translation.Lined

/-!
# Generating is idempotent

A run on what the same run left changes nothing, unless directives are kept and the text that was
written does not give them back: it does exactly if each lies on one line, and none of the lines of
a declaration is one.
-/
namespace Ambient

open Host Text

namespace Generator
variable {g g₁ again : Generator} {fs fs₁ : FileSystem} {file : File} {source : Path}
  {o : Outcome}

/-- The text of the declarations that the mode leaves. -/
def body (g : Generator) (fs : FileSystem) (file : File) : String :=
  Render.groups g.options (g.included fs file)

/-- The directives of a file can be read back from its text. -/
structure ReadsBack (g : Generator) (fs : FileSystem) (file : File) : Prop where
  lines : ∀ path ∈ g.references fs file, OneLine path
  plain : Directive.parse (g.body fs file) = []

theorem rendered_of_empty (none : g.included fs file = []) (references : List String) :
    render (g.translation fs file).1 references g.options g.mode = ⟨"", true⟩ := by
  unfold included at none
  unfold render
  rw [none]
  rfl

theorem rendered_of_some (some : g.included fs file ≠ []) (references : List String) :
    render (g.translation fs file).1 references g.options g.mode =
      ⟨Render.header references ++ g.body fs file, false⟩ := by
  unfold included at some
  unfold render
  simp only
  rw [if_neg (by simpa using some)]
  rfl

/-- Directives stand in order. -/
theorem sorted_references : Directive.sorted (g.references fs file) = g.references fs file := by
  unfold references Directive.settle
  split
  · exact Directive.sorted_sorted _
  · exact Directive.sorted_computed _ _ _ _

/-- A directive on several lines was computed, so it has no two slashes in a row. -/
theorem references_apart (ext : g.options.generatedFileExtension = ".d.ts")
    (absolute : file.path.isAbsolute = true) {name : String}
    (shown : file.path.fileName? = some name) :
    ∀ path ∈ g.references fs file, '\n' ∈ path.toList → ¬ ['/', '/'] <:+: path.toList := by
  intro path hp feed
  unfold references Directive.settle at hp
  split at hp
  · exact absurd feed (Directive.newline_notMem_of_mem_parse (List.mem_mergeSort.mp hp))
  · exact Directive.apart_of_mem_computed
      (OutputNaming.isAbsolute_parent_outputPath ext absolute shown) hp

theorem isAbsolute_of_canonical {path : Path} (h : fs.canonical source = .ok path) :
    path.isAbsolute = true := by
  unfold FileSystem.canonical at h
  cases resolved : fs.resolve source with
  | error trouble => rw [resolved] at h; cases h
  | ok place =>
    rw [resolved] at h
    cases h
    rw [Path.isAbsolute_iff, FileSystem.pathOf, String.toList_append]
    rfl

/-- The text written anew is the text that stands exactly if the directives are not kept or can be
read back from it. -/
theorem text_again_iff (ext : g.options.generatedFileExtension = ".d.ts")
    (absolute : file.path.isAbsolute = true) {name : String}
    (shown : file.path.fileName? = some name)
    (repeats : g.Repeats again fs fs₁ file) (sidecars : g.RereadsSidecars fs fs₁ file)
    (previous : (fs₁.read (g.naming.outputPath file.path)).toOption =
      some (g.translateFile fs file).rendered.text) :
    (again.translateFile fs₁ file).rendered.text = (g.translateFile fs file).rendered.text ↔
      (g.options.keepReferencesUnchanged = true → g.included fs file ≠ [] →
        g.ReadsBack fs file) := by
  have anew := repeats.references sidecars
  rw [repeats.translateFile sidecars]
  rw [translateFile_eq] at previous ⊢
  rw [previous] at anew
  by_cases none : g.included fs file = []
  · simp [rendered_of_empty none, none]
  simp only [rendered_of_some none] at anew ⊢
  have cancel : ∀ a b : String, a ++ g.body fs file = b ++ g.body fs file ↔ a = b := by
    intro a b
    rw [← String.toList_inj, String.toList_append, String.toList_append,
      List.append_cancel_right_eq, String.toList_inj]
  rw [cancel]
  by_cases keep : g.options.keepReferencesUnchanged = true
  · have shownText : Text.blank
        (Render.header (g.references fs file) ++ g.body fs file) = false := by
      unfold body
      rw [Text.blank_append, Render.not_blank_groups none, Bool.and_false]
    have kept : again.references fs₁ file =
        Directive.sorted
          (Directive.parse (Render.header (g.references fs file) ++ g.body fs file)) := by
      rw [anew, keep]
      unfold Directive.settle
      simp [Option.filter_some, shownText]
    rw [kept, Directive.header_sorted_parse_iff sorted_references
      (references_apart ext absolute shown)]
    constructor
    · exact fun back _ _ => ⟨back.1, back.2⟩
    · exact fun back => ⟨(back keep none).lines, (back keep none).plain⟩
  · have computed : again.references fs₁ file = g.references fs file := by
      rw [anew]
      unfold references Directive.settle
      simp [keep]
    rw [computed]
    exact ⟨fun _ yes => absurd yes keep, fun _ => rfl⟩

/-- Where the names recorded for types elsewhere lie on one line, no declaration
holds a directive. -/
theorem parse_body (default : OneLine g.options.defaultModuleName) (own : file.FromSource)
    (project : ∀ f ∈ g.projectFiles fs, f.FromSource)
    (single : ∀ t ∈ file.types, t.SingleLine) (homes : g.options.assumeExternalType = true →
      ∀ h ∈ (g.sidecarBefore fs file).homes, OneLine h.typeName) :
    Directive.parse (g.body fs file) = [] := by
  have lined : (g.setting fs file).Lined (g.sidecarBefore fs file) := by
    refine ⟨default, fun site written key e looked => ?_, homes⟩
    refine Setting.lined_of_lookup? own (fun f hf => ?_) looked
    rcases List.mem_cons.mp hf with rfl | other
    · exact own
    · have known := (List.mem_filter.mp other).1
      split at known
      · cases known
      · exact project f known
  have each := Setting.lined_translate alone_setting lined own single
  exact Directive.parse_of_leads (Render.leads_groups fun d hd => each d (List.mem_filter.mp hd).1)

theorem generate_of_load (loaded : load fs source = .ok file) :
    g.generate fs source = (g.prepare fs, g.write fs (g.translateFile fs file)) := by
  have options : (g.prepare fs).options = g.options := by
    unfold prepare
    split <;> rfl
  have mode : (g.prepare fs).mode = g.mode := by
    unfold prepare
    split <;> rfl
  unfold generate translate
  simp only [loaded, write_congr options mode]

/-- Whether anything is declared does not depend on directives. -/
theorem isEmpty_render (declarations : List Declaration) (a b : List String) (o : Options)
    (mode : RenderMode) :
    (render declarations a o mode).isEmpty = (render declarations b o mode).isEmpty := by
  unfold render
  simp only
  split <;> rfl

/-- A run that wrote repeated on what it left: it succeeds, and changes nothing exactly if its text
is the one that stands. -/
theorem write_again (ext : g.options.generatedFileExtension = ".d.ts")
    (repeats : g.Repeats again fs fs₁ file) (sidecars : g.RereadsSidecars fs fs₁ file)
    (produces : Produces (g.naming.outputPath file.path))
    (writes : g.skips (g.translateFile fs file) = false) (wf₁ : fs₁.tree.WellFormed)
    (holds : g.Holds (g.translateFile fs file) fs₁) :
    ∃ fs₂ o₂, again.write fs₁ (again.translateFile fs₁ file) = (fs₂, .ok o₂) ∧
      (fs₂ = fs₁ ↔
        (again.translateFile fs₁ file).rendered.text =
          (g.translateFile fs file).rendered.text) := by
  have whole : again.translateFile fs₁ file =
      { g.translateFile fs file with
        rendered := ⟨(again.translateFile fs₁ file).rendered.text,
          (g.translateFile fs file).rendered.isEmpty⟩ } := by
    rw [repeats.translateFile sidecars, translateFile_eq]
    simp only [isEmpty_render _ (g.references fs file) (again.references fs₁ file)]
  rw [write_congr repeats.options repeats.mode, whole]
  exact write_of_holds wf₁ ext produces settled_translation writes holds _

/-- Where a directory is there to write to, a run comes to an end. -/
theorem exists_write_ok {t : Translated} (able : (fs.target? t.output).isSome = true) :
    ∃ fs₁ o, g.write fs t = (fs₁, .ok o) := by
  by_cases skips : g.skips t = true
  · exact ⟨_, _, write_of_skips skips⟩
  · obtain ⟨fs₂, written⟩ := FileSystem.exists_write able t.rendered.text
    unfold Generator.skips at skips
    unfold write
    rw [if_neg skips, written]
    exact ⟨_, _, rfl⟩

/-- Generating again from a C# source succeeds, and it leaves all files as they are exactly if the
directives are not kept, nothing is declared, or the directives can be read back. They can if each
lies on one line, at least where no type elsewhere is recorded under a name on several lines. -/
theorem generate_again_iff (wf : fs.tree.WellFormed)
    (ext : g.options.generatedFileExtension = ".d.ts")
    (default : OneLine g.options.defaultModuleName) (loaded : load fs source = .ok file)
    (isSource : IsSource file.path)
    (project : ∀ f ∈ g.projectFiles fs, ∃ text, File.parse f.path text = .ok f)
    (single : ∀ t ∈ file.types, t.SingleLine) (ok : g.generate fs source = (g₁, fs₁, .ok o))
    (same : again = g₁ ∨ again = g) :
    ∃ fs₂ o₂, (again.generate fs₁ source).2 = (fs₂, .ok o₂) ∧
      (fs₂ = fs₁ ↔ (g.options.keepReferencesUnchanged = true → g.included fs file ≠ [] →
        g.ReadsBack fs file)) ∧
      ((g.options.assumeExternalType = true →
          ∀ h ∈ (g.sidecarBefore fs file).homes, OneLine h.typeName) →
        (g.ReadsBack fs file ↔ ∀ path ∈ g.references fs file, OneLine path)) := by
  obtain ⟨canonical, -, text, parsed⟩ := canonical_of_load loaded isSource
  have lines : (g.options.assumeExternalType = true →
      ∀ h ∈ (g.sidecarBefore fs file).homes, OneLine h.typeName) →
      (g.ReadsBack fs file ↔ ∀ path ∈ g.references fs file, OneLine path) := by
    intro homes
    have plain := parse_body default (fromSource_of_parse parsed).1 (fun f hf => by
      obtain ⟨text, read⟩ := project f hf
      exact (fromSource_of_parse read).1) single homes
    exact ⟨fun back => back.lines, fun one => ⟨one, plain⟩⟩
  rw [generate_of_load loaded] at ok
  obtain ⟨rfl, run⟩ := Prod.mk.inj ok
  obtain ⟨name, shown, -⟩ := id isSource
  by_cases skips : g.skips (g.translateFile fs file) = true
  · rw [write_of_skips skips] at run
    obtain ⟨rfl, -⟩ := Prod.mk.inj run
    have repeats := @repeats_of_rewritten g again fs fs file wf (.refl wf) same
    have unchanged : again.translateFile fs file = g.translateFile fs file := by
      rw [repeats.translateFile fun o => .inl rfl, repeats.references fun o => .inl rfl]
      rfl
    have second : (again.generate fs source).2 =
        (fs, .ok ⟨(g.translateFile fs file).output, false, [], []⟩) := by
      rw [generate_of_load loaded, unchanged, write_congr repeats.options repeats.mode,
        write_of_skips skips]
    refine ⟨fs, _, second, ⟨fun _ _ some => ?_, fun _ => rfl⟩, lines⟩
    rw [Generator.skips, translateFile_eq, rendered_of_some some] at skips
    cases skips
  · have writes : g.skips (g.translateFile fs file) = false := eq_false_of_ne_true skips
    have produces : Produces (g.naming.outputPath file.path) :=
      .inr fun name shown => OutputNaming.endsWith_outputPath ext shown
    obtain ⟨changed, holds, sidecars⟩ :=
      @holds_of_write g fs fs₁
        (g.translateFile fs file) o wf ext produces settled_translation writes run
    have repeats := @repeats_of_rewritten g again fs fs₁ file wf changed same
    obtain ⟨fs₂, o₂, second, unchanged⟩ :=
      write_again ext repeats sidecars produces writes changed.wellFormed holds
    have previous : (fs₁.read (g.naming.outputPath file.path)).toOption =
        some (g.translateFile fs file).rendered.text := by
      obtain ⟨place, target⟩ := Option.isSome_iff_exists.mp holds.able
      rw [FileSystem.toOption_read]
      have found := FileSystem.place?_of_target? target
      rw [translateFile_eq] at found
      rw [found]
      exact holds.text place target
    refine ⟨fs₂, o₂, ?_, unchanged.trans ?_, lines⟩
    · rw [generate_of_load (load_of_rewritten changed loaded isSource)]
      exact second
    · exact text_again_iff ext (isAbsolute_of_canonical canonical) shown repeats sidecars previous

def personText : String :=
  "namespace App \x7b public class Person \x7b public Address Home \x7b get; set; \x7d \x7d \x7d"

def addressText : String :=
  "namespace App \x7b public class Address \x7b public string Street \x7b get; set; \x7d \x7d \x7d"

def personClass : TypeDecl :=
  ⟨"Person", "App", .classKind, [], none, [⟨"Home", "Address", none, none, []⟩], [], []⟩

def addressClass : TypeDecl :=
  ⟨"Address", "App", .classKind, [], none, [⟨"Street", "string", none, none, []⟩], [], []⟩

def personFile : File := ⟨⟨"/p/Person.cs"⟩, [], [personClass], []⟩

def addressFile : File := ⟨⟨"/p/Address.cs"⟩, [], [addressClass], []⟩

/-- A project in which the sidecar of one output gives it a name on two lines. -/
def renamed : FileSystem :=
  ⟨.dir [("p", .dir [("Address.cs", .file addressText),
    ("Address.cs.d.ts.map", .file "\x7b\"CustomName\":\"a\\nb\"\x7d"),
    ("Person.cs", .file personText)])], ["p"]⟩

/-- A generator that keeps directives. -/
def keeper : Generator :=
  .new ⟨⟨"/p"⟩, "App"⟩ { Options.default with keepReferencesUnchanged := true } .full

theorem parse_person : File.parse ⟨"/p/Person.cs"⟩ personText = .ok personFile := by
  with_unfolding_all rfl

theorem parse_address : File.parse ⟨"/p/Address.cs"⟩ addressText = .ok addressFile := by
  with_unfolding_all rfl

theorem load_person : load renamed ⟨"Person.cs"⟩ = .ok personFile := by
  have canonical : renamed.canonical ⟨"Person.cs"⟩ = .ok ⟨"/p/Person.cs"⟩ := rfl
  have read : renamed.read ⟨"/p/Person.cs"⟩ = .ok personText := rfl
  have source : isDocument ⟨"/p/Person.cs"⟩ = false := isDocument_of_isSource ⟨_, rfl, rfl⟩
  unfold load Host.File.load
  simp only [canonical, read, source, parse_person, Bool.false_eq_true, if_false]

theorem projectFiles_renamed : keeper.projectFiles renamed = [addressFile, personFile] := by
  have sources : keeper.project.sources renamed =
      [⟨"/p/Address.cs"⟩, ⟨"/p/Person.cs"⟩] := by
    decide +kernel
  have person : Host.File.load renamed ⟨"/p/Person.cs"⟩ = .ok personFile := load_person
  have address : Host.File.load renamed ⟨"/p/Address.cs"⟩ = .ok addressFile := by
    have read : renamed.read ⟨"/p/Address.cs"⟩ = .ok addressText := rfl
    have source : isDocument ⟨"/p/Address.cs"⟩ = false :=
      isDocument_of_isSource ⟨_, rfl, rfl⟩
    unfold Host.File.load
    simp only [read, source, parse_address, Bool.false_eq_true, if_false]
  unfold projectFiles
  have fresh : keeper.known = none := rfl
  simp only [fresh, sources, List.filterMap_cons, person, address, toOption_ok, List.filterMap_nil]

def personSetting : Setting :=
  .of personFile (.ofFiles "App" ⟨"/p"⟩ [personFile, addressFile]) keeper.options

theorem setting_renamed : keeper.setting renamed personFile = personSetting := by
  unfold setting index
  rw [projectFiles_renamed]
  with_unfolding_all rfl

def addressEntry : Entry := ⟨addressClass, none, some ⟨"/p/Address.cs"⟩⟩

theorem lookup?_address : personSetting.lookup? (personSetting.siteOf personClass) "Address" =
    some ("App.Address", addressEntry) := by
  with_unfolding_all rfl

theorem references_person :
    (personSetting.classObject .empty personClass).references = [⟨"/p/Address.cs.d.ts"⟩] := by
  have subject : Member.subject? ⟨"Home", "Address", none, none, []⟩ = some "Address" := by
    with_unfolding_all rfl
  have sense : personSetting.sense [personClass.qualifiedName] (personSetting.siteOf personClass)
      "Address" = .declared "App.Address" addressEntry := by
    unfold Setting.sense
    rw [lookup?_address]
    rfl
  have visits : personSetting.classVisits .empty personClass =
      [.declared "App.Address" addressEntry] := by
    have base : personSetting.baseFound .empty personClass = none := by
      simp [Setting.baseFound, personClass, Setting.searchBase]
    have members : personClass.members.filter (!·.isIgnored) = personClass.members := by
      with_unfolding_all rfl
    have met : personSetting.visits .empty [personClass.qualifiedName]
        (personSetting.siteOf personClass) "Address" = [.declared "App.Address" addressEntry] := by
      rw [Setting.visits_eq]
      simp only [sense]
    have own : personClass.members = [⟨"Home", "Address", none, none, []⟩] := rfl
    unfold Setting.classVisits Setting.memberVisits
    rw [base, members, own, List.flatMap_singleton, subject, Option.elim_some, met]
    rfl
  unfold Setting.classObject
  rw [visits]
  decide +kernel

theorem translation_renamed : keeper.translation renamed personFile =
    ([personSetting.classObject .empty personClass],
      (personSetting.homesOf .empty [personClass]).foldl Sidecar.record .empty) := by
  have start : keeper.sidecarBefore renamed personFile = .empty := by
    with_unfolding_all rfl
  unfold translation
  rw [setting_renamed, start, Setting.translate_eq _ fun assumes => by cases assumes]
  rfl

theorem references_renamed : keeper.references renamed personFile = ["a\nb.d.ts"] := by
  have missing : (renamed.read ⟨"/p/Person.cs.d.ts"⟩).toOption = none := rfl
  have given : Sidecar.load? renamed ⟨"/p/Address.cs.d.ts"⟩ =
      some ⟨some "a\nb", [], []⟩ := by
    with_unfolding_all rfl
  have path : Directive.pathTo keeper.naming (Sidecar.load? renamed) ⟨"/p"⟩
      ⟨"/p/Address.cs.d.ts"⟩ = "a\nb.d.ts" := by
    unfold Directive.pathTo
    rw [given]
    decide +kernel
  have own : keeper.naming.outputPath personFile.path = ⟨"/p/Person.cs.d.ts"⟩ := rfl
  have dir : Path.parent ⟨"/p/Person.cs.d.ts"⟩ = ⟨"/p"⟩ := by decide +kernel
  have needs : Directive.dependencies [personSetting.classObject .empty personClass]
      ⟨"/p/Person.cs.d.ts"⟩ = [⟨"/p/Address.cs.d.ts"⟩] := by
    unfold Directive.dependencies
    rw [List.flatMap_singleton, references_person]
    decide +kernel
  unfold references
  rw [translation_renamed, own, missing]
  unfold Directive.settle Directive.computed
  simp only [Option.filter_none, own, dir, needs, List.map_singleton, path]
  rw [Directive.sorted, List.mergeSort_singleton]
  rfl

/-- A name on two lines is not kept. -/
theorem generate_again_of_renamed : ∃ fs₁ o fs₂ o₂,
    keeper.generate renamed ⟨"Person.cs"⟩ = (keeper.prepare renamed, fs₁, .ok o) ∧
      (keeper.generate fs₁ ⟨"Person.cs"⟩).2 = (fs₂, .ok o₂) ∧ fs₂ ≠ fs₁ := by
  obtain ⟨fs₁, o, run⟩ :=
    @exists_write_ok keeper renamed (keeper.translateFile renamed personFile) (by decide +kernel)
  have first : keeper.generate renamed ⟨"Person.cs"⟩ =
      (keeper.prepare renamed, fs₁, .ok o) := by
    rw [generate_of_load load_person, run]
  have wf : renamed.tree.WellFormed := by
    simp only [renamed, FileTree.WellFormed, FileTree.WellFormedIn]
    decide
  have sources : ∀ f ∈ keeper.projectFiles renamed, ∃ text,
      File.parse f.path text = .ok f := by
    rw [projectFiles_renamed]
    intro f hf
    rcases List.mem_cons.mp hf with rfl | hf
    · exact ⟨_, parse_address⟩
    · rw [List.mem_singleton.mp hf]
      exact ⟨_, parse_person⟩
  have single : ∀ t ∈ personFile.types, t.SingleLine := by
    intro t ht
    rw [List.mem_singleton.mp ht]
    exact .intro (fun enum => by cases enum) (fun u hu => by cases hu)
  obtain ⟨fs₂, o₂, second, unchanged, -⟩ :=
    generate_again_iff wf rfl (by decide) load_person
    ⟨"Person.cs", rfl, rfl⟩ sources single first (.inr rfl)
  refine ⟨fs₁, o, fs₂, o₂, first, second, fun same => ?_⟩
  have some : keeper.included renamed personFile ≠ [] := by
    unfold included
    rw [translation_renamed]
    exact List.cons_ne_nil _ _
  have lines := (unchanged.mp same rfl some).lines
  rw [references_renamed] at lines
  exact absurd (lines "a\nb.d.ts" List.mem_cons_self) (by decide)

end Generator

end Ambient
