import Ambient.Proofs.Generation.Again
import Ambient.Proofs.Source.Declarations

/-!
# The inputs of a run stay

A run writes outputs and sidecars, which are no sources. So a second run finds the same file and,
where it reads the other files of the project anew, the same files again.

A translation from what an earlier one left has the same declarations and the same sidecar. Its
directives are the earlier ones too, unless they are kept: then they are those in the earlier text.
-/

namespace Ambient

open Host

namespace Generator
variable {g again : Generator} {fs fs₁ : FileSystem} {file : File}

def setting (g : Generator) (fs : FileSystem) (file : File) : Setting :=
  .of file (g.index fs file) g.options

/-- The sidecar that a translation starts from. -/
def sidecarBefore (g : Generator) (fs : FileSystem) (file : File) : Sidecar :=
  (Sidecar.load? fs (g.naming.outputPath file.path)).getD .empty

def translation (g : Generator) (fs : FileSystem) (file : File) : List Declaration × Sidecar :=
  (g.setting fs file).translate (g.sidecarBefore fs file)

/-- The directives of a file. -/
def references (g : Generator) (fs : FileSystem) (file : File) : List String :=
  Directive.settle g.naming g.options.keepReferencesUnchanged (Sidecar.load? fs)
    (g.translation fs file).1 file.path (fs.read (g.naming.outputPath file.path)).toOption

/-- The declarations that the mode leaves. -/
def included (g : Generator) (fs : FileSystem) (file : File) : List Declaration :=
  (g.translation fs file).1.filter g.mode.includes

theorem translateFile_eq (g : Generator) (fs : FileSystem) (file : File) :
    g.translateFile fs file =
      ⟨file.path, g.naming.outputPath file.path,
        render (g.translation fs file).1 (g.references fs file) g.options g.mode,
        (g.translation fs file).2⟩ := rfl

theorem alone_setting (assumes : (g.setting fs file).options.assumeExternalType = true) :
    (g.setting fs file).Alone := by
  have assumes : g.options.assumeExternalType = true := assumes
  have own : g.index fs file = .ofFiles g.project.name g.project.root [file] := by
    unfold index
    rw [if_pos assumes]
    rfl
  unfold setting
  rw [own]
  exact Setting.alone_of_own file g.project.name g.project.root g.options

/-- Only the homes of a sidecar change, so a name given to the output stays. -/
theorem givenName_translation :
    (g.translation fs file).2.givenName =
      (Sidecar.load? fs (g.naming.outputPath file.path)).bind Sidecar.givenName := by
  unfold translation
  rw [Setting.sidecar_translate alone_setting]
  unfold sidecarBefore
  cases Sidecar.load? fs (g.naming.outputPath file.path) <;> rfl

theorem settled_translation : Sidecar.Settled (g.translation fs file).2.homes := by
  refine Setting.settled_translate alone_setting ?_
  unfold sidecarBefore
  cases loaded : Sidecar.load? fs (g.naming.outputPath file.path) with
  | none => exact List.Pairwise.nil
  | some s => exact Sidecar.settled_of_load? loaded

/-- Where a second run reads sidecars: as before, or the one that the first run left in place of
the one it found. -/
def RereadsSidecars (g : Generator) (fs fs₁ : FileSystem) (file : File) : Prop :=
  ∀ o, Sidecar.load? fs₁ o = Sidecar.load? fs o ∨
    Sidecar.load? fs₁ o = some (g.translation fs file).2 ∧
      Sidecar.load? fs o = Sidecar.load? fs (g.naming.outputPath file.path)

/-- Whichever of them is read, it gives the same name. -/
theorem RereadsSidecars.names (sidecars : g.RereadsSidecars fs fs₁ file) (o : Path) :
    (Sidecar.load? fs₁ o).bind Sidecar.givenName =
      (Sidecar.load? fs o).bind Sidecar.givenName := by
  rcases sidecars o with kept | ⟨saved, before⟩
  · rw [kept]
  · rw [saved, before]
    exact givenName_translation

/-- A second run knows the same types under the same options. -/
structure Repeats (g again : Generator) (fs fs₁ : FileSystem) (file : File) : Prop where
  options : again.options = g.options
  mode : again.mode = g.mode
  index : again.index fs₁ file = g.index fs file

theorem naming_eq (options : again.options = g.options) : again.naming = g.naming :=
  congrArg OutputNaming.ofOptions options

theorem Repeats.translation (repeats : g.Repeats again fs fs₁ file)
    (sidecars : g.RereadsSidecars fs fs₁ file) :
    again.translation fs₁ file = g.translation fs file := by
  have same : again.setting fs₁ file = g.setting fs file := by
    unfold setting
    rw [repeats.index, repeats.options]
  unfold Generator.translation sidecarBefore
  rw [same, naming_eq repeats.options]
  rcases sidecars (g.naming.outputPath file.path) with kept | ⟨saved, -⟩
  · rw [kept]
  · rw [saved]
    exact Setting.translate_translate alone_setting

theorem Repeats.references (repeats : g.Repeats again fs fs₁ file)
    (sidecars : g.RereadsSidecars fs fs₁ file) :
    again.references fs₁ file =
      Directive.settle g.naming g.options.keepReferencesUnchanged (Sidecar.load? fs)
        (g.translation fs file).1 file.path
        (fs₁.read (g.naming.outputPath file.path)).toOption := by
  unfold Generator.references
  rw [repeats.translation sidecars, naming_eq repeats.options, repeats.options,
    Directive.settle_congr sidecars.names]

/-- A second run differs from the first in its directives at most. -/
theorem Repeats.translateFile (repeats : g.Repeats again fs fs₁ file)
    (sidecars : g.RereadsSidecars fs fs₁ file) :
    again.translateFile fs₁ file =
      { g.translateFile fs file with
        rendered :=
          render (g.translation fs file).1 (again.references fs₁ file) g.options g.mode } := by
  rw [translateFile_eq, translateFile_eq, repeats.translation sidecars, naming_eq repeats.options,
    repeats.options, repeats.mode]

end Generator

end Ambient

namespace Ambient

open Host

namespace Host

/-- The path is that of a C# source. -/
def IsSource (p : Path) : Prop :=
  ∃ name, p.fileName? = some name ∧ Text.endsWith name ".cs" = true

end Host

namespace Generator
variable {g g₁ again : Generator} {fs fs₁ : FileSystem} {file : File} {source path : Path}
  {name : String}

/-- Texts that end in different characters do not end alike. -/
theorem not_endsWith {a b : String} {c d : Char} (ends : Text.endsWith name a = true)
    (last : a.toList.getLast? = some c) (other : b.toList.getLast? = some d) (apart : c ≠ d) :
    Text.endsWith name b = false := by
  by_contra yes
  obtain ⟨front, one⟩ := List.isSuffixOf_iff_suffix.mp ends
  obtain ⟨front', two⟩ := List.isSuffixOf_iff_suffix.mp (eq_true_of_ne_false yes)
  have here := congrArg List.getLast? (one.trans two.symm)
  rw [List.getLast?_append, List.getLast?_append, last, other] at here
  exact apart (Option.some.inj here)

theorem not_isSourceName (written : IsWrittenName name) : Project.isSourceName name = false := by
  unfold Project.isSourceName
  rw [Bool.or_eq_false_iff]
  rcases written with output | sidecar
  · refine ⟨?_, not_endsWith output rfl rfl (by decide)⟩
    -- both end in an s, so one has to look further
    by_contra yes
    obtain ⟨front, one⟩ := List.isSuffixOf_iff_suffix.mp output
    obtain ⟨front', two⟩ := List.isSuffixOf_iff_suffix.mp (eq_true_of_ne_false yes)
    have here := congrArg (fun cs => cs.reverse[1]?) (one.trans two.symm)
    simp at here
  · exact ⟨not_endsWith sidecar rfl rfl (by decide), not_endsWith sidecar rfl rfl (by decide)⟩

theorem not_isWrittenName (source : path.fileName?.any Project.isSourceName = true) :
    ∀ n, path.fileName? = some n → ¬ IsWrittenName n := by
  intro n shown written
  rw [shown, Option.any_some, not_isSourceName written] at source
  cases source

theorem toOption_fileLoad (same : (fs₁.read path).toOption = (fs.read path).toOption) :
    (Host.File.load fs₁ path).toOption = (Host.File.load fs path).toOption := by
  unfold Host.File.load
  cases now : fs₁.read path with
  | error trouble =>
    cases before : fs.read path with
    | error trouble => rfl
    | ok text => rw [now, before] at same; cases same
  | ok text =>
    cases before : fs.read path with
    | error trouble => rw [now, before] at same; cases same
    | ok text' =>
      rw [now, before] at same
      rw [Option.some.inj same]

/-- The files of a project that are read after a run are those read before it. -/
theorem projectFiles_of_rewritten (wf : fs.tree.WellFormed)
    (changed : FileSystem.Rewritten IsWrittenName fs fs₁) :
    g.projectFiles fs₁ = g.projectFiles fs := by
  unfold projectFiles
  cases g.known with
  | some files => rfl
  | none =>
    simp only
    rw [changed.sources wf fun n => not_isSourceName]
    refine List.filterMap_congr fun path hp => toOption_fileLoad (changed.read ?_)
    exact not_isWrittenName (List.mem_filter.mp hp).2

theorem isDocument_of_isSource (source : IsSource path) : isDocument path = false := by
  obtain ⟨name, shown, ends⟩ := source
  unfold isDocument Path.extension?
  rw [shown, Option.bind_some]
  obtain ⟨front, spelled⟩ := List.isSuffixOf_iff_suffix.mp ends
  have last : ((name.toList.reverse.takeWhile (· != '.')).reverse) = ['c', 's'] := by
    have back : name.toList.reverse = 's' :: 'c' :: '.' :: front.reverse := by
      rw [← spelled, List.reverse_append]
      rfl
    rw [back]
    rfl
  unfold Path.splitName
  simp only [last]
  split
  · rfl
  · show ((String.ofList ['c', 's']).toLower == "json") = false
    decide +kernel

theorem isSourceName_of_isSource (source : IsSource path) :
    path.fileName?.any Project.isSourceName = true := by
  obtain ⟨name, shown, ends⟩ := source
  rw [shown, Option.any_some, Project.isSourceName, ends, Bool.true_or]

/-- A source that loads is read at its canonical path. -/
theorem canonical_of_load (loaded : load fs source = .ok file) (isSource : IsSource file.path) :
    fs.canonical source = .ok file.path ∧ Host.File.load fs file.path = .ok file ∧
      ∃ text, File.parse file.path text = .ok file := by
  unfold load at loaded
  split at loaded
  · cases loaded
  · rename_i path canonical
    have read := loaded
    unfold Host.File.load at read
    split at read
    · cases read
    · rename_i text found
      by_cases document : isDocument path = true
      · rw [if_pos document] at read
        split at read
        · cases read
          rw [isDocument_of_isSource isSource] at document
          cases document
        · cases read
      · rw [if_neg document] at read
        split at read
        · rename_i parsed
          cases read
          have same := (fromSource_of_parse parsed).2
          exact same.symm ▸ ⟨canonical, loaded, text, parsed⟩
        · cases read

theorem load_of_rewritten (changed : FileSystem.Rewritten IsWrittenName fs fs₁)
    (loaded : load fs source = .ok file) (isSource : IsSource file.path) :
    load fs₁ source = .ok file := by
  obtain ⟨canonical, read, -⟩ := canonical_of_load loaded isSource
  have again : Host.File.load fs₁ file.path = .ok file := by
    apply toOption_eq_some_iff.mp
    rw [toOption_fileLoad (changed.read (not_isWrittenName (isSourceName_of_isSource isSource))),
      read]
    rfl
  unfold load
  rw [changed.canonical canonical]
  exact again

/-- A second run repeats the first, with the generator that the first run leaves or with the one it
began with. -/
theorem repeats_of_rewritten (wf : fs.tree.WellFormed)
    (changed : FileSystem.Rewritten IsWrittenName fs fs₁)
    (same : again = g.prepare fs ∨ again = g) :
    g.Repeats again fs fs₁ file := by
  rcases same with rfl | rfl
  · unfold prepare
    by_cases assumes : g.options.assumeExternalType = true
    · rw [if_pos assumes]
      refine ⟨rfl, rfl, ?_⟩
      unfold index
      rw [if_pos assumes, if_pos assumes]
    · rw [if_neg assumes]
      refine ⟨rfl, rfl, ?_⟩
      unfold index
      rw [if_neg assumes, if_neg assumes]
      rfl
  · refine ⟨rfl, rfl, ?_⟩
    unfold index
    rw [projectFiles_of_rewritten wf changed]

end Generator

end Ambient
