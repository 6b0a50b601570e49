import Ambient.Proofs.Files.Sources
import Ambient.Proofs.Path.FileName

/-!
# What a run writes stands

After a run each path it wrote to holds what it was to hold, and a path that could not be written
before cannot be written now. To write the same again changes nothing.

Outputs and their copies have names that end in the extension of generated files, and the names of
sidecars end in their own.
-/
namespace Ambient

namespace OutputNaming
variable {n : OutputNaming} {source : Path} {name : String}

/-- What is put behind the name of a source, or behind its stem. -/
def ending (n : OutputNaming) : String :=
  if n.keepExtension then n.extension
  else if n.bareExtension = "" then "" else "." ++ n.bareExtension

/-- The ending is part of every name that it makes. -/
structure Shows (n : OutputNaming) : Prop where
  plain : '/' ∉ n.ending.toList
  some : n.ending ≠ ""
  dot : n.ending ≠ "."

theorem ending_eq (ext : n.extension = ".d.ts") : n.ending = ".d.ts" := by
  have bare : n.bareExtension = "d.ts" := by
    rw [bareExtension, ext]
    rfl
  unfold ending
  rw [ext, bare]
  split <;> rfl

theorem shows_of_extension (ext : n.extension = ".d.ts") : n.Shows := by
  have spelled := ending_eq ext
  exact ⟨by rw [spelled]; decide, by rw [spelled]; decide, by rw [spelled]; decide⟩

/-- The name of an output ends in the ending of generated files. -/
theorem endsWith_ending (shows : n.Shows) (h : (n.outputPath source).fileName? = some name) :
    Text.endsWith name n.ending = true := by
  refine List.isSuffixOf_iff_suffix.mpr ?_
  unfold outputPath at h
  by_cases keep : n.keepExtension = true
  · have whole : n.ending = n.extension := if_pos keep
    rw [if_pos keep, ← whole] at h
    exact Path.suffix_of_fileName?_append shows.plain shows.some shows.dot h
  · have other : n.ending = if n.bareExtension = "" then "" else "." ++ n.bareExtension :=
      if_neg keep
    rw [if_neg keep] at h
    by_cases bare : n.bareExtension = ""
    · rw [if_pos bare] at other
      exact absurd other shows.some
    rw [if_neg bare] at other
    cases shown : source.fileName? with
    | none =>
      have whole : source.withExtension n.bareExtension = source := by
        rw [Path.withExtension, shown]
      rw [whole, shown] at h
      cases h
    | some old =>
      have spelled : n.ending.toList = '.' :: n.bareExtension.toList := by
        rw [other, String.toList_append]
        rfl
      have plain := shows.plain
      rw [spelled] at plain ⊢
      exact Path.suffix_of_fileName?_withExtension shown bare
        (fun slash => plain (List.mem_cons_of_mem _ slash)) h

theorem outputFileName_cases (shows : n.Shows) (source : Path) :
    n.outputFileName source = "" ∨ Path.IsEntry (n.outputFileName source) ∧
      Text.endsWith (n.outputFileName source) n.ending = true := by
  unfold outputFileName Path.fileName
  cases shown : (n.outputPath source).fileName? with
  | none => exact .inl rfl
  | some name => exact .inr ⟨Path.isEntry_of_fileName? shown, endsWith_ending shows shown⟩

theorem endsWith_outputPath (ext : n.extension = ".d.ts")
    (h : (n.outputPath source).fileName? = some name) : Text.endsWith name ".d.ts" = true :=
  ending_eq ext ▸ endsWith_ending (shows_of_extension ext) h

theorem endsWith_mapPath {output : Path} : ∃ name, (mapPath output).fileName? = some name ∧
    Text.endsWith name ".map" = true := by
  obtain ⟨name, shown, ends⟩ :=
    Path.exists_fileName?_append output ".map" (by decide) (by decide)
  exact ⟨name, shown, List.isSuffixOf_iff_suffix.mpr ends⟩

end OutputNaming

namespace FileSystem
variable {fs fs₁ : FileSystem} {p q : Path} {place : List String} {text new : String}

/-- If a file can be written under this path, it has this text already. -/
def Stands (fs : FileSystem) (p : Path) (text : String) : Prop :=
  ∀ place, fs.target? p = some place → fs.tree.textAt place = some text

theorem target?_of_write (ok : fs.write q text = .ok fs₁) (wf : fs.tree.WellFormed) :
    fs₁.target? p = fs.target? p := by
  have dirs := dirAt_write wf ok
  obtain ⟨place, target, rfl⟩ := write_ok_iff.mp ok
  exact target?_congr rfl dirs

/-- A write puts its text at its place. -/
theorem exists_textAt_of_write (wf : fs.tree.WellFormed) (ok : fs.write q text = .ok fs₁) :
    ∃ place, fs.target? q = some place ∧
      ∀ r, fs₁.tree.textAt r = if r = place then some text else fs.tree.textAt r := by
  obtain ⟨place, target, rfl⟩ := write_ok_iff.mp ok
  exact ⟨place, target, fun r => FileTree.textAt_put wf (room_of_target? target)⟩

/-- To write what stands is no change. -/
theorem Stands.write (h : fs.Stands p text) (wf : fs.tree.WellFormed)
    (ok : fs.write p text = .ok fs₁) : fs₁ = fs := by
  obtain ⟨place, target, rfl⟩ := write_ok_iff.mp ok
  have found := FileTree.find?_of_textAt (h place target)
  rw [FileTree.put_same wf found]

theorem stands_of_write (wf : fs.tree.WellFormed) (ok : fs.write p text = .ok fs₁) :
    fs₁.Stands p text := by
  intro r target
  rw [target?_of_write ok wf] at target
  obtain ⟨place, own, texts⟩ := exists_textAt_of_write wf ok
  rw [texts, if_pos (Option.some.inj (target.symm.trans own))]

/-- The same text may be written elsewhere. -/
theorem Stands.same (h : fs.Stands p text) (wf : fs.tree.WellFormed)
    (ok : fs.write q text = .ok fs₁) : fs₁.Stands p text := by
  intro r target
  rw [target?_of_write ok wf] at target
  obtain ⟨place, own, texts⟩ := exists_textAt_of_write wf ok
  rw [texts]
  split
  · rfl
  · exact h r target

/-- Another text may be written under another name. -/
theorem Stands.other (h : fs.Stands p text) (wf : fs.tree.WellFormed)
    (ok : fs.write q new = .ok fs₁) (apart : p.fileName? ≠ q.fileName?) :
    fs₁.Stands p text := by
  intro r target
  rw [target?_of_write ok wf] at target
  obtain ⟨place, own, texts⟩ := exists_textAt_of_write wf ok
  have elsewhere : r ≠ place := by
    rintro rfl
    obtain ⟨name, last, shown, -⟩ := getLast?_of_place? (place?_of_target? target)
    obtain ⟨name', last', shown', -⟩ := getLast?_of_place? (place?_of_target? own)
    rw [last] at last'
    exact apart (shown.trans (last'.trans shown'.symm))
  rw [texts, if_neg elsewhere]
  exact h r target

theorem stands_of_error {trouble : FileTrouble} (failed : fs.write p text = .error trouble) :
    fs.Stands p text := by
  intro place target
  rw [write_ok_iff.mpr ⟨place, target, rfl⟩] at failed
  cases failed

theorem isSome_target? (ok : fs.write p text = .ok fs₁) : (fs.target? p).isSome = true := by
  obtain ⟨place, target, -⟩ := write_ok_iff.mp ok
  rw [target]
  rfl

theorem exists_write (able : (fs.target? p).isSome = true) (text : String) :
    ∃ fs₁, fs.write p text = .ok fs₁ := by
  obtain ⟨place, target⟩ := Option.isSome_iff_exists.mp able
  exact ⟨_, write_ok_iff.mpr ⟨place, target, rfl⟩⟩

/-- Behind a slash there is no name to write to. -/
theorem place?_join_empty (fs : FileSystem) (p : Path) : fs.place? (p.join ⟨""⟩) = none := by
  have open_ : (p.join ⟨""⟩).text = "" ∨
      ∃ front, (p.join ⟨""⟩).text.toList = front ++ ['/'] := by
    have relative : Path.isAbsolute ⟨""⟩ = false := rfl
    rw [Path.join_relative relative]
    rcases p.lead_cases with none | ⟨front, slash⟩
    · exact .inl (by simp [none])
    · exact .inr ⟨front, by simpa using slash⟩
  unfold place?
  cases started : fs.start (p.join ⟨""⟩) with
  | error trouble => rfl
  | ok pair =>
    obtain ⟨from_, pieces⟩ := pair
    obtain ⟨init, last, rfl, split⟩ := exists_concat_of_start started
    have empty : last = [] := by
      rcases open_ with nothing | ⟨front, slash⟩
      · rw [nothing] at split
        have ends := congrArg List.getLast? split
        rw [List.getLast?_concat] at ends
        exact (Option.some.inj ends).symm
      · rw [slash, Text.pieces_append_cons rfl] at split
        have ends := congrArg List.getLast? split
        rw [List.getLast?_concat, Text.pieces, List.getLast?_concat] at ends
        exact (Option.some.inj ends).symm
    simp [empty]

end FileSystem

namespace Generator
variable {g : Generator} {fs fs₁ : FileSystem} {t : Translated} {text : String}
  {paths : List Path}

/-- Names of outputs and their copies. -/
def IsOutputName (name : String) : Prop := Text.endsWith name ".d.ts" = true

def IsSidecarName (name : String) : Prop := Text.endsWith name ".map" = true

theorem not_isSidecarName {name : String} (h : IsOutputName name) : ¬ IsSidecarName name := by
  intro map
  obtain ⟨a, one⟩ := List.isSuffixOf_iff_suffix.mp h
  obtain ⟨b, two⟩ := List.isSuffixOf_iff_suffix.mp map
  have ends := congrArg List.getLast? (one.trans two.symm)
  have s : ".d.ts".toList = ['.', 'd', '.', 't'] ++ ['s'] := rfl
  have p : ".map".toList = ['.', 'm', 'a'] ++ ['p'] := rfl
  rw [s, p, ← List.append_assoc, ← List.append_assoc, List.getLast?_concat,
    List.getLast?_concat] at ends
  exact absurd ends (by decide)

/-- Whoever writes to this path writes an output, if anything. -/
def Produces (p : Path) : Prop :=
  (∀ fs : FileSystem, fs.place? p = none) ∨ ∀ name, p.fileName? = some name →
    IsOutputName name

/-- A copy has the name of an output, or leads nowhere. -/
theorem copyTargets_cases (shows : g.naming.Shows) : ∀ p ∈ g.copyTargets t,
    (∀ fs : FileSystem, fs.place? p = none) ∨
      ∀ name, p.fileName? = some name → Text.endsWith name g.naming.ending = true := by
  intro p hp
  obtain ⟨copy, -, rfl⟩ := List.mem_map.mp hp
  have named : g.naming.copyFileName t.source t.sidecar = "" ∨
      Path.IsEntry (g.naming.copyFileName t.source t.sidecar) ∧
        Text.endsWith (g.naming.copyFileName t.source t.sidecar) g.naming.ending = true := by
    unfold OutputNaming.copyFileName
    split <;> exact OutputNaming.outputFileName_cases shows _
  rcases named with none | ⟨entry, ends⟩
  · refine .inl fun fs => ?_
    rw [none]
    exact fs.place?_join_empty _
  · refine .inr fun name shown => ?_
    rw [Path.fileName?_join entry] at shown
    exact Option.some.inj shown ▸ ends

theorem produces_copyTargets (ext : g.options.generatedFileExtension = ".d.ts") :
    ∀ p ∈ g.copyTargets t, Produces p := by
  have extension : g.naming.extension = ".d.ts" := ext
  have spelled := OutputNaming.ending_eq extension
  intro p hp
  have cases_ := copyTargets_cases (OutputNaming.shows_of_extension extension) p hp
  rw [spelled] at cases_
  exact cases_

theorem rewritten_of_produces {p : Path} (wf : fs.tree.WellFormed) (produces : Produces p)
    (ok : fs.write p text = .ok fs₁) : FileSystem.Rewritten IsOutputName fs fs₁ := by
  refine .of_write wf ok ?_
  rcases produces with never | named
  · obtain ⟨place, target, -⟩ := FileSystem.write_ok_iff.mp ok
    have found := FileSystem.place?_of_target? target
    rw [never fs] at found
    cases found
  · exact named

@[simp] theorem noteCopy_fst (path : Path) (written : Except FileTrouble FileSystem)
    (rest : FileSystem × List Path × List CopyFailure) :
    (noteCopy path written rest).1 = rest.1 := by
  cases written <;> rfl

/-- Each copy stands afterwards as far as it can be written. -/
theorem stands_writeCopies (wf : fs.tree.WellFormed) :
    (∀ p, fs.Stands p text → (writeCopies fs text paths).1.Stands p text) ∧
      ∀ p ∈ paths, (writeCopies fs text paths).1.Stands p text := by
  induction paths generalizing fs with
  | nil => exact ⟨fun p h => h, by simp⟩
  | cons path more ih =>
    rw [writeCopies, noteCopy_fst]
    cases written : fs.write path text with
    | error trouble =>
      obtain ⟨kept, new⟩ := ih wf
      refine ⟨kept, fun p hp => ?_⟩
      rcases List.mem_cons.mp hp with rfl | hp
      · exact kept p (FileSystem.stands_of_error written)
      · exact new p hp
    | ok fs₁ =>
      obtain ⟨kept, new⟩ := ih (FileSystem.wellFormed_write wf written)
      refine ⟨fun p h => kept p (h.same wf written), fun p hp => ?_⟩
      rcases List.mem_cons.mp hp with rfl | hp
      · exact kept p (FileSystem.stands_of_write wf written)
      · exact new p hp

/-- Copies are outputs, and each stands afterwards as far as it can be written. -/
theorem writeCopies_spec (wf : fs.tree.WellFormed) (produces : ∀ p ∈ paths, Produces p) :
    FileSystem.Rewritten IsOutputName fs (writeCopies fs text paths).1 ∧
      (∀ p, fs.Stands p text → (writeCopies fs text paths).1.Stands p text) ∧
      ∀ p ∈ paths, (writeCopies fs text paths).1.Stands p text := by
  refine ⟨?_, stands_writeCopies wf⟩
  induction paths generalizing fs with
  | nil => exact .refl wf
  | cons path more ih =>
    have later : ∀ p ∈ more, Produces p := fun p hp => produces p (List.mem_cons_of_mem path hp)
    rw [writeCopies, noteCopy_fst]
    cases written : fs.write path text with
    | error trouble => exact ih wf later
    | ok fs₁ =>
      have first := rewritten_of_produces wf (produces path List.mem_cons_self) written
      exact first.trans (ih first.wellFormed later)

theorem writeCopies_of_stands (wf : fs.tree.WellFormed)
    (stands : ∀ p ∈ paths, fs.Stands p text) :
    (writeCopies fs text paths).1 = fs := by
  induction paths with
  | nil => rfl
  | cons path more ih =>
    have rest := ih fun p hp => stands p (List.mem_cons_of_mem path hp)
    rw [writeCopies, noteCopy_fst]
    cases written : fs.write path text with
    | error trouble => exact rest
    | ok fs₁ =>
      rw [(stands path List.mem_cons_self).write wf written]
      exact rest

end Generator

end Ambient
