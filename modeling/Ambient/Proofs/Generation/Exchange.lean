import Ambient.Proofs.Generation.Idempotence
import Ambient.Proofs.Generation.Series

/-!
# Runs change places

Two runs that write to different places give the same in either order. What the one leaves shows in
nothing that the other reads: sources stay, sidecars keep the names they give, and the rest of a
sidecar and the text of an output are read by their own run only.
-/
namespace Ambient

open Host

/-- A source that can be read, with its canonical path. -/
structure FileSystem.Source (fs : FileSystem) (source path : Path) : Prop where
  canonical : fs.canonical source = .ok path
  named : path.fileName?.any Project.isSourceName = true
  read : (fs.read path).isOk = true

namespace FileSystem.Source
variable {fs : FileSystem} {source path : Path}

theorem exists_text (h : fs.Source source path) : ∃ text, fs.read path = .ok text := by
  have able := h.read
  cases found : fs.read path with
  | error trouble => rw [found] at able; cases able
  | ok text => exact ⟨text, rfl⟩

theorem exists_place? (h : fs.Source source path) : ∃ place, fs.place? path = some place := by
  obtain ⟨text, found⟩ := h.exists_text
  have known := toOption_read fs path
  rw [found] at known
  obtain ⟨place, named, -⟩ := Option.bind_eq_some_iff.mp known.symm
  exact ⟨place, named⟩

end FileSystem.Source

/-- A file has the path it is loaded from. -/
theorem Host.File.path_of_load {fs : FileSystem} {path : Path} {file : File}
    (h : Host.File.load fs path = .ok file) : file.path = path := by
  unfold Host.File.load at h
  split at h
  · cases h
  split at h
  · split at h
    · obtain rfl := Except.ok.inj h
      rfl
    · cases h
  · split at h
    · rename_i parsed
      obtain rfl := Except.ok.inj h
      exact (fromSource_of_parse parsed).2
    · cases h

namespace Generator
variable {g again : Generator} {fs fs₁ : FileSystem} {file : File} {source path other : Path}

/-- The paths that a run may write to: the output, its sidecar, and the copies that the sidecar asks
for. -/
def mayWrite (g : Generator) (fs : FileSystem) (path : Path) : List Path :=
  let output := g.naming.outputPath path
  let sidecar := (Sidecar.load? fs output).getD .empty
  let name := g.naming.copyFileName path sidecar
  output :: OutputNaming.mapPath output ::
    sidecar.copyTargets.map fun copy => (path.parent.join ⟨copy⟩).join ⟨name⟩

/-- The places they lead to. -/
def writeSet (g : Generator) (fs : FileSystem) (path : Path) : List (List String) :=
  (g.mayWrite fs path).filterMap fs.place?

theorem mem_writeSet {place : List String} :
    place ∈ g.writeSet fs path ↔ ∃ w ∈ g.mayWrite fs path, fs.place? w = some place :=
  List.mem_filterMap

/-- The writes of a run. -/
def runWrites (g : Generator) (fs : FileSystem) (source : Path) : List (Path × String) :=
  match load fs source with
  | .error _ => []
  | .ok file => g.writesOf fs (g.translateFile fs file)

theorem generate_of_load_error {failure : Failure} (failed : load fs source = .error failure) :
    g.generate fs source = (g, fs, .error failure) := by
  unfold generate translate
  simp only [failed]

theorem generate_tree (g : Generator) (fs : FileSystem) (source : Path) :
    (g.generate fs source).2.1 = fs.attemptAll (g.runWrites fs source) := by
  unfold runWrites
  cases loaded : load fs source with
  | error failure =>
    rw [generate_of_load_error loaded]
    rfl
  | ok file =>
    rw [generate_of_load loaded]
    exact g.write_fst fs (g.translateFile fs file)

/-- Only the homes of the sidecar change, so the copies are those the sidecar asks
for before the run. -/
theorem destinations_translateFile :
    ∀ w ∈ g.destinations (g.translateFile fs file), w ∈ g.mayWrite fs file.path := by
  have only : (g.translation fs file).2 =
      { g.sidecarBefore fs file with homes := (g.translation fs file).2.homes } :=
    Setting.sidecar_translate alone_setting
  have copies : g.copyTargets (g.translateFile fs file) =
      (g.sidecarBefore fs file).copyTargets.map fun copy =>
        (file.path.parent.join ⟨copy⟩).join
          ⟨g.naming.copyFileName file.path (g.sidecarBefore fs file)⟩ := by
    unfold copyTargets
    rw [translateFile_eq, only]
    rfl
  intro w hw
  unfold destinations at hw
  rw [copies] at hw
  rcases List.mem_cons.mp hw with rfl | later
  · exact List.mem_cons_self
  rcases List.mem_append.mp later with copy | map
  · exact List.mem_cons_of_mem _ (List.mem_cons_of_mem _ copy)
  · rw [List.mem_singleton.mp map]
    exact List.mem_cons_of_mem _ List.mem_cons_self

theorem path_of_load (h : fs.Source source path) (loaded : load fs source = .ok file) :
    file.path = path := by
  unfold load at loaded
  rw [h.canonical] at loaded
  exact Host.File.path_of_load loaded

theorem runWrites_subset (h : fs.Source source path) :
    ∀ w ∈ g.runWrites fs source, w.1 ∈ g.mayWrite fs path := by
  intro w hw
  unfold runWrites at hw
  cases loaded : load fs source with
  | error failure => rw [loaded] at hw; cases hw
  | ok file =>
    rw [loaded] at hw
    rw [← path_of_load h loaded]
    exact destinations_translateFile w.1 (writesOf_subset w hw)

/-- What is left shows in nothing that a run on `path` reads. -/
structure Spares (g : Generator) (fs fs₁ : FileSystem) (path : Path) : Prop where
  written : ∃ ps, FileSystem.WrittenTo ps fs fs₁
  rewritten : FileSystem.Rewritten IsWrittenName fs fs₁
  names : ∀ o, (Sidecar.load? fs₁ o).bind Sidecar.givenName =
    (Sidecar.load? fs o).bind Sidecar.givenName
  own : ∀ w ∈ g.mayWrite fs path, (fs₁.read w).toOption = (fs.read w).toOption

theorem rewritten_generate (wf : fs.tree.WellFormed)
    (ext : g.options.generatedFileExtension = ".d.ts") (loaded : load fs source = .ok file) :
    FileSystem.Rewritten IsWrittenName fs (g.generate fs source).2.1 ∧
      g.RereadsSidecars fs (g.generate fs source).2.1 file := by
  have none : ∀ fs₁, fs₁ = fs → FileSystem.Rewritten IsWrittenName fs fs₁ ∧
      g.RereadsSidecars fs fs₁ file := by
    rintro fs₁ rfl
    exact ⟨.refl wf, fun o => .inl rfl⟩
  rw [generate_of_load loaded]
  by_cases skips : g.skips (g.translateFile fs file) = true
  · apply none
    rw [write_of_skips skips]
  have writes := eq_false_of_ne_true skips
  cases run : g.write fs (g.translateFile fs file) with
  | mk fs₁ result =>
    cases result with
    | error failure =>
      apply none
      have left := @write_of_error g fs (g.translateFile fs file) failure (by rw [run])
      rw [run] at left
      exact left
    | ok o =>
      have produces : Produces (g.naming.outputPath file.path) :=
        .inr fun name shown => OutputNaming.endsWith_outputPath ext shown
      have left := @holds_of_write g fs fs₁ (g.translateFile fs file) o wf ext produces
        settled_translation writes run
      exact ⟨left.1, left.2.2⟩

/-- A run spares another whose writes lead elsewhere. -/
theorem spares_generate (wf : fs.tree.WellFormed) (ext : g.options.generatedFileExtension = ".d.ts")
    (h : fs.Source source path) (apart : (g.writeSet fs path).Disjoint (g.writeSet fs other)) :
    g.Spares fs (g.generate fs source).2.1 other := by
  have written := FileSystem.writtenTo_attemptAll wf (g.runWrites fs source)
  rw [← generate_tree] at written
  refine ⟨⟨_, written⟩, ?_, ?_, ?_⟩
  · cases loaded : load fs source with
    | error failure =>
      rw [generate_of_load_error loaded]
      exact .refl wf
    | ok file => exact (rewritten_generate wf ext loaded).1
  · cases loaded : load fs source with
    | error failure =>
      rw [generate_of_load_error loaded]
      exact fun o => rfl
    | ok file => exact (rewritten_generate wf ext loaded).2.names
  · intro w hw
    rw [FileSystem.toOption_read, FileSystem.toOption_read,
      FileSystem.place?_congr written.workDir written.dirs]
    cases named : fs.place? w with
    | none => rfl
    | some place =>
      by_contra changed
      obtain ⟨-, p, hp, target⟩ := written.texts place changed
      obtain ⟨v, hv, rfl⟩ := List.mem_map.mp hp
      have mine : place ∈ g.writeSet fs path :=
        mem_writeSet.mpr ⟨v.1, runWrites_subset h v hv, FileSystem.place?_of_target? target⟩
      exact apart mine (mem_writeSet.mpr ⟨w, hw, named⟩)

namespace Spares

theorem load (spares : g.Spares fs fs₁ path) (h : fs.Source source path) :
    load fs₁ source = load fs source := by
  have text : fs₁.read path = fs.read path := by
    have same := spares.rewritten.read (not_isWrittenName h.named)
    obtain ⟨text, before⟩ := h.exists_text
    rw [before] at same ⊢
    exact toOption_eq_some_iff.mp same
  unfold Generator.load
  rw [spares.rewritten.canonical h.canonical, h.canonical]
  simp only [Host.File.load, text]

theorem translateFile (wf : fs.tree.WellFormed) (spares : g.Spares fs fs₁ file.path)
    (same : again = g.prepare fs ∨ again = g) :
    again.translateFile fs₁ file = g.translateFile fs file := by
  have repeats := @repeats_of_rewritten g again fs fs₁ file wf spares.rewritten same
  have setting : again.setting fs₁ file = g.setting fs file := by
    unfold Generator.setting
    rw [repeats.index, repeats.options]
  have naming := naming_eq repeats.options
  have before : again.sidecarBefore fs₁ file = g.sidecarBefore fs file := by
    have map := spares.own _ (List.mem_cons_of_mem _ List.mem_cons_self)
    unfold sidecarBefore
    rw [naming, Sidecar.load?_eq, Sidecar.load?_eq, map]
  have translation : again.translation fs₁ file = g.translation fs file := by
    unfold Generator.translation
    rw [setting, before]
  have references : again.references fs₁ file = g.references fs file := by
    have previous := spares.own _ List.mem_cons_self
    unfold Generator.references
    rw [translation, naming, repeats.options, previous, Directive.settle_congr spares.names]
  rw [translateFile_eq, translateFile_eq, translation, references, naming, repeats.options,
    repeats.mode]

theorem prepare (wf : fs.tree.WellFormed) (spares : g.Spares fs fs₁ path)
    (same : again = g.prepare fs ∨ again = g) : again.prepare fs₁ = g.prepare fs := by
  rcases same with rfl | rfl
  · unfold Generator.prepare
    by_cases assumes : g.options.assumeExternalType = true
    · rw [if_pos assumes, if_pos assumes]
    · rw [if_neg assumes, if_neg assumes]
      rfl
  · unfold Generator.prepare
    rw [projectFiles_of_rewritten wf spares.rewritten]

/-- A run that is spared writes and tells what it would have without the run before. -/
theorem generate (wf : fs.tree.WellFormed) (ext : g.options.generatedFileExtension = ".d.ts")
    (spares : g.Spares fs fs₁ path) (h : fs.Source source path)
    (same : again = g.prepare fs ∨ again = g) :
    (again.generate fs₁ source).1 =
      (if (Generator.load fs source).isOk then g.prepare fs else again) ∧
      (again.generate fs₁ source).2.1 = fs₁.attemptAll (g.runWrites fs source) ∧
      (again.generate fs₁ source).2.2.map Outcome.blurred =
        (g.generate fs source).2.2.map Outcome.blurred := by
  have load := spares.load h
  unfold runWrites
  cases loaded : Generator.load fs source with
  | error failure =>
    rw [loaded] at load
    rw [generate_of_load_error load, generate_of_load_error loaded]
    exact ⟨rfl, rfl, rfl⟩
  | ok file =>
    obtain rfl := path_of_load h loaded
    obtain ⟨place, named⟩ := h.exists_place?
    obtain ⟨ps, written⟩ := spares.written
    have repeats := @repeats_of_rewritten g again fs fs₁ file wf spares.rewritten same
    rw [loaded] at load
    rw [generate_of_load load, generate_of_load loaded, spares.translateFile wf same,
      write_congr repeats.options repeats.mode]
    refine ⟨spares.prepare wf same, ?_, ?_⟩
    · rw [write_fst]
      unfold writesOf
      rw [written.target?]
    · exact @write_snd_of_writtenTo g fs fs₁
        (g.translateFile fs file) ps place wf written ext rfl named

end Spares

/-- The generator that a run leaves. -/
theorem generate_fst (g : Generator) (fs : FileSystem) (source : Path) :
    (g.generate fs source).1 = if (load fs source).isOk then g.prepare fs else g := by
  cases loaded : load fs source with
  | error failure =>
    rw [generate_of_load_error loaded]
    rfl
  | ok file =>
    rw [generate_of_load loaded]
    rfl

/-- Two runs whose writes lead to different places can change their order: the tree and
the generator left at the end are the same, and each run tells the same, but for the
reason of a failed copy. -/
theorem generate_comm {s₁ s₂ p₁ p₂ : Path} (wf : fs.tree.WellFormed)
    (ext : g.options.generatedFileExtension = ".d.ts") (one : fs.Source s₁ p₁)
    (two : fs.Source s₂ p₂) (apart : (g.writeSet fs p₁).Disjoint (g.writeSet fs p₂)) :
    let a := g.generate fs s₁
    let b := g.generate fs s₂
    let ab := a.1.generate a.2.1 s₂
    let ba := b.1.generate b.2.1 s₁
    ab.2.1 = ba.2.1 ∧ ab.1 = ba.1 ∧ a.2.2.map Outcome.blurred = ba.2.2.map Outcome.blurred ∧
      b.2.2.map Outcome.blurred = ab.2.2.map Outcome.blurred := by
  intro a b ab ba
  have left : g.Spares fs a.2.1 p₂ := spares_generate wf ext one apart
  have right : g.Spares fs b.2.1 p₁ :=
    spares_generate wf ext two fun _ there here => apart here there
  have known : ∀ s, (g.generate fs s).1 = g.prepare fs ∨ (g.generate fs s).1 = g := by
    intro s
    rw [generate_fst]
    split
    · exact .inl rfl
    · exact .inr rfl
  obtain ⟨gen₁, tree₁, told₁⟩ := left.generate wf ext two (known s₁)
  obtain ⟨gen₂, tree₂, told₂⟩ := right.generate wf ext one (known s₂)
  have tree : ab.2.1 = ba.2.1 := by
    have crossing : ∀ v ∈ g.runWrites fs s₁, ∀ w ∈ g.runWrites fs s₂,
        ¬ fs.Crosses v.1 w.1 := by
      rintro v hv w hw ⟨place, here, there⟩
      have mine : place ∈ g.writeSet fs p₁ :=
        mem_writeSet.mpr ⟨v.1, runWrites_subset one v hv, FileSystem.place?_of_target? here⟩
      have yours : place ∈ g.writeSet fs p₂ :=
        mem_writeSet.mpr ⟨w.1, runWrites_subset two w hw, FileSystem.place?_of_target? there⟩
      exact apart mine yours
    calc ab.2.1 = a.2.1.attemptAll (g.runWrites fs s₂) := tree₁
      _ = (fs.attemptAll (g.runWrites fs s₁)).attemptAll (g.runWrites fs s₂) := by
          rw [← generate_tree]
      _ = (fs.attemptAll (g.runWrites fs s₂)).attemptAll (g.runWrites fs s₁) :=
          FileSystem.attemptAll_comm wf crossing
      _ = b.2.1.attemptAll (g.runWrites fs s₁) := by rw [← generate_tree]
      _ = ba.2.1 := tree₂.symm
  have generator : ab.1 = ba.1 := by
    have fromLeft : a.1 = if (load fs s₁).isOk then g.prepare fs else g := generate_fst g fs s₁
    have fromRight : b.1 = if (load fs s₂).isOk then g.prepare fs else g := generate_fst g fs s₂
    have after : ab.1 = if (load fs s₂).isOk then g.prepare fs else a.1 := gen₁
    have before : ba.1 = if (load fs s₁).isOk then g.prepare fs else b.1 := gen₂
    rw [after, before, fromLeft, fromRight]
    split_ifs <;> rfl
  exact ⟨tree, generator, told₂.symm, told₁.symm⟩

/-- A project in which one output is to be copied below another, which is no directory. -/
def crossing : FileSystem :=
  ⟨.dir [("p", .dir [("A.cs", .file "public enum A \x7b X \x7d"),
    ("B.cs", .file "public enum B \x7b Y \x7d"),
    ("B.cs.d.ts.map", .file "\x7b\"CopyPaths\":[\"out\",\"A.cs.d.ts\"]\x7d"),
    ("out", .dir [])])], ["p"]⟩

theorem wellFormed_crossing : crossing.tree.WellFormed := by
  simp only [crossing, FileTree.WellFormed, FileTree.WellFormedIn]
  decide

theorem sources_crossing :
    crossing.Source ⟨"A.cs"⟩ ⟨"/p/A.cs"⟩ ∧
    crossing.Source ⟨"B.cs"⟩ ⟨"/p/B.cs"⟩ := by
  have one : crossing.Source ⟨"A.cs"⟩ ⟨"/p/A.cs"⟩ := ⟨rfl, by decide, rfl⟩
  have two : crossing.Source ⟨"B.cs"⟩ ⟨"/p/B.cs"⟩ := ⟨rfl, by decide, rfl⟩
  exact ⟨one, two⟩

theorem disjoint_crossing :
    (copier.writeSet crossing ⟨"/p/A.cs"⟩).Disjoint
      (copier.writeSet crossing ⟨"/p/B.cs"⟩) := by
  have left : copier.writeSet crossing ⟨"/p/A.cs"⟩ =
      [["p", "A.cs.d.ts"], ["p", "A.cs.d.ts.map"]] := by
    with_unfolding_all rfl
  have right : copier.writeSet crossing ⟨"/p/B.cs"⟩ =
      [["p", "B.cs.d.ts"], ["p", "B.cs.d.ts.map"], ["p", "out", "B.cs.d.ts"]] := by
    with_unfolding_all rfl
  rw [left, right]
  simp

theorem refused_crossing : (copier.generate crossing ⟨"B.cs"⟩).2.2 =
    .ok ⟨⟨"/p/B.cs.d.ts"⟩, true, [⟨"/p/out/B.cs.d.ts"⟩],
      [⟨⟨"/p/A.cs.d.ts/B.cs.d.ts"⟩, .missing⟩]⟩ := by
  with_unfolding_all rfl

set_option maxRecDepth 4096 in
theorem refused_after_crossing :
    let a := copier.generate crossing ⟨"A.cs"⟩
    (a.1.generate a.2.1 ⟨"B.cs"⟩).2.2 =
      .ok ⟨⟨"/p/B.cs.d.ts"⟩, true, [⟨"/p/out/B.cs.d.ts"⟩],
      [⟨⟨"/p/A.cs.d.ts/B.cs.d.ts"⟩, .notDirectory⟩]⟩ := by
  with_unfolding_all rfl

/-- The copy fails in either order. -/
theorem generate_comm_of_crossing :
    let a := copier.generate crossing ⟨"A.cs"⟩
    let b := copier.generate crossing ⟨"B.cs"⟩
    let ab := a.1.generate a.2.1 ⟨"B.cs"⟩
    let ba := b.1.generate b.2.1 ⟨"A.cs"⟩
    crossing.tree.WellFormed ∧ crossing.Source ⟨"A.cs"⟩ ⟨"/p/A.cs"⟩ ∧
      crossing.Source ⟨"B.cs"⟩ ⟨"/p/B.cs"⟩ ∧
      b.2.2 = .ok ⟨⟨"/p/B.cs.d.ts"⟩, true, [⟨"/p/out/B.cs.d.ts"⟩],
        [⟨⟨"/p/A.cs.d.ts/B.cs.d.ts"⟩, .missing⟩]⟩ ∧
      ab.2.1 = ba.2.1 ∧ ab.1 = ba.1 ∧ a.2.2.map Outcome.blurred = ba.2.2.map Outcome.blurred ∧
      b.2.2.map Outcome.blurred = ab.2.2.map Outcome.blurred := by
  intro a b ab ba
  obtain ⟨one, two⟩ := sources_crossing
  exact ⟨wellFormed_crossing, one, two, refused_crossing,
    generate_comm wellFormed_crossing rfl one two disjoint_crossing⟩

/-- The reason of a failed copy depends on the order: after the other run there is a file where a
directory is missing. -/
theorem reasons_differ_of_crossing :
    let a := copier.generate crossing ⟨"A.cs"⟩
    let b := copier.generate crossing ⟨"B.cs"⟩
    let ab := a.1.generate a.2.1 ⟨"B.cs"⟩
    crossing.tree.WellFormed ∧ copier.options.generatedFileExtension = ".d.ts" ∧
      crossing.Source ⟨"A.cs"⟩ ⟨"/p/A.cs"⟩ ∧
      crossing.Source ⟨"B.cs"⟩ ⟨"/p/B.cs"⟩ ∧
      (copier.writeSet crossing ⟨"/p/A.cs"⟩).Disjoint
        (copier.writeSet crossing ⟨"/p/B.cs"⟩) ∧
      (copier.mayWrite crossing ⟨"/p/A.cs"⟩).Disjoint
        (copier.mayWrite crossing ⟨"/p/B.cs"⟩) ∧
      b.2.2 = .ok ⟨⟨"/p/B.cs.d.ts"⟩, true, [⟨"/p/out/B.cs.d.ts"⟩],
        [⟨⟨"/p/A.cs.d.ts/B.cs.d.ts"⟩, .missing⟩]⟩ ∧
      ab.2.2 = .ok ⟨⟨"/p/B.cs.d.ts"⟩, true, [⟨"/p/out/B.cs.d.ts"⟩],
        [⟨⟨"/p/A.cs.d.ts/B.cs.d.ts"⟩, .notDirectory⟩]⟩ ∧
      b.2.2 ≠ ab.2.2 := by
  intro a b ab
  obtain ⟨one, two⟩ := sources_crossing
  have apart : (copier.mayWrite crossing ⟨"/p/A.cs"⟩).Disjoint
      (copier.mayWrite crossing ⟨"/p/B.cs"⟩) := by
    have left : copier.mayWrite crossing ⟨"/p/A.cs"⟩ =
        [⟨"/p/A.cs.d.ts"⟩, ⟨"/p/A.cs.d.ts.map"⟩] := by
      with_unfolding_all rfl
    have right : copier.mayWrite crossing ⟨"/p/B.cs"⟩ =
        [⟨"/p/B.cs.d.ts"⟩, ⟨"/p/B.cs.d.ts.map"⟩, ⟨"/p/out/B.cs.d.ts"⟩,
          ⟨"/p/A.cs.d.ts/B.cs.d.ts"⟩] := by
      with_unfolding_all rfl
    rw [left, right]
    simp
  have again : ab.2.2 = .ok ⟨⟨"/p/B.cs.d.ts"⟩, true, [⟨"/p/out/B.cs.d.ts"⟩],
      [⟨⟨"/p/A.cs.d.ts/B.cs.d.ts"⟩, .notDirectory⟩]⟩ := refused_after_crossing
  have differ : b.2.2 ≠ ab.2.2 := by
    have first : b.2.2 = .ok ⟨⟨"/p/B.cs.d.ts"⟩, true, [⟨"/p/out/B.cs.d.ts"⟩],
        [⟨⟨"/p/A.cs.d.ts/B.cs.d.ts"⟩, .missing⟩]⟩ := refused_crossing
    rw [first, again]
    simp
  exact ⟨wellFormed_crossing, rfl, one, two, disjoint_crossing, apart, refused_crossing, again,
    differ⟩

end Generator

end Ambient
