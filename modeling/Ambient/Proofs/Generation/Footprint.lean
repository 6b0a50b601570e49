import Ambient.CommandLine
import Ambient.Proofs.Generation.Again

/-!
# What a run leaves alone

A run that fails, or writes nothing, leaves the tree as it was. A run that writes changes the files
at the places of its output, its copies and its sidecar and no others. Every copy is tried, whatever
becomes of the ones before it.
-/
namespace Ambient

namespace FileSystem
variable {fs fs₁ fs₂ : FileSystem} {p : Path} {place q : List String} {text : String}
  {ps qs : List Path}

theorem isOk_write (fs : FileSystem) (p : Path) (text : String) :
    (fs.write p text).isOk = (fs.target? p).isSome := by
  have made := congrArg Option.isSome (toOption_write fs p text)
  rw [Option.isSome_map] at made
  rw [← made]
  cases fs.write p text <;> rfl

/-- What a run of writes to these paths leaves: only where one of them leads a file
may have changed. -/
structure WrittenTo (ps : List Path) (fs fs₁ : FileSystem) : Prop where
  workDir : fs₁.workDir = fs.workDir
  wellFormed : fs₁.tree.WellFormed
  dirs : fs₁.tree.dirAt = fs.tree.dirAt
  texts : ∀ place, fs₁.tree.textAt place ≠ fs.tree.textAt place →
    (fs₁.tree.textAt place).isSome = true ∧ ∃ p ∈ ps, fs.target? p = some place

namespace WrittenTo

theorem refl (wf : fs.tree.WellFormed) : WrittenTo ps fs fs where
  workDir := rfl
  wellFormed := wf
  dirs := rfl
  texts := fun _ changed => absurd rfl changed

theorem target? (h : WrittenTo ps fs fs₁) : fs₁.target? p = fs.target? p :=
  target?_congr h.workDir h.dirs

theorem isOk_write (h : WrittenTo ps fs fs₁) :
    (fs₁.write p text).isOk = (fs.write p text).isOk := by
  rw [FileSystem.isOk_write, FileSystem.isOk_write, h.target?]

theorem trans (first : WrittenTo ps fs fs₁) (second : WrittenTo qs fs₁ fs₂) :
    WrittenTo (ps ++ qs) fs fs₂ where
  workDir := second.workDir.trans first.workDir
  wellFormed := second.wellFormed
  dirs := second.dirs.trans first.dirs
  texts := by
    intro place changed
    by_cases late : fs₂.tree.textAt place = fs₁.tree.textAt place
    · rw [late] at changed ⊢
      obtain ⟨some, p, hp, target⟩ := first.texts place changed
      exact ⟨some, p, List.mem_append_left qs hp, target⟩
    · obtain ⟨some, p, hp, target⟩ := second.texts place late
      rw [first.target?] at target
      exact ⟨some, p, List.mem_append_right ps hp, target⟩

theorem of_write (wf : fs.tree.WellFormed) (ok : fs.write p text = .ok fs₁) :
    WrittenTo [p] fs fs₁ := by
  have wellFormed := wellFormed_write wf ok
  have dirs := dirAt_write wf ok
  obtain ⟨place, target, texts⟩ := exists_textAt_of_write wf ok
  obtain ⟨_, -, rfl⟩ := write_ok_iff.mp ok
  refine ⟨rfl, wellFormed, dirs, ?_⟩
  intro r changed
  rw [texts] at changed ⊢
  by_cases here : r = place
  · rw [if_pos here]
    exact ⟨rfl, p, List.mem_singleton_self p, here ▸ target⟩
  · exact absurd (if_neg here) changed

end WrittenTo

/-- A way through directories is a walk. -/
theorem walk_of_dirWalk? {pieces : List String} (h : dirWalk? fs.tree.dirAt place pieces = some q) :
    fs.walk place pieces = .ok q := by
  fun_induction dirWalk? fs.tree.dirAt place pieces with
  | case1 place here => rw [walk, Option.some.inj h]
  | case2 => cases h
  | case3 => cases h
  | case4 place piece more here idle ih =>
    rw [walk, enter_of_dir (by simpa using here), if_pos idle]
    exact ih h
  | case5 place more here _ ih =>
    rw [walk, enter_of_dir (by simpa using here), if_neg (by decide), if_pos rfl]
    exact ih h
  | case6 => cases h
  | case7 place piece more here idle up short ih =>
    have next : (fs.tree.find? (place ++ [piece])).isSome = true := by
      by_contra none
      rw [FileTree.isSome_find?, Bool.or_eq_true, not_or] at none
      rw [dirWalk?_of_not (eq_false_of_ne_true none.1)] at h
      cases h
    rw [walk, enter_of_dir (by simpa using here), if_neg idle, if_neg up, if_neg short, if_pos next]
    exact ih h

/-- A path leads to the file at the place it names. -/
theorem resolve_of_place? (named : fs.place? p = some place)
    (found : (fs.tree.textAt place).isSome = true) : fs.resolve p = .ok place := by
  unfold place? at named
  unfold resolve
  cases started : fs.start p with
  | error trouble => rw [started] at named; cases named
  | ok pair =>
    obtain ⟨from_, pieces⟩ := pair
    obtain ⟨front, last, rfl, -⟩ := exists_concat_of_start started
    rw [started] at named
    simp only [toOption_ok, Option.bind_some, List.getLast?_concat, Option.getD_some,
      List.dropLast_concat] at named
    split at named
    · cases named
    rename_i plain
    simp only [not_or] at plain
    obtain ⟨empty, dot, up, short⟩ := plain
    obtain ⟨d, walked, rfl⟩ := Option.map_eq_some_iff.mp named
    have child : (fs.tree.find? (d ++ [String.ofList last])).isSome = true := by
      rw [FileTree.isSome_find?, found, Bool.or_true]
    have entered : fs.enter d (String.ofList last) = .ok (d ++ [String.ofList last]) := by
      rw [enter_of_dir (dirs_of_dirWalk? walked), if_neg (by tauto), if_neg up, if_neg short,
        if_pos child]
    rw [ok_bind]
    show fs.walk from_ (front ++ [String.ofList last]) = _
    rw [walk_append, walk_of_dirWalk? walked, ok_bind, walk, entered]
    rfl

/-- A file reads as before unless its place is that of a path written to. -/
theorem WrittenTo.read (h : WrittenTo ps fs fs₁)
    (apart : ∀ w ∈ ps, ∀ place, fs₁.resolve w = .ok place →
      fs₁.resolve p ≠ .ok place) :
    (fs₁.read p).toOption = (fs.read p).toOption := by
  rw [toOption_read, toOption_read, place?_congr h.workDir h.dirs]
  cases named : fs.place? p with
  | none => rfl
  | some place =>
    by_contra changed
    obtain ⟨some, w, hw, target⟩ := h.texts place changed
    have own : ∀ r : Path, fs.place? r = .some place → fs₁.resolve r = .ok place :=
      fun r at_ =>
      resolve_of_place? ((place?_congr h.workDir h.dirs).trans at_) some
    exact apart w hw place (own w (place?_of_target? target)) (own p named)

theorem read_of_stands (able : (fs.target? p).isSome = true) (stands : fs.Stands p text) :
    fs.read p = .ok text := by
  obtain ⟨place, target⟩ := Option.isSome_iff_exists.mp able
  have known := toOption_read fs p
  rw [place?_of_target? target, Option.bind_some, stands place target] at known
  exact toOption_eq_some_iff.mp known

end FileSystem

/-- A file and its sidecar have different names. -/
theorem OutputNaming.fileName?_mapPath_ne {fs : FileSystem} {output : Path} {place : List String}
    (named : fs.place? output = some place) :
    output.fileName? ≠ (mapPath output).fileName? := by
  obtain ⟨front, name, split, -, entry⟩ := FileSystem.pieces_of_place? named
  obtain ⟨front', last, before, after⟩ := Text.exists_pieces_append output.text.toList
    (p := Path.isSlash) (b := ".map".toList) (by simp [Path.isSlash])
  rw [before] at split
  obtain ⟨rfl, same⟩ := List.append_inj' split rfl
  obtain rfl := List.head_eq_of_cons_eq same
  have long : Path.isName (name.toList ++ ".map".toList) = true := Path.isName_of_length (by simp)
  have own := Path.fileName?_of_pieces before entry.isName_toList
  have map : (mapPath output).fileName? = some (String.ofList (name.toList ++ ".map".toList)) :=
    Path.fileName?_of_pieces (by rw [mapPath, Path.append, String.toList_append, after]) long
  rw [own, map]
  intro same
  have chars := congrArg String.length (Option.some.inj same)
  simp at chars

namespace Generator
variable {g : Generator} {fs fs₁ after : FileSystem} {t : Translated} {text : String}
  {paths : List Path} {source : Path} {o : Outcome}

theorem writtenTo_writeCopies (wf : fs.tree.WellFormed) :
    FileSystem.WrittenTo (paths.filter fun p => (fs.write p text).isOk) fs
      (writeCopies fs text paths).1 := by
  induction paths generalizing fs with
  | nil => exact .refl wf
  | cons path more ih =>
    rw [writeCopies, noteCopy_fst]
    cases written : fs.write path text with
    | error trouble =>
      rw [List.filter_cons_of_neg (by rw [written]; exact Bool.false_ne_true)]
      exact ih wf
    | ok fs₁ =>
      rw [List.filter_cons_of_pos (by rw [written]; rfl)]
      have first := FileSystem.WrittenTo.of_write wf written
      have rest := ih first.wellFormed
      simp only [first.isOk_write] at rest
      exact first.trans rest

/-- Each path is tried, and told of where it belongs: a path that can be written is so whatever was
written before. -/
theorem paths_writeCopies (wf : fs.tree.WellFormed) :
    (writeCopies fs text paths).2.1 = paths.filter (fun p => (fs.write p text).isOk) ∧
      (writeCopies fs text paths).2.2.map (·.path) =
        paths.filter fun p => !(fs.write p text).isOk := by
  induction paths generalizing fs with
  | nil => exact ⟨rfl, rfl⟩
  | cons path more ih =>
    rw [writeCopies]
    cases written : fs.write path text with
    | error trouble =>
      obtain ⟨copies, failures⟩ := ih wf
      rw [List.filter_cons_of_neg (by rw [written]; exact Bool.false_ne_true),
        List.filter_cons_of_pos (by rw [written]; rfl), ← copies, ← failures]
      exact ⟨rfl, rfl⟩
    | ok fs₁ =>
      have first := FileSystem.WrittenTo.of_write wf written
      obtain ⟨copies, failures⟩ := ih first.wellFormed
      simp only [first.isOk_write] at copies failures
      rw [List.filter_cons_of_pos (by rw [written]; rfl),
        List.filter_cons_of_neg (by rw [written]; exact Bool.false_ne_true),
        ← copies, ← failures]
      exact ⟨rfl, rfl⟩

/-- What a run that writes the translation `t` leaves in place of `fs`, and tells. Which copies can
be written is decided by the tree before the run. -/
structure Footprint (g : Generator) (fs after : FileSystem) (t : Translated)
    (o : Outcome) : Prop where
  output : o.output = t.output
  text : after.read t.output = .ok t.rendered.text
  copies : o.copies = (g.copyTargets t).filter fun p => (fs.write p t.rendered.text).isOk
  failures : o.failures.map (·.path) =
    (g.copyTargets t).filter fun p => !(fs.write p t.rendered.text).isOk
  /-- A copy holds the text too, unless the sidecar takes its place. -/
  copied : ∀ copy ∈ o.copies, after.read copy = .ok t.rendered.text ∨
    ∃ place, after.resolve copy = .ok place ∧
      after.resolve (OutputNaming.mapPath t.output) = .ok place
  sidecar : (fs.write (OutputNaming.mapPath t.output) t.sidecar.jsonText).isOk = true →
    after.read (OutputNaming.mapPath t.output) = .ok t.sidecar.jsonText
  directories : after.tree.dirAt = fs.tree.dirAt
  others : ∀ p, (∀ w ∈ t.output :: OutputNaming.mapPath t.output :: o.copies, ∀ place,
    after.resolve w = .ok place → after.resolve p ≠ .ok place) →
      (after.read p).toOption = (fs.read p).toOption

theorem writtenTo_save (wf : fs.tree.WellFormed) (output : Path) (s : Sidecar) :
    FileSystem.WrittenTo [OutputNaming.mapPath output] fs (s.save fs output) := by
  unfold Sidecar.save
  cases written : fs.write (OutputNaming.mapPath output) s.jsonText with
  | error trouble => exact .refl wf
  | ok fs₁ => exact .of_write wf written

/-- Where the sidecar is saved, another file keeps its text. -/
theorem read_save (wf : fs.tree.WellFormed) {p output : Path} {s : Sidecar}
    (read : fs.read p = .ok text) :
    (s.save fs output).read p = .ok text ∨ ∃ place, (s.save fs output).resolve p = .ok place ∧
      (s.save fs output).resolve (OutputNaming.mapPath output) = .ok place := by
  have saved := writtenTo_save wf output s
  by_cases apart : ∃ place, (s.save fs output).resolve p = .ok place ∧
      (s.save fs output).resolve (OutputNaming.mapPath output) = .ok place
  · exact .inr apart
  · refine .inl ?_
    have same := saved.read (p := p) fun w hw place at_ own => by
      rw [List.mem_singleton.mp hw] at at_
      exact apart ⟨place, own, at_⟩
    rw [read] at same
    exact toOption_eq_some_iff.mp same

theorem footprint_of_write (wf : fs.tree.WellFormed) (ok : g.write fs t = (after, .ok o)) :
    o.written = false ∧ after = fs ∨ o.written = true ∧ Footprint g fs after t o := by
  unfold write at ok
  split at ok
  · cases ok
    exact .inl ⟨rfl, rfl⟩
  refine .inr ?_
  split at ok
  · cases ok
  rename_i fs₁ written
  obtain ⟨rfl, rfl⟩ : t.sidecar.save
      (writeCopies fs₁ t.rendered.text (g.copyTargets t)).1 t.output =
      after ∧ (⟨t.output, true, (writeCopies fs₁ t.rendered.text (g.copyTargets t)).2.1,
        (writeCopies fs₁ t.rendered.text (g.copyTargets t)).2.2⟩ : Outcome) = o := by
    injection ok with left right
    exact ⟨left, Except.ok.inj right⟩
  have first := FileSystem.WrittenTo.of_write wf written
  have copying := @writtenTo_writeCopies fs₁ t.rendered.text (g.copyTargets t) first.wellFormed
  obtain ⟨copies, failures⟩ :=
    @paths_writeCopies fs₁ t.rendered.text (g.copyTargets t) first.wellFormed
  obtain ⟨kept, stands⟩ :=
    @stands_writeCopies fs₁ t.rendered.text (g.copyTargets t) first.wellFormed
  simp only [first.isOk_write] at copying copies failures
  have before := first.trans copying
  have saving := writtenTo_save before.wellFormed t.output t.sidecar
  have all := before.trans saving
  have able : (fs.target? t.output).isSome = true := FileSystem.isSome_target? written
  obtain ⟨place, named⟩ := Option.isSome_iff_exists.mp able
  refine ⟨rfl, rfl, ?_, copies, failures, ?_, ?_, all.dirs, ?_⟩
  · -- the copies have the same text, and the sidecar has another name
    have held := kept t.output (FileSystem.stands_of_write wf written)
    rw [← all.target?] at able
    refine FileSystem.read_of_stands able ?_
    unfold Sidecar.save
    cases saved : (writeCopies fs₁ t.rendered.text (g.copyTargets t)).1.write
        (OutputNaming.mapPath t.output) t.sidecar.jsonText with
    | error trouble => exact held
    | ok fs₂ =>
      exact held.other before.wellFormed saved
        (OutputNaming.fileName?_mapPath_ne (FileSystem.place?_of_target? named))
  · intro copy hc
    have hc' : copy ∈ (g.copyTargets t).filter fun p => (fs.write p t.rendered.text).isOk :=
      copies ▸ hc
    obtain ⟨target, ok⟩ := List.mem_filter.mp hc'
    rw [FileSystem.isOk_write, ← before.target?] at ok
    exact read_save before.wellFormed (FileSystem.read_of_stands ok (stands copy target))
  · intro ok
    rw [FileSystem.isOk_write, ← all.target?] at ok
    exact FileSystem.read_of_stands ok (Sidecar.stands_save before.wellFormed)
  · intro p apart
    refine all.read fun w hw => apart w ?_
    rw [← copies] at hw
    rcases List.mem_append.mp hw with hw | last
    · rcases List.mem_append.mp hw with first | copy
      · rw [List.mem_singleton.mp first]
        exact List.mem_cons_self
      · exact List.mem_cons_of_mem _ (List.mem_cons_of_mem _ copy)
    · rw [List.mem_singleton.mp last]
      exact List.mem_cons_of_mem _ List.mem_cons_self

theorem write_of_error {failure : Failure} (failed : (g.write fs t).2 = .error failure) :
    (g.write fs t).1 = fs := by
  unfold write at failed ⊢
  by_cases skips : (t.rendered.isEmpty && g.mode != .full) = true
  · rw [if_pos skips]
  · rw [if_neg skips] at failed ⊢
    cases written : fs.write t.output t.rendered.text with
    | error trouble => rfl
    | ok fs₁ =>
      rw [written] at failed
      cases failed

theorem settings_translate {g' : Generator} {result : Except Failure Translated}
    (h : g.translate fs source = (g', result)) : g'.options = g.options ∧ g'.mode = g.mode := by
  have prepared : (g.prepare fs).options = g.options ∧ (g.prepare fs).mode = g.mode := by
    unfold prepare
    split <;> exact ⟨rfl, rfl⟩
  unfold translate at h
  cases loaded : load fs source with
  | error failure =>
    rw [loaded] at h
    cases h
    exact ⟨rfl, rfl⟩
  | ok file =>
    rw [loaded] at h
    cases h
    exact prepared

/-- A run that fails or writes nothing leaves the tree as it was, one that writes leaves its
footprint, and printing a translation leaves the tree alone. -/
theorem generate_footprint (g : Generator) (source : Path) (wf : fs.tree.WellFormed) :
    (∀ p : CommandLine.Progress, (CommandLine.printOne g p source).2.fs = p.fs) ∧
      (∀ failure, (g.generate fs source).2.2 = .error failure →
        (g.generate fs source).2.1 = fs) ∧
      ∀ o, (g.generate fs source).2.2 = .ok o → ∃ t, (g.translate fs source).2 = .ok t ∧
        (o.written = false → (g.generate fs source).2.1 = fs) ∧
        (o.written = true → g.Footprint fs (g.generate fs source).2.1 t o) := by
  refine ⟨?_, ?_, ?_⟩
  · intro p
    unfold CommandLine.printOne
    split <;> rfl
  · intro failure failed
    unfold generate at failed ⊢
    cases translated : g.translate fs source with
    | mk g' result =>
      rw [translated] at failed
      cases result with
      | error failure => rfl
      | ok t => exact write_of_error failed
  · intro o ok
    unfold generate at ok ⊢
    cases translated : g.translate fs source with
    | mk g' result =>
      rw [translated] at ok
      cases result with
      | error failure => cases ok
      | ok t =>
        refine ⟨t, rfl, ?_⟩
        obtain ⟨options, mode⟩ := settings_translate translated
        have same := @write_congr g g' fs t options mode
        have run : g.write fs t = ((g'.write fs t).1, .ok o) := by
          rw [← same]
          exact Prod.ext rfl ok
        rcases footprint_of_write wf run with ⟨skipped, same⟩ | ⟨written, left⟩
        · exact ⟨fun _ => same, fun writes => absurd (skipped.symm.trans writes) (by decide)⟩
        · exact ⟨fun skips => absurd (written.symm.trans skips) (by decide), fun _ => left⟩

/-- A project whose sidecar asks for four copies: one place is blank, one is missing, and one is
that of the output itself. -/
def copied : FileSystem :=
  ⟨.dir [("p", .dir [("E.cs", .file "public enum E \x7b A \x7d"),
    ("E.cs.d.ts.map", .file "\x7b\"CopyPaths\":[\"out\",\" \",\"missing\",\".\"]\x7d"),
    ("out", .dir [])])], ["p"]⟩

def copier : Generator := .new ⟨⟨"/p"⟩, "App"⟩ .default .full

/-- The copy that fails does not stop the one after it. -/
theorem generate_footprint_of_copied :
    let o : Outcome :=
      ⟨⟨"/p/E.cs.d.ts"⟩, true, [⟨"/p/out/E.cs.d.ts"⟩, ⟨"/p/./E.cs.d.ts"⟩],
      [⟨⟨"/p/missing/E.cs.d.ts"⟩, .missing⟩]⟩
    copied.tree.WellFormed ∧ (copier.generate copied ⟨"E.cs"⟩).2.2 = .ok o ∧
      ∃ t, (copier.translate copied ⟨"E.cs"⟩).2 = .ok t ∧
        copier.Footprint copied (copier.generate copied ⟨"E.cs"⟩).2.1 t o := by
  intro o
  have wf : copied.tree.WellFormed := by
    simp only [copied, FileTree.WellFormed, FileTree.WellFormedIn]
    decide
  have ran : (copier.generate copied ⟨"E.cs"⟩).2.2 = .ok o := by
    with_unfolding_all rfl
  obtain ⟨t, translated, -, left⟩ := (generate_footprint copier ⟨"E.cs"⟩ wf).2.2 o ran
  exact ⟨wf, ran, t, translated, left rfl⟩

end Generator

end Ambient
