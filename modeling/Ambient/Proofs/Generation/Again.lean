import Ambient.Proofs.Generation.Standing
import Ambient.Proofs.Rendering.Directives
import Ambient.Proofs.Sidecar.RoundTrip
import Ambient.Proofs.Translation.Objects

/-!
# Generating again

A second run reads what the first one wrote. Its declarations and its sidecar are those of the
first, so only the directives can differ: where they are kept, they are read back from the text
of the first run.

A run writes one sidecar, which reads back as it is. All other sidecars stay, and so does the name
that any of them gives its output.
-/
namespace Ambient

namespace Sidecar
variable {fs fs₁ : FileSystem} {output : Path} {s : Sidecar}

/-- The sidecar in a text. -/
def ofText? (text : String) : Option Sidecar :=
  if Text.blank text then none else (parseJson text).toOption

theorem load?_eq (fs : FileSystem) (output : Path) :
    load? fs output = (fs.read (OutputNaming.mapPath output)).toOption.bind ofText? := by
  unfold load? ofText?
  cases fs.read (OutputNaming.mapPath output) with
  | error trouble => rfl
  | ok text =>
    simp only [toOption_ok, Option.bind_some]
    split
    · rfl
    · cases parseJson text <;> rfl

theorem settled_of_load? (h : load? fs output = some s) : Settled s.homes := by
  rw [load?_eq] at h
  obtain ⟨text, -, read⟩ := Option.bind_eq_some_iff.mp h
  unfold ofText? at read
  split at read
  · cases read
  · cases parsed : parseJson text with
    | error fault => rw [parsed] at read; cases read
    | ok t =>
      rw [parsed] at read
      exact settled_of_parseJson (Option.some.inj read ▸ parsed)

theorem ofText?_jsonText (settled : Settled s.homes) : ofText? s.jsonText = some s := by
  unfold ofText?
  rw [not_blank_jsonText, parseJson_jsonText settled]
  rfl

theorem rewritten_save (wf : fs.tree.WellFormed) :
    FileSystem.Rewritten Generator.IsSidecarName fs (s.save fs output) := by
  unfold save
  cases written : fs.write (OutputNaming.mapPath output) s.jsonText with
  | error trouble => exact .refl wf
  | ok fs₁ =>
    refine .of_write wf written fun name shown => ?_
    obtain ⟨own, same, ends⟩ := @OutputNaming.endsWith_mapPath output
    exact Option.some.inj (same.symm.trans shown) ▸ ends

theorem stands_save (wf : fs.tree.WellFormed) :
    (s.save fs output).Stands (OutputNaming.mapPath output) s.jsonText := by
  unfold save
  cases written : fs.write (OutputNaming.mapPath output) s.jsonText with
  | error trouble => exact FileSystem.stands_of_error written
  | ok fs₁ => exact FileSystem.stands_of_write wf written

theorem stands_save_of_produces (wf : fs.tree.WellFormed) {p : Path} {text : String}
    (produces : Generator.Produces p) (h : fs.Stands p text) :
    (s.save fs output).Stands p text := by
  rcases produces with never | named
  · intro place target
    have found := FileSystem.place?_of_target? target
    rw [never] at found
    cases found
  · unfold save
    cases written : fs.write (OutputNaming.mapPath output) s.jsonText with
    | error trouble => exact h
    | ok fs₁ =>
      refine h.other wf written fun same => ?_
      obtain ⟨own, shown, ends⟩ := @OutputNaming.endsWith_mapPath output
      exact Generator.not_isSidecarName (named own (same.trans shown)) ends

theorem save_of_stands (wf : fs.tree.WellFormed)
    (h : fs.Stands (OutputNaming.mapPath output) s.jsonText) : s.save fs output = fs := by
  unfold save
  cases written : fs.write (OutputNaming.mapPath output) s.jsonText with
  | error trouble => rfl
  | ok fs₁ => exact h.write wf written

/-- Outputs are no sidecars. -/
theorem load?_of_rewritten (h : FileSystem.Rewritten Generator.IsOutputName fs fs₁) (o : Path) :
    load? fs₁ o = load? fs o := by
  rw [load?_eq, load?_eq, h.read]
  intro n shown
  obtain ⟨own, same, ends⟩ := @OutputNaming.endsWith_mapPath o
  intro output
  rw [Option.some.inj (shown.symm.trans same)] at output
  exact Generator.not_isSidecarName output ends

/-- A sidecar read after one was saved is the one that was there, or the saved one in its place. -/
theorem load?_save (wf : fs.tree.WellFormed) (settled : Settled s.homes) (o : Path) :
    load? (s.save fs output) o = load? fs o ∨
      load? (s.save fs output) o = some s ∧ load? fs o = load? fs output := by
  have changed := @rewritten_save fs output s wf
  unfold save at changed ⊢
  cases written : fs.write (OutputNaming.mapPath output) s.jsonText with
  | error trouble => exact .inl rfl
  | ok fs₁ =>
    rw [written] at changed
    obtain ⟨place, target, texts⟩ := FileSystem.exists_textAt_of_write wf written
    have here := FileSystem.place?_of_target? target
    rw [load?_eq fs₁, load?_eq fs, load?_eq fs, FileSystem.toOption_read,
      FileSystem.toOption_read, FileSystem.toOption_read, changed.place?, here]
    cases found : fs.place? (OutputNaming.mapPath o) with
    | none => exact .inl rfl
    | some q =>
      rw [Option.bind_some, Option.bind_some, Option.bind_some, texts]
      by_cases same : q = place
      · refine .inr ⟨?_, by rw [same]⟩
        rw [if_pos same, Option.bind_some, ofText?_jsonText settled]
      · rw [if_neg same]
        exact .inl rfl

end Sidecar

namespace Directive

/-- Of sidecars only the names they give count for directives. -/
theorem settle_congr {a b : Path → Option Sidecar}
    (same : ∀ o, (a o).bind Sidecar.givenName = (b o).bind Sidecar.givenName)
    (naming : OutputNaming)
    (keep : Bool) (declarations : List Declaration) (source : Path) (previous : Option String) :
    settle naming keep a declarations source previous =
      settle naming keep b declarations source previous := by
  have paths : ∀ dir, pathTo naming a dir = pathTo naming b dir := by
    intro dir
    funext o
    unfold pathTo
    rw [same]
  unfold settle computed
  simp only [paths]

end Directive

namespace Generator
variable {g again : Generator} {fs fs₁ fs₂ : FileSystem} {t : Translated} {o : Outcome}
  {file : Host.File} {source : Path}

/-- Nothing is written where the mode leaves no declaration. -/
def skips (g : Generator) (t : Translated) : Bool := t.rendered.isEmpty && g.mode != .full

/-- What a translation is to write stands. -/
structure Holds (g : Generator) (t : Translated) (fs : FileSystem) : Prop where
  able : (fs.target? t.output).isSome = true
  text : fs.Stands t.output t.rendered.text
  copies : ∀ p ∈ g.copyTargets t, fs.Stands p t.rendered.text
  sidecar : fs.Stands (OutputNaming.mapPath t.output) t.sidecar.jsonText

def IsWrittenName (name : String) : Prop := IsOutputName name ∨ IsSidecarName name

theorem write_congr (options : again.options = g.options) (mode : again.mode = g.mode) :
    again.write fs t = g.write fs t := by
  unfold write copyTargets naming
  rw [options, mode]

theorem write_of_skips (h : g.skips t = true) :
    g.write fs t = (fs, .ok ⟨t.output, false, [], []⟩) := by
  unfold write
  exact if_pos h

theorem exists_of_write (writes : g.skips t = false) (ok : g.write fs t = (fs₁, .ok o)) :
    ∃ fs₂, fs.write t.output t.rendered.text = .ok fs₂ ∧
      fs₁ = t.sidecar.save (writeCopies fs₂ t.rendered.text (g.copyTargets t)).1 t.output := by
  unfold skips at writes
  unfold write at ok
  rw [if_neg (by rw [writes]; decide)] at ok
  split at ok
  · cases ok
  · rename_i fs₂ written
    exact ⟨fs₂, written, (Prod.mk.inj ok).1.symm⟩

/-- What a run that writes leaves. -/
theorem holds_of_write (wf : fs.tree.WellFormed) (ext : g.options.generatedFileExtension = ".d.ts")
    (output : Produces t.output) (settled : Sidecar.Settled t.sidecar.homes)
    (writes : g.skips t = false) (ok : g.write fs t = (fs₁, .ok o)) :
    FileSystem.Rewritten IsWrittenName fs fs₁ ∧ g.Holds t fs₁ ∧
      ∀ o, Sidecar.load? fs₁ o = Sidecar.load? fs o ∨
        Sidecar.load? fs₁ o = some t.sidecar ∧
        Sidecar.load? fs o = Sidecar.load? fs t.output := by
  obtain ⟨fs₂, written, rfl⟩ := exists_of_write writes ok
  have first := rewritten_of_produces wf output written
  have produces := @produces_copyTargets g t ext
  obtain ⟨changed, kept, new⟩ :=
    @writeCopies_spec fs₂ t.rendered.text (g.copyTargets t) first.wellFormed produces
  have outputs := first.trans changed
  have sidecars := @Sidecar.rewritten_save _ t.output t.sidecar changed.wellFormed
  have all := (outputs.mono fun _ => Or.inl).trans (sidecars.mono fun _ => Or.inr)
  refine ⟨all, ⟨?_, ?_, ?_, Sidecar.stands_save changed.wellFormed⟩, fun o => ?_⟩
  · rw [all.target?]
    exact FileSystem.isSome_target? written
  · exact Sidecar.stands_save_of_produces changed.wellFormed output
      (kept t.output (FileSystem.stands_of_write wf written))
  · exact fun p hp => Sidecar.stands_save_of_produces changed.wellFormed (produces p hp) (new p hp)
  · rcases @Sidecar.load?_save _ t.output t.sidecar changed.wellFormed settled o with same | saved
    · exact .inl (same.trans (Sidecar.load?_of_rewritten outputs o))
    · rw [Sidecar.load?_of_rewritten outputs, Sidecar.load?_of_rewritten outputs] at saved
      exact .inr saved

/-- Where one translation stands, writing another that differs in its text at most changes nothing
exactly if the text is the same. -/
theorem write_of_holds (wf : fs.tree.WellFormed) (ext : g.options.generatedFileExtension = ".d.ts")
    (output : Produces t.output) (settled : Sidecar.Settled t.sidecar.homes)
    (writes : g.skips t = false) (holds : g.Holds t fs) (text : String) :
    ∃ fs₁ o, g.write fs { t with rendered := ⟨text, t.rendered.isEmpty⟩ } =
      (fs₁, .ok o) ∧ (fs₁ = fs ↔ text = t.rendered.text) := by
  obtain ⟨fs₂, written⟩ := FileSystem.exists_write holds.able text
  have run : g.write fs { t with rendered := ⟨text, t.rendered.isEmpty⟩ } =
      (t.sidecar.save (writeCopies fs₂ text (g.copyTargets t)).1 t.output,
        .ok ⟨t.output, true, (writeCopies fs₂ text (g.copyTargets t)).2.1,
          (writeCopies fs₂ text (g.copyTargets t)).2.2⟩) := by
    unfold skips at writes
    unfold write
    simp only [writes, written, Bool.false_eq_true, if_false]
    rfl
  refine ⟨_, _, run, ?_, ?_⟩
  · intro same
    -- the new text would stand where the old one does
    obtain ⟨-, anew, -⟩ :=
      @holds_of_write g fs _ { t with rendered := ⟨text, t.rendered.isEmpty⟩ } _
      wf ext output settled writes run
    rw [same] at anew
    obtain ⟨place, target⟩ := Option.isSome_iff_exists.mp holds.able
    exact Option.some.inj ((anew.text place target).symm.trans (holds.text place target))
  · rintro rfl
    rw [holds.text.write wf written, writeCopies_of_stands wf holds.copies,
      Sidecar.save_of_stands wf holds.sidecar]

end Generator

end Ambient
