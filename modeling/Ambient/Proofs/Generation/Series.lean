import Ambient.Proofs.Files.Beside
import Ambient.Proofs.Files.Same
import Ambient.Proofs.Generation.Footprint

/-!
# Series of writes

A run is a series of writes, each of which is done if it is possible and passed over if it is not.
Writes to different places change places, and so do series of such writes. Which writes a run makes
is decided before the first of them, by the directories that are there.

What a run tells besides the texts it writes is decided by the directories that are there: whether
its output and each copy can be written, and why not. For a copy the reason may read otherwise where
a file has come into the place of a directory.
-/
namespace Ambient

namespace FileSystem
variable {fs : FileSystem} {a b w : Path × String} {as bs ws : List (Path × String)}

/-- A text is written to a path if that is possible. -/
def attempt (fs : FileSystem) (w : Path × String) : FileSystem :=
  (fs.write w.1 w.2).toOption.getD fs

def attemptAll (fs : FileSystem) (ws : List (Path × String)) : FileSystem := ws.foldl attempt fs

@[simp] theorem attemptAll_nil : fs.attemptAll [] = fs := rfl

@[simp] theorem attemptAll_cons : fs.attemptAll (w :: ws) = (fs.attempt w).attemptAll ws := by
  unfold attemptAll
  exact List.foldl_cons

theorem attemptAll_append : fs.attemptAll (as ++ bs) = (fs.attemptAll as).attemptAll bs :=
  List.foldl_append

theorem writtenTo_attempt (wf : fs.tree.WellFormed) (w : Path × String) :
    WrittenTo [w.1] fs (fs.attempt w) := by
  unfold attempt
  cases written : fs.write w.1 w.2 with
  | error trouble => exact .refl wf
  | ok fs₁ => exact .of_write wf written

theorem textAt_attempt (wf : fs.tree.WellFormed) (w : Path × String) (q : List String) :
    (fs.attempt w).tree.textAt q =
      if fs.target? w.1 = some q then some w.2 else fs.tree.textAt q := by
  unfold attempt
  cases written : fs.write w.1 w.2 with
  | error trouble =>
    have nowhere : fs.target? w.1 ≠ some q := by
      intro target
      rw [write_ok_iff.mpr ⟨q, target, rfl⟩] at written
      cases written
    simp [nowhere]
  | ok fs₁ =>
    obtain ⟨place, target, texts⟩ := exists_textAt_of_write wf written
    rw [toOption_ok, Option.getD_some, texts, target]
    simp [eq_comm]

/-- Two paths can be written, and to one place. -/
def Crosses (fs : FileSystem) (p q : Path) : Prop :=
  ∃ place, fs.target? p = some place ∧ fs.target? q = some place

/-- Writing leaves nothing but texts to tell apart what it leaves. -/
theorem WrittenTo.eq_of_textAt {fs₁ fs₂ : FileSystem} {ps qs : List Path}
    (one : WrittenTo ps fs fs₁)
    (two : WrittenTo qs fs fs₂) (texts : fs₁.tree.textAt = fs₂.tree.textAt) :
    fs₁ = fs₂ := by
  have tree : fs₁.tree = fs₂.tree :=
    FileTree.eq_of_same one.wellFormed two.wellFormed texts (one.dirs.trans two.dirs.symm)
  have dir : fs₁.workDir = fs₂.workDir := one.workDir.trans two.workDir.symm
  obtain ⟨t₁, d₁⟩ := fs₁
  obtain ⟨t₂, d₂⟩ := fs₂
  obtain rfl : t₁ = t₂ := tree
  obtain rfl : d₁ = d₂ := dir
  rfl

theorem attempt_comm (wf : fs.tree.WellFormed) (apart : ¬ fs.Crosses a.1 b.1) :
    (fs.attempt a).attempt b = (fs.attempt b).attempt a := by
  have first := writtenTo_attempt wf a
  have second := writtenTo_attempt wf b
  have one := first.trans (writtenTo_attempt first.wellFormed b)
  have two := second.trans (writtenTo_attempt second.wellFormed a)
  apply one.eq_of_textAt two
  funext q
  rw [textAt_attempt first.wellFormed, textAt_attempt second.wellFormed, first.target?,
    second.target?, textAt_attempt wf, textAt_attempt wf]
  by_cases left : fs.target? a.1 = some q
  · have right : fs.target? b.1 ≠ some q := fun right => apart ⟨q, left, right⟩
    rw [if_neg right, if_pos left, if_pos left]
  · rw [if_neg left, if_neg left]

theorem WrittenTo.crosses_iff {ps : List Path} {fs₁ : FileSystem} (h : WrittenTo ps fs fs₁)
    {p q : Path} : fs₁.Crosses p q ↔ fs.Crosses p q := by
  unfold Crosses
  rw [h.target?, h.target?]

theorem writtenTo_attemptAll (wf : fs.tree.WellFormed) (ws : List (Path × String)) :
    WrittenTo (ws.map (·.1)) fs (fs.attemptAll ws) := by
  induction ws generalizing fs with
  | nil => exact .refl wf
  | cons w more ih =>
    have first := writtenTo_attempt wf w
    have rest := ih first.wellFormed
    rw [attemptAll_cons]
    exact first.trans rest

theorem attemptAll_attempt (wf : fs.tree.WellFormed) (apart : ∀ b ∈ bs, ¬ fs.Crosses a.1 b.1) :
    (fs.attempt a).attemptAll bs = (fs.attemptAll bs).attempt a := by
  induction bs generalizing fs with
  | nil => rw [attemptAll_nil, attemptAll_nil]
  | cons b more ih =>
    have next := writtenTo_attempt wf b
    have later : ∀ c ∈ more, ¬ (fs.attempt b).Crosses a.1 c.1 := by
      intro c hc crosses
      exact apart c (List.mem_cons_of_mem b hc) (next.crosses_iff.mp crosses)
    calc (fs.attempt a).attemptAll (b :: more)
        = ((fs.attempt b).attempt a).attemptAll more := by
          rw [attemptAll_cons, attempt_comm wf (apart b List.mem_cons_self)]
      _ = ((fs.attempt b).attemptAll more).attempt a := ih next.wellFormed later
      _ = (fs.attemptAll (b :: more)).attempt a := by rw [attemptAll_cons]

/-- Series of writes to different places change places. -/
theorem attemptAll_comm (wf : fs.tree.WellFormed)
    (apart : ∀ a ∈ as, ∀ b ∈ bs, ¬ fs.Crosses a.1 b.1) :
    (fs.attemptAll as).attemptAll bs = (fs.attemptAll bs).attemptAll as := by
  induction as generalizing fs with
  | nil => rw [attemptAll_nil, attemptAll_nil]
  | cons a more ih =>
    have next := writtenTo_attempt wf a
    have later : ∀ c ∈ more, ∀ b ∈ bs, ¬ (fs.attempt a).Crosses c.1 b.1 := by
      intro c hc b hb crosses
      exact apart c (List.mem_cons_of_mem a hc) b hb (next.crosses_iff.mp crosses)
    calc (fs.attemptAll (a :: more)).attemptAll bs
        = ((fs.attempt a).attemptAll more).attemptAll bs := by rw [attemptAll_cons]
      _ = ((fs.attempt a).attemptAll bs).attemptAll more := ih next.wellFormed later
      _ = (fs.attemptAll bs).attemptAll (a :: more) := by
          rw [attemptAll_attempt wf (apart a List.mem_cons_self), attemptAll_cons]

end FileSystem

namespace Generator
variable {g : Generator} {fs : FileSystem} {t : Translated}

/-- Where a run may write a translation. -/
def destinations (g : Generator) (t : Translated) : List Path :=
  t.output :: (g.copyTargets t ++ [OutputNaming.mapPath t.output])

/-- The writes of a run: none where the mode leaves nothing or the output cannot be written. -/
def writesOf (g : Generator) (fs : FileSystem) (t : Translated) : List (Path × String) :=
  if g.skips t || (fs.target? t.output).isNone then []
  else (t.output, t.rendered.text) :: ((g.copyTargets t).map (·, t.rendered.text) ++
    [(OutputNaming.mapPath t.output, t.sidecar.jsonText)])

theorem writesOf_subset : ∀ w ∈ g.writesOf fs t, w.1 ∈ g.destinations t := by
  intro w hw
  unfold writesOf at hw
  split at hw
  · cases hw
  · simp only [List.mem_cons, List.mem_append, List.mem_map, List.not_mem_nil, or_false] at hw
    simp only [destinations, List.mem_cons, List.mem_append, List.not_mem_nil, or_false]
    rcases hw with rfl | ⟨copy, hc, rfl⟩ | rfl
    · exact .inl rfl
    · exact .inr (.inl hc)
    · exact .inr (.inr rfl)

theorem writeCopies_eq (fs : FileSystem) (text : String) (paths : List Path) :
    (writeCopies fs text paths).1 = fs.attemptAll (paths.map (·, text)) := by
  induction paths generalizing fs with
  | nil => rfl
  | cons path more ih =>
    rw [writeCopies, noteCopy_fst, ih]
    rfl

theorem save_eq (fs : FileSystem) (output : Path) (s : Sidecar) :
    s.save fs output = fs.attempt (OutputNaming.mapPath output, s.jsonText) := by
  unfold Sidecar.save FileSystem.attempt
  cases fs.write (OutputNaming.mapPath output) s.jsonText <;> rfl

/-- What a run leaves is what its writes leave. -/
theorem write_fst (g : Generator) (fs : FileSystem) (t : Translated) :
    (g.write fs t).1 = fs.attemptAll (g.writesOf fs t) := by
  have able : (fs.target? t.output).isNone = !(fs.write t.output t.rendered.text).isOk := by
    rw [FileSystem.isOk_write]
    cases fs.target? t.output <;> rfl
  unfold Generator.write writesOf
  by_cases skips : g.skips t = true
  · have passed : (t.rendered.isEmpty && g.mode != .full) = true := skips
    rw [if_pos passed, skips]
    rfl
  · have writes : ¬ (t.rendered.isEmpty && g.mode != .full) = true := skips
    rw [if_neg writes, eq_false_of_ne_true skips, Bool.false_or]
    cases written : fs.write t.output t.rendered.text with
    | error trouble =>
      rw [able, written]
      rfl
    | ok fs₁ =>
      have some : (fs.target? t.output).isNone = false := by
        rw [able, written]
        rfl
      rw [some]
      have first : fs.attempt (t.output, t.rendered.text) = fs₁ := by
        rw [FileSystem.attempt, written]
        rfl
      simp only [save_eq, writeCopies_eq, Bool.false_eq_true, if_false, FileSystem.attemptAll_cons,
        FileSystem.attemptAll_append, FileSystem.attemptAll_nil, first]

end Generator

/-- A failure as far as directories decide it. -/
def CopyFailure.blurred (f : CopyFailure) : CopyFailure := { f with trouble := f.trouble.blurred }

def Outcome.blurred (o : Outcome) : Outcome :=
  { o with failures := o.failures.map CopyFailure.blurred }

namespace FileSystem
variable {fs fs₁ : FileSystem} {ps : List Path} {p : Path}

/-- The failure of a copy to a path that cannot be written. -/
def refusal? (fs : FileSystem) (p : Path) : Option CopyFailure :=
  match fs.opening p with
  | .ok _ => none
  | .error trouble => some ⟨p, trouble⟩

theorem WrittenTo.opening (h : WrittenTo ps fs fs₁) : fs₁.opening p = fs.opening p :=
  opening_congr h.workDir h.dirs

theorem WrittenTo.refusal? (h : WrittenTo ps fs fs₁) : fs₁.refusal? p = fs.refusal? p := by
  unfold FileSystem.refusal?
  rw [h.opening]

end FileSystem

namespace Generator
variable {g : Generator} {fs fs₁ : FileSystem} {t : Translated} {text : String}
  {paths ps : List Path} {place : List String}

/-- The copies that fail are told from the tree before them. -/
theorem failures_writeCopies (wf : fs.tree.WellFormed) :
    (writeCopies fs text paths).2.2.map CopyFailure.blurred = paths.filterMap fs.refusal? := by
  induction paths generalizing fs with
  | nil => rfl
  | cons path more ih =>
    rw [writeCopies]
    cases written : fs.write path text with
    | error trouble =>
      have told : fs.refusal? path = some ⟨path, trouble.blurred⟩ := by
        unfold FileSystem.refusal?
        rw [FileSystem.opening_of_error written]
      rw [List.filterMap_cons_some told, ← ih wf]
      rfl
    | ok fs₁ =>
      obtain ⟨place, opened⟩ := FileSystem.exists_opening written
      have told : fs.refusal? path = none := by
        unfold FileSystem.refusal?
        rw [opened]
      have first := FileSystem.WrittenTo.of_write wf written
      have rest := ih first.wellFormed
      rw [funext fun p => first.refusal? (p := p)] at rest
      rw [List.filterMap_cons_none told]
      exact rest

/-- What is told of a translation that is written, as far as directories decide it. -/
def told (g : Generator) (fs : FileSystem) (t : Translated) : Outcome :=
  ⟨t.output, true, (g.copyTargets t).filter fun p => (fs.target? p).isSome,
    (g.copyTargets t).filterMap fs.refusal?⟩

theorem told_of_writtenTo (h : FileSystem.WrittenTo ps fs fs₁) :
    g.told fs₁ t = g.told fs t := by
  unfold told
  simp only [h.target?, funext fun p => h.refusal? (p := p)]

theorem write_snd (wf : fs.tree.WellFormed) (writes : g.skips t = false)
    (written : fs.write t.output t.rendered.text = .ok fs₁) :
    (g.write fs t).2.map Outcome.blurred = .ok (g.told fs t) := by
  have first := FileSystem.WrittenTo.of_write wf written
  obtain ⟨copies, -⟩ :=
    @paths_writeCopies fs₁ t.rendered.text (g.copyTargets t) first.wellFormed
  have failures := @failures_writeCopies fs₁ t.rendered.text (g.copyTargets t) first.wellFormed
  simp only [FileSystem.isOk_write] at copies
  have whole : (g.write fs t).2 = .ok ⟨t.output, true,
      (writeCopies fs₁ t.rendered.text (g.copyTargets t)).2.1,
      (writeCopies fs₁ t.rendered.text (g.copyTargets t)).2.2⟩ := by
    unfold skips at writes
    unfold write
    simp only [writes, written, Bool.false_eq_true, if_false]
  rw [whole, ← told_of_writtenTo first]
  simp only [Except.map, Outcome.blurred, told, copies, failures]

/-- What a run tells stays when texts change elsewhere. -/
theorem write_snd_of_writtenTo (wf : fs.tree.WellFormed) (h : FileSystem.WrittenTo ps fs fs₁)
    (ext : g.options.generatedFileExtension = ".d.ts")
    (output : t.output = g.naming.outputPath t.source) (named : fs.place? t.source = some place) :
    (g.write fs₁ t).2.map Outcome.blurred = (g.write fs t).2.map Outcome.blurred := by
  by_cases skips : g.skips t = true
  · rw [write_of_skips skips, write_of_skips skips]
  have writes := eq_false_of_ne_true skips
  have before := FileSystem.write_outputPath (n := g.naming) ext named t.rendered.text
  have after := FileSystem.write_outputPath (n := g.naming) ext
    ((FileSystem.place?_congr h.workDir h.dirs).trans named) t.rendered.text
  rw [← output] at before after
  rw [h.opening] at after
  cases opened : fs.opening t.output with
  | ok at_ =>
    rw [opened] at before after
    rw [write_snd wf writes before, write_snd h.wellFormed writes after, told_of_writtenTo h]
  | error trouble =>
    rw [opened] at before after
    unfold Generator.skips at writes
    unfold write
    simp only [writes, before, after, Except.map, Bool.false_eq_true, if_false]

end Generator

end Ambient
