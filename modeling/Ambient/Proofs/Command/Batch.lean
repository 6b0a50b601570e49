import Ambient.Proofs.Command.Projects
import Ambient.Proofs.Generation.Exchange
import Ambient.Proofs.Generation.Sources

/-!
# Several files at once

A command that is given several files does what as many commands do that are given one each. It
looks for all of the files before it writes any, groups them by project, and lets the runs of one
project share a generator; none of this shows, since what it has found out by then stays while
outputs are written.
-/
namespace Ambient

/-- A list in which those that belong together with an earlier one follow it at once. -/
def gather {α : Type} (same : α → α → Bool) : List α → List α
  | [] => []
  | a :: more => a :: more.filter (same a) ++ gather same (more.filter (!same a ·))
termination_by l => l.length
decreasing_by
  have fewer := List.length_filter_le (fun b : {b // b ∈ more} => !same a b) more.attach
  simpa using Nat.lt_succ_of_le fewer

section gather
variable {α β : Type} {same : α → α → Bool} {same' : β → β → Bool}

/-- Induction over what is left once the first has taken its own. -/
theorem gather_induction (same : α → α → Bool) {motive : List α → Prop} (nil : motive [])
    (cons : ∀ a more, motive (more.filter (!same a ·)) → motive (a :: more)) (l : List α) :
    motive l := by
  generalize long : l.length = n
  induction n using Nat.strong_induction_on generalizing l with
  | h n ih =>
    cases l with
    | nil => exact nil
    | cons a more =>
      refine cons a more (ih _ ?_ _ rfl)
      rw [← long, List.length_cons]
      exact Nat.lt_succ_of_le (List.length_filter_le _ more)

theorem gather_perm (same : α → α → Bool) (l : List α) : (gather same l).Perm l := by
  induction l using gather_induction same with
  | nil => rw [gather]
  | cons a more ih =>
    rw [gather, List.cons_append]
    exact .cons a ((ih.append_left _).trans (List.filter_append_perm (same a) more))

theorem filterMap_filter_of {f : α → Option β} {p : α → Bool} {p' : β → Bool}
    (same : ∀ a s, f a = some s → p a = p' s) (l : List α) :
    (l.filter p).filterMap f = (l.filterMap f).filter p' := by
  rw [List.filterMap_filter, List.filter_filterMap]
  refine List.filterMap_congr fun a _ => ?_
  cases found : f a with
  | none => simp
  | some s => simp [same a s found, Option.filter]

/-- What is left out may be left out before. -/
theorem filterMap_gather {f : α → Option β}
    (some : ∀ a b s t, f a = some s → f b = some t → same a b = same' s t)
    (none : ∀ a b, f a = none → same a b = false) (l : List α) :
    (gather same l).filterMap f = gather same' (l.filterMap f) := by
  induction l using gather_induction same with
  | nil => rw [gather, List.filterMap_nil, gather]
  | cons a more ih =>
    rw [gather, List.filterMap_append, ih]
    cases found : f a with
    | none =>
      have apart : ∀ b ∈ more, same a b = false := fun b _ => none a b found
      have nothing : more.filter (same a) = [] := List.filter_eq_nil_iff.mpr fun b hb => by
        simp [apart b hb]
      have all : more.filter (!same a ·) = more := List.filter_eq_self.mpr fun b hb => by
        simp [apart b hb]
      rw [nothing, all, List.filterMap_cons_none found, List.filterMap_cons_none found,
        List.filterMap_nil, List.nil_append]
    | some s =>
      have here : (more.filter (same a)).filterMap f = (more.filterMap f).filter (same' s) :=
        filterMap_filter_of (fun b t other => some a b s t found other) more
      have there : (more.filter (!same a ·)).filterMap f =
          (more.filterMap f).filter (!same' s ·) :=
        filterMap_filter_of (fun b t other => congrArg not (some a b s t found other)) more
      rw [List.filterMap_cons_some found, List.filterMap_cons_some found, gather, here, there]

end gather

namespace CommandLine

section grouping
variable {place : Path → Project} {project : Project} {sources first : List Path}
  {groups : List (Project × List Path)}

/-- The first group takes what is of its project and leaves the others to the groups behind it. -/
theorem foldl_addToGroup :
    sources.foldl (fun groups source => addToGroup (place source) source groups)
        ((project, first) :: groups) =
      (project, first ++ sources.filter fun s => project.root.same (place s).root) ::
        (sources.filter fun s => !project.root.same (place s).root).foldl
          (fun groups source => addToGroup (place source) source groups) groups := by
  induction sources generalizing first groups with
  | nil => simp
  | cons s more ih =>
    rw [List.foldl_cons, addToGroup]
    cases own : project.root.same (place s).root with
    | true =>
      rw [if_pos rfl, ih]
      simp [own]
    | false =>
      rw [if_neg (by decide), ih]
      simp [own]

/-- The groups one after another are the sources brought together by their projects. -/
theorem groups_spec (place : Path → Project) (sources : List Path) :
    let groups := sources.foldl (fun groups source => addToGroup (place source) source groups) []
    groups.flatMap (·.2) = gather (fun s t => (place s).root.same (place t).root) sources ∧
      ∀ group ∈ groups, ∃ s ∈ sources, group.1 = place s ∧
        ∀ t ∈ group.2, t ∈ sources ∧ (place s).root.same (place t).root = true := by
  induction sources using gather_induction fun s t => (place s).root.same (place t).root with
  | nil =>
    rw [gather]
    exact ⟨rfl, nofun⟩
  | cons s more ih =>
    obtain ⟨order, each⟩ := ih
    intro groups
    have split : groups =
        (place s, [s] ++ more.filter fun t => (place s).root.same (place t).root) :: _ :=
      foldl_addToGroup
    rw [split, gather, List.flatMap_cons, order]
    refine ⟨rfl, fun group hg => ?_⟩
    rcases List.mem_cons.mp hg with rfl | later
    · refine ⟨s, List.mem_cons_self, rfl, fun t ht => ?_⟩
      rcases List.mem_cons.mp ht with rfl | ht
      · exact ⟨List.mem_cons_self, beq_self_eq_true _⟩
      · obtain ⟨there, same⟩ := List.mem_filter.mp ht
        exact ⟨List.mem_cons_of_mem s there, same⟩
    · obtain ⟨r, hr, own, all⟩ := each group later
      refine ⟨r, List.mem_cons_of_mem s (List.mem_filter.mp hr).1, own, fun t ht => ?_⟩
      obtain ⟨there, same⟩ := all t ht
      exact ⟨List.mem_cons_of_mem s (List.mem_filter.mp there).1, same⟩

end grouping

section missing
variable (fs : FileSystem) (files : List Path)

/-- Where a file is, if it is anywhere. -/
def found? (file : Path) : Option Path := (fs.canonical file).toOption

theorem locate_fst : (locate fs files).1 = files.filterMap (found? fs) := by
  unfold locate
  induction files with
  | nil => rfl
  | cons file more ih =>
    rw [List.foldr_cons, List.filterMap_cons, found?, ← ih]
    cases fs.canonical file <;> rfl

theorem length_locate_snd :
    (locate fs files).2.length = files.countP fun file => (found? fs file).isNone := by
  unfold locate
  induction files with
  | nil => rfl
  | cons file more ih =>
    rw [List.foldr_cons, List.countP_cons, found?, ← ih]
    cases fs.canonical file <;> rfl

/-- Sources whose projects have the same root. -/
def ofOneProject (fs : FileSystem) (explicit : Option Path) (s t : Path) : Bool :=
  (projectFor fs explicit s).root.same (projectFor fs explicit t).root

theorem foldl_fail (p : Progress) (missing : List Failure) :
    (missing.foldl Progress.fail p).fs = p.fs ∧
      (missing.foldl Progress.fail p).failures = p.failures + missing.length := by
  induction missing generalizing p with
  | nil => exact ⟨rfl, rfl⟩
  | cons failure more ih =>
    obtain ⟨tree, count⟩ := ih (p.fail failure)
    refine ⟨tree, count.trans ?_⟩
    rw [List.length_cons, Progress.fail]
    simp only
    omega

end missing

end CommandLine

namespace Generator
variable {g again : Generator} {fs fs₁ : FileSystem}

/-- What a generator knows is what it would find out anew. -/
theorem generate_of_known (source : Path) (wf : fs.tree.WellFormed)
    (changed : FileSystem.Rewritten IsWrittenName fs fs₁)
    (same : again = g.prepare fs ∨ again = g) :
    (again.generate fs₁ source).2 = (g.generate fs₁ source).2 ∧
      ((again.generate fs₁ source).1 = g.prepare fs ∨ (again.generate fs₁ source).1 = g) := by
  have known : g.prepare fs₁ = g.prepare fs := by
    unfold prepare
    rw [projectFiles_of_rewritten wf changed]
  cases loaded : load fs₁ source with
  | error failure =>
    rw [generate_of_load_error loaded, generate_of_load_error loaded]
    exact ⟨rfl, same⟩
  | ok file =>
    have repeats : g.Repeats again fs₁ fs₁ file :=
      repeats_of_rewritten changed.wellFormed (.refl changed.wellFormed) (known.symm ▸ same)
    have translated : again.translateFile fs₁ file = g.translateFile fs₁ file := by
      unfold Generator.translateFile
      rw [repeats.index, repeats.options, repeats.mode, naming_eq repeats.options]
    rw [generate_of_load loaded, generate_of_load loaded, translated,
      write_congr repeats.options repeats.mode]
    refine ⟨rfl, .inl ?_⟩
    rcases same with rfl | rfl
    · unfold prepare
      by_cases assumes : g.options.assumeExternalType = true
      · rw [if_pos assumes, if_pos assumes]
      · rw [if_neg assumes, if_neg assumes]
        rfl
    · exact known

end Generator

namespace CommandLine
variable {fs t u : FileSystem} {base : Options} {files : List Path}

/-- What is asked of the command besides the files. -/
structure Errand where
  home : Option Path
  config : Option Path
  explicit : Option Path
  mode : RenderMode
  deriving DecidableEq, Repr

namespace Errand
variable {e : Errand}

/-- A run meets nothing of what is asked for: it writes to no file that is given, the options are
read as before, and the root of a project that is named does not come to be. -/
structure Spared (e : Errand) (files : List Path) (fs t : FileSystem) : Prop where
  files : ∀ file ∈ files, (t.read file).toOption = (fs.read file).toOption
  root : ∀ root ∈ e.explicit, found? t root = found? fs root
  config : ∀ config ∈ e.config, (t.read config).toOption = (fs.read config).toOption

/-- Outputs were written, and all that is asked for is found where it was. -/
structure Kept (e : Errand) (files : List Path) (fs t : FileSystem) : Prop where
  rewritten : FileSystem.Rewritten Generator.IsWrittenName fs t
  files : ∀ file ∈ files, found? t file = found? fs file
  root : ∀ root ∈ e.explicit, found? t root = found? fs root
  config : ∀ config ∈ e.config, (t.read config).toOption = (fs.read config).toOption

namespace Kept

theorem refl (wf : fs.tree.WellFormed) : e.Kept files fs fs :=
  ⟨.refl wf, fun _ _ => rfl, fun _ _ => rfl, fun _ _ => rfl⟩

theorem next (kept : e.Kept files fs t) (written : FileSystem.Rewritten Generator.IsWrittenName t u)
    (spared : e.Spared files t u) : e.Kept files fs u where
  rewritten := kept.rewritten.trans written
  files file given := Eq.trans
    (FileSystem.Rewritten.canonical_of_resolve (written.resolve_of_read (spared.files file given)))
    (kept.files file given)
  root root given := (spared.root root given).trans (kept.root root given)
  config config given := (spared.config config given).trans (kept.config config given)

variable (kept : e.Kept files fs t)
include kept

theorem projectFor (wf : fs.tree.WellFormed) {file source : Path}
    (there : found? fs file = some source) :
    CommandLine.projectFor t e.explicit source = CommandLine.projectFor fs e.explicit source :=
  kept.rewritten.projectFor wf kept.root (toOption_eq_some_iff.mp there)

theorem loadGlobal (readable : Settings.loadGlobal fs e.home e.config = .ok base) :
    Settings.loadGlobal t e.home e.config = .ok base := by
  rw [← toOption_eq_some_iff, kept.rewritten.loadGlobal kept.config, readable]
  rfl

end Kept

/-- One attempt at a source: the tree it leaves, and one if it fails. -/
def attempt (e : Errand) (base : Options) (t : FileSystem) (source : Path) : FileSystem × Nat :=
  let project := projectFor t e.explicit source
  match Settings.ofProject t base project with
  | .error _ => (t, 1)
  | .ok settings =>
    let left := (Generator.new project settings.options e.mode).generate t source
    (left.2.1, if left.2.2.isOk then 0 else 1)

theorem attempt_of_malformed {source : Path} {failure : Failure}
    (malformed : Settings.ofProject t base (projectFor t e.explicit source) = .error failure) :
    e.attempt base t source = (t, 1) := by
  unfold attempt
  simp only [malformed]

theorem attempt_of_settings {source : Path} {settings : Settings}
    (inForce : Settings.ofProject t base (projectFor t e.explicit source) = .ok settings) :
    let left :=
      (Generator.new (projectFor t e.explicit source) settings.options e.mode).generate t source
    e.attempt base t source = (left.2.1, if left.2.2.isOk then 0 else 1) := by
  unfold attempt
  simp only [inForce]

/-- Attempts one after another, through trees that keep what is given. -/
inductive Attempts (e : Errand) (base : Options) (files : List Path) (fs : FileSystem) :
    FileSystem → List Path → FileSystem → Nat → Prop where
  | nil (t : FileSystem) : Attempts e base files fs t [] t 0
  | cons {t u : FileSystem} {source : Path} {more : List Path} {n : Nat} (kept : e.Kept files fs t)
      (rest : Attempts e base files fs (e.attempt base t source).1 more u n) :
      Attempts e base files fs t (source :: more) u ((e.attempt base t source).2 + n)

theorem Attempts.split {one two : List Path} {n : Nat}
    (h : e.Attempts base files fs t (one ++ two) u n) :
    ∃ v k m, e.Attempts base files fs t one v k ∧ e.Attempts base files fs v two u m ∧
      n = k + m := by
  induction one generalizing t n with
  | nil => exact ⟨t, 0, n, .nil t, h, (Nat.zero_add n).symm⟩
  | cons source more ih =>
    rw [List.cons_append] at h
    cases h with
    | cons kept rest =>
      obtain ⟨v, k, m, first, second, rfl⟩ := ih rest
      exact ⟨v, _, m, .cons kept first, second, (Nat.add_assoc _ _ _).symm⟩

/-- A source of a project that one of the files is. -/
def Belongs (e : Errand) (files : List Path) (fs : FileSystem) (project : Project)
    (source : Path) : Prop :=
  (∃ file ∈ files, found? fs file = some source) ∧ projectFor fs e.explicit source = project

theorem Kept.projectFor_of_belongs {project : Project} {source : Path} (kept : e.Kept files fs t)
    (wf : fs.tree.WellFormed) (own : e.Belongs files fs project source) :
    CommandLine.projectFor t e.explicit source = project := by
  obtain ⟨⟨file, -, there⟩, same⟩ := own
  rw [kept.projectFor wf there, same]

end Errand

theorem generateOne_spec (g : Generator) (p : Progress) (source : Path) :
    (generateOne g p source).1 = (g.generate p.fs source).1 ∧
      (generateOne g p source).2.fs = (g.generate p.fs source).2.1 ∧
      (generateOne g p source).2.failures =
        p.failures + if (g.generate p.fs source).2.2.isOk then 0 else 1 := by
  unfold generateOne
  obtain ⟨g', left, told⟩ := g.generate p.fs source
  cases told with
  | error failure => exact ⟨rfl, rfl, rfl⟩
  | ok outcome => exact ⟨rfl, rfl, rfl⟩

section groups
variable {e : Errand} {project : Project} {settings : Settings} {g : Generator} {p : Progress}
  {sources : List Path} {n : Nat} (wf : fs.tree.WellFormed)
include wf

/-- The sources of a project come to the same with one generator as with one for each. -/
theorem runAll_of_attempts (own : ∀ s ∈ sources, e.Belongs files fs project s)
    (inForce : Settings.ofProject fs base project = .ok settings)
    (attempts : e.Attempts base files fs t sources u n) (here : p.fs = t)
    (same : g = (Generator.new project settings.options e.mode).prepare fs ∨
      g = Generator.new project settings.options e.mode) :
    (runAll generateOne g p sources).fs = u ∧
      (runAll generateOne g p sources).failures = p.failures + n := by
  induction attempts generalizing g p with
  | nil t => exact ⟨here, rfl⟩
  | @cons t u source more n kept rest ih =>
    have known := Generator.generate_of_known source wf kept.rewritten same
    have still : Settings.ofProject t base project = .ok settings := by
      rw [← toOption_eq_some_iff, kept.rewritten.ofProject wf, inForce]
      rfl
    have place := kept.projectFor_of_belongs wf (own source List.mem_cons_self)
    have result : e.attempt base t source = ((g.generate t source).2.1,
        if (g.generate t source).2.2.isOk then 0 else 1) := by
      rw [Errand.attempt_of_settings (place.symm ▸ still), place, known.1]
    obtain ⟨generator, tree, count⟩ := generateOne_spec g p source
    rw [here] at generator tree count
    obtain ⟨left, total⟩ :=
      ih (g := (generateOne g p source).1) (p := (generateOne g p source).2)
      (fun s hs => own s (List.mem_cons_of_mem source hs)) (by rw [tree, result])
        (generator ▸ known.2)
    refine ⟨left, total.trans ?_⟩
    rw [count, result, Nat.add_assoc]

/-- Where the options of a project are malformed, each of its sources fails on its own. -/
theorem eq_of_attempts {failure : Failure} (own : ∀ s ∈ sources, e.Belongs files fs project s)
    (malformed : Settings.ofProject fs base project = .error failure)
    (attempts : e.Attempts base files fs t sources u n) : u = t ∧ n = sources.length := by
  induction attempts with
  | nil t => exact ⟨rfl, rfl⟩
  | @cons t u source more n kept rest ih =>
    have still : ∃ failure, Settings.ofProject t base project = .error failure := by
      have same := kept.rewritten.ofProject wf base project
      rw [malformed] at same
      cases now : Settings.ofProject t base project with
      | error failure => exact ⟨failure, rfl⟩
      | ok settings => rw [now] at same; cases same
    obtain ⟨failure, still⟩ := still
    have place := kept.projectFor_of_belongs wf (own source List.mem_cons_self)
    have result : e.attempt base t source = (t, 1) :=
      Errand.attempt_of_malformed (place.symm ▸ still)
    obtain ⟨tree, count⟩ := ih fun s hs => own s (List.mem_cons_of_mem source hs)
    rw [result] at tree ⊢
    refine ⟨tree, ?_⟩
    rw [count, List.length_cons, Nat.add_comm]

theorem generateGroup_of_attempts (own : ∀ s ∈ sources, e.Belongs files fs project s)
    (attempts : e.Attempts base files fs t sources u n) (here : p.fs = t) :
    (generateGroup base e.mode false p (project, sources)).fs = u ∧
      (generateGroup base e.mode false p (project, sources)).failures = p.failures + n := by
  have now : sources = [] ∨ e.Kept files fs t := by
    cases attempts with
    | nil t => exact .inl rfl
    | cons kept rest => exact .inr kept
  unfold generateGroup
  rcases now with rfl | kept
  · cases attempts
    split <;> exact ⟨here, rfl⟩
  have same := kept.rewritten.ofProject wf base project
  rw [← here] at same
  cases before : Settings.ofProject fs base project with
  | error failure =>
    rw [before] at same
    obtain ⟨rfl, rfl⟩ := eq_of_attempts wf own before attempts
    cases after : Settings.ofProject p.fs base project with
    | error failure => exact ⟨here, rfl⟩
    | ok settings => rw [after] at same; cases same
  | ok settings =>
    rw [before] at same
    rw [toOption_eq_some_iff.mp same]
    exact runAll_of_attempts wf own before attempts here (.inr rfl)

theorem foldl_generateGroup_of_attempts {groups : List (Project × List Path)}
    (own : ∀ group ∈ groups, ∀ s ∈ group.2, e.Belongs files fs group.1 s)
    (attempts : e.Attempts base files fs t (groups.flatMap (·.2)) u n) (here : p.fs = t) :
    (groups.foldl (generateGroup base e.mode false) p).fs = u ∧
      (groups.foldl (generateGroup base e.mode false) p).failures = p.failures + n := by
  induction groups generalizing p t n with
  | nil =>
    cases attempts
    exact ⟨here, rfl⟩
  | cons group more ih =>
    rw [List.flatMap_cons] at attempts
    obtain ⟨v, k, m, first, second, rfl⟩ := attempts.split
    obtain ⟨tree, count⟩ :=
      generateGroup_of_attempts wf (own group List.mem_cons_self) first here
    obtain ⟨left, total⟩ :=
      ih (fun other ho => own other (List.mem_cons_of_mem group ho)) second tree
    refine ⟨left, total.trans ?_⟩
    rw [count, Nat.add_assoc]

/-- The command comes to what the attempts come to, and to a failure more for each file
that is missing. -/
theorem runGenerate_of_attempts
    (attempts : e.Attempts base files fs fs
      (gather (ofOneProject fs e.explicit) (files.filterMap (found? fs))) u n) :
    (runGenerate fs base files e.explicit e.mode false).fs = u ∧
      (runGenerate fs base files e.explicit e.mode false).failures =
        (files.countP fun file => (found? fs file).isNone) + n := by
  obtain ⟨order, each⟩ := groups_spec (projectFor fs e.explicit) (files.filterMap (found? fs))
  obtain ⟨tree, count⟩ := foldl_fail ⟨fs, "", "", 0⟩ (locate fs files).2
  have own : ∀ group ∈ grouped fs e.explicit (files.filterMap (found? fs)), ∀ s ∈ group.2,
      e.Belongs files fs group.1 s := by
    intro group hg s hs
    obtain ⟨r, hr, place, all⟩ := each group hg
    obtain ⟨there, same⟩ := all s hs
    obtain ⟨first, -, one⟩ := List.mem_filterMap.mp hr
    obtain ⟨file, given, two⟩ := List.mem_filterMap.mp there
    rw [found?, toOption_eq_some_iff] at one two
    refine ⟨⟨file, given, toOption_eq_some_iff.mpr two⟩, ?_⟩
    rw [place]
    exact (projectFor_congr wf one two same).symm
  rw [show gather (ofOneProject fs e.explicit)
    (files.filterMap (found? fs)) = _ from order.symm] at attempts
  obtain ⟨left, total⟩ := foldl_generateGroup_of_attempts wf own attempts tree
  have whole : runGenerate fs base files e.explicit e.mode false =
      (grouped fs e.explicit (files.filterMap (found? fs))).foldl (generateGroup base e.mode false)
        ((locate fs files).2.foldl Progress.fail ⟨fs, "", "", 0⟩) := by
    rw [← locate_fst]
    rfl
  rw [whole]
  refine ⟨left, total.trans ?_⟩
  rw [count, length_locate_snd, Nat.zero_add]

end groups

/-- What the program does once its arguments are understood. -/
def perform (fs : FileSystem) (home : Option Path) (i : Invocation) : Transcript :=
  match Settings.loadGlobal fs home i.config with
  | .error failure =>
    ⟨fs, "", "error: failed to load global settings: " ++ failure.chain ++ "\n", 1⟩
  | .ok base => (runCommand fs base i.command).transcript

theorem run_eq_perform {args : List String} {i : Invocation}
    (asked : Request.ofArguments args = .run i)
    (fs : FileSystem) (home : Option Path) : run fs home args = perform fs home i := by
  unfold run
  rw [asked]
  rfl

namespace Errand
variable {e : Errand} {file : Path}

def run (e : Errand) (fs : FileSystem) (files : List Path) : Transcript :=
  perform fs e.home ⟨e.config, .generate files e.explicit e.mode false⟩

/-- The tree that a run with one file leaves. -/
def after (e : Errand) (fs : FileSystem) (file : Path) : FileSystem := (e.run fs [file]).fs

def fails (e : Errand) (fs : FileSystem) (file : Path) : Bool := (e.run fs [file]).exitCode != 0

/-- Runs with one file each: the trees they find, and their files. -/
def visits (e : Errand) : FileSystem → List Path → List (FileSystem × Path)
  | _, [] => []
  | fs, file :: more => (fs, file) :: e.visits (e.after fs file) more

/-- Files of one project. -/
def together (e : Errand) (fs : FileSystem) (a b : Path) : Bool :=
  match found? fs a, found? fs b with
  | some s, some t => ofOneProject fs e.explicit s t
  | _, _ => false

/-- The files by projects, these in the order in which they are first met. -/
def order (e : Errand) (fs : FileSystem) (files : List Path) : List Path :=
  gather (e.together fs) files

/-- Why a run with one file fails. -/
inductive Refused (e : Errand) (base : Options) (fs : FileSystem) (file : Path) : Prop where
  | unreadable (trouble : FileTrouble) (missing : fs.canonical file = .error trouble)
  | malformed (source : Path) (failure : Failure) (there : fs.canonical file = .ok source)
      (settings : Settings.ofProject fs base (projectFor fs e.explicit source) = .error failure)
  | failed (source : Path) (settings : Settings) (failure : Failure)
      (there : fs.canonical file = .ok source)
      (inForce : Settings.ofProject fs base (projectFor fs e.explicit source) = .ok settings)
      (failed :
        ((Generator.new (projectFor fs e.explicit source) settings.options e.mode).generate fs
        source).2.2 = .error failure)

/-- Files are generated under the usual extension in each project that one of the
given ones is of. -/
def Usual (e : Errand) (base : Options) (fs : FileSystem) (files : List Path) : Prop :=
  ∀ file ∈ files, ∀ source settings, fs.canonical file = .ok source →
    Settings.ofProject fs base (projectFor fs e.explicit source) = .ok settings →
      settings.options.generatedFileExtension = ".d.ts"

/-- The extension that a file is generated under, if it is there and its options can be read. -/
def extension? (e : Errand) (base : Options) (fs : FileSystem) (file : Path) : Option String :=
  (found? fs file).bind fun source =>
    (Settings.ofProject fs base (projectFor fs e.explicit source)).toOption.map fun settings =>
      settings.options.generatedFileExtension

instance : Decidable (e.Usual base fs files) :=
  decidable_of_iff (∀ file ∈ files, ∀ ext ∈ e.extension? base fs file, ext = ".d.ts") (by
    unfold Usual extension? found?
    refine forall₂_congr fun file _ => ?_
    cases fs.canonical file with
    | error trouble => simp
    | ok source =>
      constructor
      · rintro each source' settings ⟨⟩ inForce
        refine each _ ?_
        rw [toOption_ok, Option.bind_some, inForce]
        rfl
      · intro each ext there
        obtain ⟨settings, inForce, rfl⟩ := Option.map_eq_some_iff.mp there
        exact each source settings rfl (toOption_eq_some_iff.mp inForce))

theorem run_eq (readable : Settings.loadGlobal fs e.home e.config = .ok base) (files : List Path) :
    e.run fs files = (runGenerate fs base files e.explicit e.mode false).transcript := by
  unfold run perform
  rw [readable]
  rfl

section single
variable (wf : fs.tree.WellFormed) (readable : Settings.loadGlobal fs e.home e.config = .ok base)
include wf readable

theorem single_of_missing (missing : found? fs file = none) :
    e.after fs file = fs ∧ e.fails fs file = true := by
  have nothing : [file].filterMap (found? fs) = [] := List.filterMap_cons_none missing
  have attempts : e.Attempts base [file] fs fs
      (gather (ofOneProject fs e.explicit) ([file].filterMap (found? fs))) fs 0 := by
    rw [nothing, gather]
    exact .nil fs
  obtain ⟨tree, count⟩ := runGenerate_of_attempts wf attempts
  have one : ([file].countP fun file => (found? fs file).isNone) = 1 := by simp [missing]
  rw [one] at count
  unfold after fails
  rw [run_eq readable, Progress.transcript]
  simp only [tree, count, true_and]
  rfl

theorem single_of_found {source : Path} (there : found? fs file = some source) :
    e.after fs file = (e.attempt base fs source).1 ∧
      e.fails fs file = ((e.attempt base fs source).2 != 0) := by
  have one : [file].filterMap (found? fs) = [source] := List.filterMap_cons_some there
  have attempts : e.Attempts base [file] fs fs
      (gather (ofOneProject fs e.explicit) ([file].filterMap (found? fs)))
      (e.attempt base fs source).1 ((e.attempt base fs source).2 + 0) := by
    rw [one, gather, List.filter_nil, List.filter_nil, gather]
    exact .cons (.refl wf) (.nil _)
  obtain ⟨tree, count⟩ := runGenerate_of_attempts wf attempts
  have here : ([file].countP fun file => (found? fs file).isNone) = 0 := by simp [there]
  rw [here, Nat.zero_add, Nat.add_zero] at count
  unfold after fails
  rw [run_eq readable, Progress.transcript]
  simp only [tree, count, true_and]
  by_cases done : (e.attempt base fs source).2 = 0
  · rw [if_pos done, done]
  · rw [if_neg done, bne_iff_ne.mpr done]
    rfl

omit readable in
theorem attempt_cases (e : Errand) (base : Options) (source : Path) :
    ((e.attempt base fs source).2 = 1 ∧ (e.attempt base fs source).1 = fs) ∨
      (e.attempt base fs source).2 = 0 := by
  cases inForce : Settings.ofProject fs base (projectFor fs e.explicit source) with
  | error failure =>
    rw [attempt_of_malformed inForce]
    exact .inl ⟨rfl, rfl⟩
  | ok settings =>
    rw [attempt_of_settings inForce]
    rcases @Generator.generate_cases
      (.new (projectFor fs e.explicit source) settings.options e.mode) fs
      source wf with ⟨same, -⟩ | ⟨-, o, -, ran, -⟩
    · split
      · exact .inr rfl
      · exact .inl ⟨rfl, same⟩
    · rw [ran]
      exact .inr rfl

/-- A run that fails leaves the tree as it is. -/
theorem after_of_fails (failed : e.fails fs file = true) : e.after fs file = fs := by
  cases there : found? fs file with
  | none => exact (single_of_missing wf readable there).1
  | some source =>
    obtain ⟨tree, told⟩ := single_of_found wf readable there
    rcases attempt_cases wf e base source with ⟨-, same⟩ | done
    · exact tree.trans same
    · rw [told, done] at failed
      cases failed

theorem fails_iff : e.fails fs file = true ↔ e.Refused base fs file := by
  cases there : fs.canonical file with
  | error trouble =>
    have missing : found? fs file = none := by rw [found?, there]; rfl
    exact ⟨fun _ => .unreadable trouble there,
      fun _ => (single_of_missing wf readable missing).2⟩
  | ok source =>
    have known : found? fs file = some source := by rw [found?, there]; rfl
    rw [(single_of_found wf readable known).2]
    cases inForce : Settings.ofProject fs base (projectFor fs e.explicit source) with
    | error failure =>
      rw [attempt_of_malformed inForce]
      exact ⟨fun _ => .malformed source failure there inForce, fun _ => rfl⟩
    | ok settings =>
      rw [attempt_of_settings inForce]
      cases told :
        ((Generator.new (projectFor fs e.explicit source) settings.options e.mode).generate fs
        source).2.2 with
      | error failure =>
        exact ⟨fun _ => .failed source settings failure there inForce told, fun _ => rfl⟩
      | ok outcome =>
        refine ⟨nofun, fun refused => ?_⟩
        cases refused with
        | unreadable trouble missing => rw [there] at missing; cases missing
        | malformed source' failure there' malformed =>
          cases there.symm.trans there'
          rw [inForce] at malformed
          cases malformed
        | failed source' settings' failure there' inForce' failed =>
          cases there.symm.trans there'
          cases inForce.symm.trans inForce'
          rw [told] at failed
          cases failed

end single

section sequence
variable (wf : fs.tree.WellFormed) (readable : Settings.loadGlobal fs e.home e.config = .ok base)
include wf readable

/-- A run with one of the files writes outputs. -/
theorem rewritten_after (usual : e.Usual base fs files) (kept : e.Kept files fs t)
    (given : file ∈ files) :
    FileSystem.Rewritten Generator.IsWrittenName t (e.after t file) := by
  have wf' := kept.rewritten.wellFormed
  have readable' := kept.loadGlobal readable
  have unmoved := kept.files file given
  cases there : found? t file with
  | none =>
    rw [(single_of_missing wf' readable' there).1]
    exact .refl wf'
  | some source =>
    rw [there] at unmoved
    rw [(single_of_found wf' readable' there).1]
    have place := kept.projectFor wf unmoved.symm
    cases inForce : Settings.ofProject t base (projectFor t e.explicit source) with
    | error failure =>
      rw [attempt_of_malformed inForce]
      exact .refl wf'
    | ok settings =>
      rw [attempt_of_settings inForce]
      have same := kept.rewritten.ofProject wf base (projectFor fs e.explicit source)
      rw [← place, inForce, place] at same
      have ext := usual file given source settings (toOption_eq_some_iff.mp unmoved.symm)
        (toOption_eq_some_iff.mp same.symm)
      cases loaded : Generator.load t source with
      | error failure =>
        rw [Generator.generate_of_load_error loaded]
        exact .refl wf'
      | ok file => exact (Generator.rewritten_generate wf' ext loaded).1

/-- Where no run meets what is asked for, each finds it where it was. -/
theorem kept_of_visits (usual : e.Usual base fs files) {some : List Path}
    (among : ∀ file ∈ some, file ∈ files) (kept : e.Kept files fs t)
    (spared : ∀ v ∈ e.visits t some, e.Spared files v.1 (e.after v.1 v.2)) :
    ∀ v ∈ e.visits t some, e.Kept files fs v.1 := by
  induction some generalizing t with
  | nil => exact nofun
  | cons file more ih =>
    rw [visits, List.forall_mem_cons] at spared ⊢
    obtain ⟨here, later⟩ := spared
    have step := rewritten_after wf readable usual kept (among file List.mem_cons_self)
    exact ⟨kept, ih (fun other ho => among other (List.mem_cons_of_mem file ho))
      (kept.next step here) later⟩

/-- Runs do not meet paths under other names than those of outputs and sidecars,
nor what is there. -/
theorem spared_of_names (usual : e.Usual base fs files) {some : List Path}
    (among : ∀ file ∈ some, file ∈ files) (kept : e.Kept files fs t)
    (named : ∀ p ∈ files ++ e.config.toList, ∀ n,
      p.fileName? = .some n → ¬ Generator.IsWrittenName n)
    (there : ∀ root ∈ e.explicit, (found? fs root).isSome = true) :
    ∀ v ∈ e.visits t some, e.Spared files v.1 (e.after v.1 v.2) := by
  induction some generalizing t with
  | nil => exact nofun
  | cons file more ih =>
    have step := rewritten_after wf readable usual kept (among file List.mem_cons_self)
    have here : e.Spared files t (e.after t file) := by
      refine ⟨fun p hp => step.read (named p (List.mem_append_left _ hp)), fun root hr => ?_,
        fun p hp => step.read (named p (List.mem_append_right _ (Option.mem_toList.mpr hp)))⟩
      have before := there root hr
      rw [← kept.root root hr] at before
      obtain ⟨r, canonical⟩ := Option.isSome_iff_exists.mp before
      rw [canonical]
      exact toOption_eq_some_iff.mpr (step.canonical (toOption_eq_some_iff.mp canonical))
    rw [visits, List.forall_mem_cons]
    exact ⟨here, ih (fun other ho => among other (List.mem_cons_of_mem file ho))
      (kept.next step here)⟩

omit wf in
/-- The runs of the files there are, in attempts; the others only add to the failures. -/
theorem attempts_of_visits {some : List Path} (among : ∀ file ∈ some, file ∈ files)
    (kept : ∀ v ∈ e.visits t some, e.Kept files fs v.1) :
    ∃ n, e.Attempts base files fs t (some.filterMap (found? fs)) (some.foldl e.after t) n ∧
      (e.visits t some).countP (fun v => e.fails v.1 v.2) =
        (some.countP fun file => (found? fs file).isNone) + n := by
  induction some generalizing t with
  | nil => exact ⟨0, .nil t, rfl⟩
  | cons file more ih =>
    rw [visits, List.forall_mem_cons] at kept
    obtain ⟨here, later⟩ := kept
    obtain ⟨n, attempts, count⟩ :=
      ih (fun other ho => among other (List.mem_cons_of_mem file ho)) later
    have wf' := here.rewritten.wellFormed
    have readable' := here.loadGlobal readable
    have unmoved := here.files file (among file List.mem_cons_self)
    rw [visits, List.countP_cons, List.countP_cons, List.foldl_cons, count]
    cases there : found? t file with
    | none =>
      rw [there] at unmoved
      obtain ⟨same, failed⟩ := single_of_missing wf' readable' there
      rw [List.filterMap_cons_none unmoved.symm]
      rw [same] at attempts ⊢
      refine ⟨n, attempts, ?_⟩
      simp only [failed, ← unmoved, Option.isNone_none, if_true]
      omega
    | some source =>
      rw [there] at unmoved
      obtain ⟨tree, told⟩ := single_of_found wf' readable' there
      rw [List.filterMap_cons_some unmoved.symm]
      rw [tree] at attempts ⊢
      refine ⟨_, .cons here attempts, ?_⟩
      simp only [told, ← unmoved, Option.isNone_some, Bool.false_eq_true, if_false]
      rcases attempt_cases wf' e base source with ⟨one, -⟩ | done
      · simp only [one, Nat.reduceBNe, if_true]
        omega
      · simp only [done, Nat.reduceBNe, Bool.false_eq_true, if_false]
        omega

end sequence

theorem filterMap_order (e : Errand) (fs : FileSystem) (files : List Path) :
    (e.order fs files).filterMap (found? fs) =
      gather (ofOneProject fs e.explicit) (files.filterMap (found? fs)) := by
  refine filterMap_gather (fun a b s t one two => ?_) (fun a b missing => ?_) files
  · rw [together, one, two]
  · rw [together, missing]

/-- What runs with one file each leave is what those of them leave that succeed. -/
theorem foldl_of_fails {some : List Path}
    (idle : ∀ v ∈ e.visits t some, e.fails v.1 v.2 = true → e.after v.1 v.2 = v.1) :
    (((e.visits t some).filter fun v => !e.fails v.1 v.2).map (·.2)).foldl e.after t =
      some.foldl e.after t := by
  induction some generalizing t with
  | nil => rfl
  | cons file more ih =>
    rw [visits, List.forall_mem_cons] at idle
    obtain ⟨here, later⟩ := idle
    rw [visits, List.foldl_cons, ← ih later]
    cases failed : e.fails t file with
    | true =>
      rw [List.filter_cons_of_neg (by simp [failed]), here failed]
    | false =>
      rw [List.filter_cons_of_pos (by simp [failed])]
      rfl

/-- A command with several files leaves the tree that commands with one file each leave,
project by project; it counts the ones of these that fail, and succeeds if none does. Each
fails for a reason of its own and then leaves the tree to the next as it was, so the tree is
that of those that succeed. -/
theorem batch_eq_singles (e : Errand) (files : List Path) (wf : fs.tree.WellFormed)
    (readable : Settings.loadGlobal fs e.home e.config = .ok base) (usual : e.Usual base fs files)
    (spared : ∀ v ∈ e.visits fs (e.order fs files), e.Spared files v.1 (e.after v.1 v.2)) :
    let order := e.order fs files
    let visits := e.visits fs order
    order.Perm files ∧
      (e.run fs files).fs = order.foldl e.after fs ∧
      (runGenerate fs base files e.explicit e.mode false).failures =
        visits.countP (fun v => e.fails v.1 v.2) ∧
      ((e.run fs files).exitCode = 0 ↔ ∀ v ∈ visits, (e.run v.1 [v.2]).exitCode = 0) ∧
      (∀ v ∈ visits, e.fails v.1 v.2 = true ↔ e.Refused base v.1 v.2) ∧
      (e.run fs files).fs =
        ((visits.filter fun v => !e.fails v.1 v.2).map (·.2)).foldl e.after fs := by
  intro order visits
  have perm : order.Perm files := gather_perm _ _
  have among : ∀ file ∈ order, file ∈ files := fun file => perm.mem_iff.mp
  have kept : ∀ v ∈ visits, e.Kept files fs v.1 :=
    kept_of_visits wf readable usual among (.refl wf) spared
  obtain ⟨n, attempts, count⟩ := attempts_of_visits readable among kept
  rw [filterMap_order] at attempts
  obtain ⟨tree, failures⟩ := runGenerate_of_attempts wf attempts
  rw [perm.countP_eq, ← failures] at count
  have result : (e.run fs files).fs = order.foldl e.after fs := by
    rw [run_eq readable]
    exact tree
  refine ⟨perm, result, count.symm, ?_, fun v hv => ?_, ?_⟩
  · have exits : (e.run fs files).exitCode = 0 ↔
        visits.countP (fun v => e.fails v.1 v.2) = 0 := by
      rw [run_eq readable, Progress.transcript, count]
      simp
    rw [exits, List.countP_eq_zero]
    simp only [fails, bne_iff_ne, not_not]
  · exact fails_iff (kept v hv).rewritten.wellFormed ((kept v hv).loadGlobal readable)
  · rw [result, foldl_of_fails]
    exact fun v hv => after_of_fails (kept v hv).rewritten.wellFormed
      ((kept v hv).loadGlobal readable)

/-- Three projects: one with a file that cannot be read as a source, one with options that cannot be
read, and one without a project file. -/
def troubled : FileSystem :=
  ⟨.dir [("p", .dir [("A.cs", .file "enum A \x7b X \x7d"), ("App.csproj", .file ""),
      ("Bad.cs", .file "enum \x7b")]),
    ("q", .dir [("C.cs", .file "enum C \x7b \x7d"), ("Lib.csproj", .file ""),
      ("tsdefgen.json", .file "?")]), ("r", .dir [("D.cs", .file "enum D \x7b Y \x7d")])], []⟩

theorem batch_eq_singles_of_troubled :
    let e : Errand := ⟨none, none, none, .full⟩
    let files : List Path :=
      [⟨"p/A.cs"⟩, ⟨"q/C.cs"⟩, ⟨"gone.cs"⟩, ⟨"p/Bad.cs"⟩, ⟨"r/D.cs"⟩]
    let order : List Path :=
      [⟨"p/A.cs"⟩, ⟨"p/Bad.cs"⟩, ⟨"q/C.cs"⟩, ⟨"gone.cs"⟩, ⟨"r/D.cs"⟩]
    troubled.tree.WellFormed ∧
      Settings.loadGlobal troubled e.home e.config = .ok .default ∧
      e.Usual .default troubled files ∧
      (∀ v ∈ e.visits troubled (e.order troubled files),
        e.Spared files v.1 (e.after v.1 v.2)) ∧ e.order troubled files = order ∧
      (e.run troubled files).fs = order.foldl e.after troubled ∧
      (runGenerate troubled .default files none .full false).failures = 3 ∧
      ((e.run troubled files).fs.read ⟨"r/D.cs.d.ts"⟩).toOption =
        some "declare module Server.Dtos \x7b\n\tconst enum D \x7b\n\t\tY,\n\t\x7d\n\x7d\n" := by
  intro e files order
  have wf : troubled.tree.WellFormed := by
    simp only [troubled, FileTree.WellFormed, FileTree.WellFormedIn]
    decide
  have readable : Settings.loadGlobal troubled e.home e.config = .ok .default := rfl
  have usual : e.Usual .default troubled files := by decide +kernel
  have spared : ∀ v ∈ e.visits troubled (e.order troubled files),
      e.Spared files v.1 (e.after v.1 v.2) :=
    spared_of_names wf readable usual (fun file => (gather_perm _ _).mem_iff.mp) (.refl wf)
      (by decide +kernel) (fun root given => by cases given)
  have ordered : e.order troubled files = order := by decide +kernel
  obtain ⟨-, tree, count, -⟩ := batch_eq_singles e files wf readable usual spared
  rw [ordered] at tree count
  refine ⟨wf, readable, usual, spared, ordered, tree, count.trans ?_, ?_⟩
  · decide +kernel
  · rw [tree]
    decide +kernel

/-- The first run writes over the file that the options are read from. -/
def configured : FileSystem :=
  ⟨.dir [("A.cs", .file "enum A \x7b X \x7d"), ("A.cs.d.ts", .file "global_scope = true"),
    ("B.cs", .file "enum B \x7b Y \x7d")], []⟩

/-- A command reads its options once. Commands with one file each read them each time, and find what
the earlier ones wrote. -/
theorem batch_reads_options_once :
    let e : Errand := ⟨none, some ⟨"A.cs.d.ts"⟩, none, .full⟩
    let files : List Path := [⟨"A.cs"⟩, ⟨"B.cs"⟩]
    let base : Options := { Options.default with globalScope := true }
    configured.tree.WellFormed ∧ Settings.loadGlobal configured e.home e.config = .ok base ∧
      e.Usual base configured files ∧ e.order configured files = files ∧
      (∀ v ∈ e.visits configured files, ∀ file ∈ files,
        ((e.after v.1 v.2).read file).toOption = (v.1.read file).toOption) ∧
      ((e.run configured files).fs.read ⟨"B.cs.d.ts"⟩).toOption =
        some "declare const enum B \x7b\n\tY,\n\x7d\n" ∧
      ((files.foldl e.after configured).read ⟨"B.cs.d.ts"⟩).toOption =
        some "declare module Server.Dtos \x7b\n\tconst enum B \x7b\n\t\tY,\n\t\x7d\n\x7d\n" := by
  intro e files base
  have wf : configured.tree.WellFormed := by
    simp only [configured, FileTree.WellFormed, FileTree.WellFormedIn]
    decide
  refine ⟨wf, ?_, ?_, ?_, ?_, ?_, ?_⟩ <;> decide +kernel

end Errand

end CommandLine

end Ambient
