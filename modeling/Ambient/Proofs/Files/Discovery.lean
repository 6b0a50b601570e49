import Ambient.Proofs.Files.Sources
import Ambient.Proofs.Path.Descend
import Ambient.Proofs.Text.Order

/-!
# Finding the files of a project

The walk through a tree visits every file that no skipped directory lies on the way to, and each
before the ones whose paths come later. So the sources are all files with such names, in the order
of their paths, and the override that is found is the first one.

Paths are compared component by component, and two names by their bytes. What lies below one
directory stands in the order of the names that lead to it.
-/

namespace Ambient.Path

namespace Component

def rank : Component → Nat
  | root => 0
  | current => 1
  | parent => 2
  | normal _ => 3

def Before : Component → Component → Prop
  | normal a, normal b => Text.utf8 a < Text.utf8 b
  | c, d => c.rank < d.rank

theorem Before.asymm {c d : Component} (h : c.Before d) : ¬ d.Before c := by
  cases c <;> cases d <;> simp only [Before, rank] at h ⊢
  case normal.normal => exact List.lt_asymm h
  all_goals omega

end Component

def Before (p q : Path) : Prop := List.Lex Component.Before p.components q.components

variable {p q root : Path} {a b : List String}

theorem Before.asymm (h : p.Before q) : ¬ q.Before p :=
  List.lex_asymm (fun less => Component.Before.asymm less) h

theorem before_of_lex (root : List Component) (less : List.Lex (· < ·) a b) :
    List.Lex Component.Before (root ++ a.map .normal) (root ++ b.map .normal) := by
  refine List.Lex.append_left _ ?_ root
  induction less with
  | nil => exact .nil
  | rel first => exact .rel (Text.utf8_lt first)
  | cons _ ih => exact .cons ih

theorem before_descend (left : ∀ n ∈ a, IsEntry n) (right : ∀ n ∈ b, IsEntry n)
    (some : a ≠ [])
    (less : List.Lex (· < ·) a b) : (root.descend a).Before (root.descend b) := by
  have some' : b ≠ [] := by
    rintro rfl
    cases less
  rw [Before, components_descend left some, components_descend right some']
  exact before_of_lex root.components less

end Ambient.Path

namespace Ambient

namespace FileTree
variable {t c : FileTree} {es : List (String × FileTree)} {enters : String → Bool}
  {n name : String} {q : List String}

theorem exists_of_mem_filesIn (h : q ∈ filesIn enters es) :
    ∃ e ∈ es, ∃ below, q = e.1 :: below := by
  induction es with
  | nil => simp [filesIn] at h
  | cons e more ih =>
    obtain ⟨name, t⟩ := e
    rw [filesIn] at h
    rcases List.mem_append.mp h with here | later
    · split at here
      · simp at here
      · obtain ⟨below, -, rfl⟩ := List.mem_map.mp here
        exact ⟨_, List.mem_cons_self, below, rfl⟩
    · obtain ⟨e, he, shown⟩ := ih later
      exact ⟨e, List.mem_cons_of_mem _ he, shown⟩

mutual
theorem pairwise_files : (t : FileTree) → t.WellFormed →
    (t.files enters).Pairwise (List.Lex (· < ·))
  | file text, _ => by
    rw [files]
    exact List.pairwise_singleton _ _
  | dir entries, wf => by
    rw [files]
    exact pairwise_filesIn entries wf

theorem pairwise_filesIn : (es : List (String × FileTree)) → WellFormedIn es →
    (filesIn enters es).Pairwise (List.Lex (· < ·))
  | [], _ => by
    rw [filesIn]
    exact .nil
  | (name, t) :: more, wf => by
    obtain ⟨-, later, sub, rest⟩ := wf
    rw [filesIn, List.pairwise_append]
    refine ⟨?_, pairwise_filesIn more rest, ?_⟩
    · split
      · exact .nil
      · rw [List.pairwise_map]
        exact (pairwise_files t sub).imp .cons
    · -- what is found in the later entries starts with a later name
      intro p hp q hq
      obtain ⟨e, he, below, rfl⟩ := exists_of_mem_filesIn hq
      split at hp
      · simp at hp
      · obtain ⟨inner, -, rfl⟩ := List.mem_map.mp hp
        exact .rel (later e he)
end

theorem mem_of_child? (found : (dir es).child? n = some c) : (n, c) ∈ es := by
  induction es with
  | nil => cases found
  | cons e more ih =>
    obtain ⟨m, t⟩ := e
    rw [child?_cons] at found
    split at found
    · rename_i same
      cases found
      rw [same]
      exact List.mem_cons_self
    · exact List.mem_cons_of_mem _ (ih found)

theorem child?_of_mem (wf : WellFormedIn es) (there : (n, c) ∈ es) :
    (dir es).child? n = some c := by
  induction es with
  | nil => cases there
  | cons e more ih =>
    obtain ⟨m, t⟩ := e
    obtain ⟨-, later, -, rest⟩ := wf
    rw [child?_cons]
    rcases List.mem_cons.mp there with here | there
    · cases here
      rw [if_pos rfl]
    · have other : m ≠ n := ne_of_lt (later _ there)
      rw [if_neg other]
      exact ih rest there

theorem cons_mem_filesIn : n :: q ∈ filesIn enters es ↔
    ∃ t, (n, t) ∈ es ∧ (t.isDir = true → enters n = true) ∧ q ∈ t.files enters := by
  induction es with
  | nil => simp [filesIn]
  | cons e more ih =>
    obtain ⟨m, t⟩ := e
    rw [filesIn, List.mem_append, ih]
    constructor
    · rintro (here | ⟨u, there, enterable, found⟩)
      · split at here
        · simp at here
        · rename_i open_
          obtain ⟨below, found, same⟩ := List.mem_map.mp here
          cases same
          refine ⟨t, List.mem_cons_self, fun dir => ?_, found⟩
          simpa [dir] using open_
      · exact ⟨u, List.mem_cons_of_mem _ there, enterable, found⟩
    · rintro ⟨c, there, enterable, found⟩
      rcases List.mem_cons.mp there with here | there
      · cases here
        refine .inl ?_
        have open_ : ¬ (t.isDir && !enters n) = true := by simpa using enterable
        rw [if_neg open_]
        exact List.mem_map_of_mem found
      · exact .inr ⟨c, there, enterable, found⟩

/-- On the way to a text there are directories, and none at its end. -/
theorem isDir_iff_of_textAt (there : (c.textAt q).isSome = true) : c.isDir = true ↔ q ≠ [] := by
  cases c with
  | file text =>
    cases q with
    | nil => simp [isDir]
    | cons n q => simp at there
  | dir es =>
    cases q with
    | nil => simp at there
    | cons n q => simp [isDir]

theorem forall_mem_dropLast_cons {P : String → Prop} :
    (∀ m ∈ (n :: q).dropLast, P m) ↔ (q ≠ [] → P n) ∧ ∀ m ∈ q.dropLast, P m := by
  cases q with
  | nil => simp
  | cons k q => simp

/-- The walk finds the files that are reached through directories that are entered. -/
theorem mem_files_iff (wf : t.WellFormed) : q ∈ t.files enters ↔
    (t.textAt q).isSome = true ∧ ∀ n ∈ q.dropLast, enters n = true := by
  induction q generalizing t with
  | nil =>
    cases t with
    | file text => simp [files, textAt, find?]
    | dir es =>
      have other : [] ∉ filesIn enters es := by
        intro found
        obtain ⟨e, -, below, none⟩ := exists_of_mem_filesIn found
        cases none
      simp [files, other]
  | cons n q ih =>
    cases t with
    | file text => simp [files]
    | dir es =>
      rw [files, cons_mem_filesIn, textAt_cons, forall_mem_dropLast_cons]
      constructor
      · rintro ⟨c, there, enterable, found⟩
        have child := child?_of_mem wf there
        obtain ⟨text, below⟩ := (ih (wellFormed_of_child? (t := dir es) wf child)).mp found
        rw [child, Option.bind_some]
        exact ⟨text, fun more => enterable ((isDir_iff_of_textAt text).mpr more), below⟩
      · rintro ⟨there, entered, below⟩
        cases child : (dir es).child? n with
        | none =>
          rw [child] at there
          cases there
        | some c =>
          rw [child, Option.bind_some] at there
          exact ⟨c, mem_of_child? child,
            fun isDir => entered ((isDir_iff_of_textAt there).mp isDir),
            (ih (wellFormed_of_child? (t := dir es) wf child)).mpr ⟨there, below⟩⟩

end FileTree

/-- The first hit in an ordered list is the least one. -/
theorem find?_eq_some_iff_of_pairwise {α : Type} {r : α → α → Prop}
    (asymm : ∀ x y, r x y → ¬ r y x)
    {P : α → Bool} {l : List α} (sorted : l.Pairwise r) {x : α} :
    l.find? P = some x ↔
      (x ∈ l ∧ P x = true) ∧ ∀ y, y ∈ l ∧ P y = true → y = x ∨ r x y := by
  induction l with
  | nil => simp
  | cons a l ih =>
    obtain ⟨first, rest⟩ := List.pairwise_cons.mp sorted
    cases hit : P a with
    | true =>
      rw [List.find?_cons_of_pos hit]
      constructor
      · rintro same
        cases same
        refine ⟨⟨List.mem_cons_self, hit⟩, fun y hy => ?_⟩
        rcases List.mem_cons.mp hy.1 with here | later
        · exact .inl here
        · exact .inr (first y later)
      · rintro ⟨⟨there, -⟩, least⟩
        rcases least a ⟨List.mem_cons_self, hit⟩ with same | before
        · rw [same]
        · rcases List.mem_cons.mp there with rfl | later
          · rfl
          · exact absurd before (asymm _ _ (first x later))
    | false =>
      have miss : ∀ y, y ∈ a :: l ∧ P y = true ↔ y ∈ l ∧ P y = true := by
        intro y
        rw [List.mem_cons]
        constructor
        · rintro ⟨rfl | later, hy⟩
          · rw [hit] at hy
            cases hy
          · exact ⟨later, hy⟩
        · exact fun h => ⟨.inr h.1, h.2⟩
      rw [List.find?_cons_of_neg (by simp [hit]), ih rest]
      simp only [miss]

theorem FileSystem.wellFormed_of_node? {fs : FileSystem} {p : Path} {t : FileTree}
    (wf : fs.tree.WellFormed) (found : fs.node? p = some t) : t.WellFormed := by
  unfold node? at found
  split at found
  · exact FileTree.wellFormed_of_find? wf found
  · cases found

namespace Project
variable {fs : FileSystem} {p : Project} {path : Path} {name : String}

/-- Names that differ at most in the case of ASCII letters. -/
def Alike (a b : String) : Prop := a.toList.map Char.toLower = b.toList.map Char.toLower

theorem toList_toLower (s : String) : s.toLower.toList = s.toList.map Char.toLower :=
  String.toList_map

theorem alike_iff {a b : String} : Alike a b ↔ a.toLower = b.toLower := by
  rw [Alike, ← String.toList_inj, toList_toLower, toList_toLower]

theorem toLower_skippedDirs : ∀ skip ∈ skippedDirs, skip.toLower = skip := by
  decide +kernel

theorem toLower_overrideName : overrideName.toLower = overrideName := by
  decide +kernel

/-- A directory that is hidden or holds what is built or installed. -/
def IsSkipped (name : String) : Prop :=
  name.toList.head? = some '.' ∨ ∃ skip ∈ ["bin", "obj", "node_modules"], Alike name skip

def IsSource (name : String) : Prop :=
  ".cs".toList <:+ name.toList ∨ ".types.json".toList <:+ name.toList

def IsOverride (name : String) : Prop := Alike name "tsdefgen.json"

/-- There is a file at the path, below the root of the project and in no directory
that is skipped. -/
def Reaches (p : Project) (fs : FileSystem) (path : Path) : Prop :=
  ∃ t below, fs.node? p.root = some t ∧ path = p.root.descend below ∧
    (t.textAt below).isSome = true ∧ ∀ dir ∈ below.dropLast, ¬ IsSkipped dir

theorem startsWith_dot_iff : Text.startsWith name "." = true ↔ name.toList.head? = some '.' := by
  have dot : ".".toList = ['.'] := rfl
  rw [Text.startsWith, dot]
  cases name.toList with
  | nil => exact ⟨nofun, nofun⟩
  | cons c r =>
    rw [List.isPrefixOf_cons_cons, List.isPrefixOf_nil_left, Bool.and_true, beq_iff_eq,
      List.head?_cons, Option.some_inj]
    exact eq_comm

theorem entersDir_iff : entersDir name = true ↔ ¬ IsSkipped name := by
  have kept : skippedDirs.contains name.toLower = true ↔
      ∃ skip ∈ skippedDirs, Alike name skip := by
    rw [List.contains_iff_mem]
    constructor
    · intro there
      exact ⟨_, there, alike_iff.mpr (toLower_skippedDirs _ there).symm⟩
    · rintro ⟨skip, there, alike⟩
      rw [alike_iff.mp alike, toLower_skippedDirs skip there]
      exact there
  rw [entersDir, Bool.and_eq_true, Bool.not_eq_true', Bool.not_eq_true', ← Bool.not_eq_true,
    ← Bool.not_eq_true, startsWith_dot_iff, kept, IsSkipped, not_or]
  rfl

theorem isSourceName_iff : isSourceName name = true ↔ IsSource name := by
  simp only [isSourceName, IsSource, documentSuffix, Text.endsWith, Bool.or_eq_true,
    List.isSuffixOf_iff_suffix]

theorem toLower_eq_overrideName : (name.toLower == overrideName) = true ↔ IsOverride name := by
  rw [beq_iff_eq, IsOverride, alike_iff]
  exact Eq.congr_right toLower_overrideName.symm

theorem any_fileName? {P : String → Bool} {Q : String → Prop}
    (same : ∀ n, P n = true ↔ Q n) :
    path.fileName?.any P = true ↔ ∃ n ∈ path.fileName?, Q n := by
  cases path.fileName? <;> simp [same]

theorem mem_files_iff (wf : fs.tree.WellFormed) : path ∈ p.files fs ↔ p.Reaches fs path := by
  rw [files, List.mem_map]
  cases root : fs.node? p.root with
  | none => simp [Reaches, root]
  | some t =>
    have sub := FileSystem.wellFormed_of_node? wf root
    constructor
    · rintro ⟨below, found, rfl⟩
      obtain ⟨there, entered⟩ := (FileTree.mem_files_iff sub).mp found
      exact ⟨t, below, root, rfl, there, fun n hn => entersDir_iff.mp (entered n hn)⟩
    · rintro ⟨u, below, same, rfl, there, entered⟩
      cases root.symm.trans same
      exact ⟨below, (FileTree.mem_files_iff sub).mpr
        ⟨there, fun n hn => entersDir_iff.mpr (entered n hn)⟩, rfl⟩

theorem pairwise_files (wf : fs.tree.WellFormed) (p : Project) :
    (p.files fs).Pairwise Path.Before := by
  rw [files, List.pairwise_map]
  cases root : fs.node? p.root with
  | none => exact .nil
  | some t =>
    have sub := FileSystem.wellFormed_of_node? wf root
    cases t with
    | file text =>
      rw [Option.map_some, Option.getD_some, FileTree.files]
      exact List.pairwise_singleton _ _
    | dir es =>
      rw [Option.map_some, Option.getD_some]
      refine (FileTree.pairwise_files (.dir es) sub).imp_of_mem fun {a b} ha hb less => ?_
      have below : a ≠ [] := by
        rw [FileTree.files] at ha
        obtain ⟨e, -, inner, rfl⟩ := FileTree.exists_of_mem_filesIn ha
        exact List.cons_ne_nil _ _
      exact Path.before_descend (FileTree.isEntry_of_mem_files (.dir es) sub a ha)
        (FileTree.isEntry_of_mem_files (.dir es) sub b hb) below less

/-- The sources of a project are the files with such names that no skipped directory leads to, each
before those with later paths. Its override is the first of the files named like one, and there is
none only where there is no such file. -/
theorem sources_exact (wf : fs.tree.WellFormed) (p : Project) :
    (p.sources fs).Pairwise Path.Before ∧
      (∀ path, path ∈ p.sources fs ↔
        p.Reaches fs path ∧ ∃ name ∈ path.fileName?, IsSource name) ∧
      (∀ path, p.override? fs = some path ↔
        (p.Reaches fs path ∧ ∃ name ∈ path.fileName?, IsOverride name) ∧
          ∀ other, (p.Reaches fs other ∧ ∃ name ∈ other.fileName?, IsOverride name) →
            other = path ∨ path.Before other) ∧
      (p.override? fs = none ↔
        ∀ path, ¬ (p.Reaches fs path ∧ ∃ name ∈ path.fileName?, IsOverride name)) := by
  have sorted := pairwise_files wf p
  refine ⟨sorted.filter _, fun path => ?_, fun path => ?_, ?_⟩
  · rw [sources, List.mem_filter, mem_files_iff wf, any_fileName? fun n => isSourceName_iff]
  · rw [override?, find?_eq_some_iff_of_pairwise (fun _ _ => Path.Before.asymm) sorted]
    simp only [mem_files_iff wf, any_fileName? fun n => toLower_eq_overrideName]
  · rw [override?, List.find?_eq_none]
    simp only [mem_files_iff wf, any_fileName? fun n => toLower_eq_overrideName, not_and]

/-- A project in a directory that would be skipped elsewhere. -/
def housed : FileSystem :=
  ⟨.dir [("bin", .dir [(".config", .dir [("tsdefgen.json", .file "")]), (".x.cs", .file ""),
    ("OBJ", .dir [("Gen.cs", .file "")]),
    ("a", .dir [("TsDefGen.JSON", .file ""), ("y.cs", .file "")]), ("a.cs", .file ""),
    ("b", .dir [("tsdefgen.json", .file "")]), ("obj", .file ""), ("x.types.json", .file "")])],
      []⟩

theorem sources_exact_of_housed :
    let p : Project := ⟨⟨"/bin"⟩, "bin"⟩
    housed.tree.WellFormed ∧
      p.sources housed =
        [⟨"/bin/.x.cs"⟩, ⟨"/bin/a/y.cs"⟩, ⟨"/bin/a.cs"⟩, ⟨"/bin/x.types.json"⟩] ∧
      (p.sources housed).Pairwise Path.Before ∧
      p.Reaches housed ⟨"/bin/a/y.cs"⟩ ∧ ¬ p.Reaches housed ⟨"/bin/OBJ/Gen.cs"⟩ ∧
      p.override? housed = some ⟨"/bin/a/TsDefGen.JSON"⟩ ∧
      p.Reaches housed ⟨"/bin/a/TsDefGen.JSON"⟩ := by
  intro p
  have wf : housed.tree.WellFormed := by
    simp only [housed, FileTree.WellFormed, FileTree.WellFormedIn]
    decide
  have sources : p.sources housed =
      [⟨"/bin/.x.cs"⟩, ⟨"/bin/a/y.cs"⟩, ⟨"/bin/a.cs"⟩, ⟨"/bin/x.types.json"⟩] := by
        decide +kernel
  have found : p.override? housed = some ⟨"/bin/a/TsDefGen.JSON"⟩ := by decide +kernel
  obtain ⟨sorted, exact_, least, -⟩ := sources_exact wf p
  refine ⟨wf, sources, sorted, ((exact_ _).mp ?_).1, fun reached => ?_, found,
    ((least _).mp found).1.1⟩
  · rw [sources]
    decide
  · have listed := (exact_ ⟨"/bin/OBJ/Gen.cs"⟩).mpr ⟨reached, "Gen.cs", by decide +kernel,
      .inl ⟨"Gen".toList, rfl⟩⟩
    rw [sources] at listed
    exact absurd listed (by decide)

end Project

end Ambient
