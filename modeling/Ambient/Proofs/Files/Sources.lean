import Ambient.Generator
import Ambient.Proofs.Files.Writes

/-!
# Sources while other files are written

Writing files that are no sources leaves the list of sources and what is read from
them as they were.
-/
namespace Ambient

namespace FileTree
variable {t : FileTree} {es : List (String × FileTree)} {enters : String → Bool}
  {q : List String}

mutual
theorem isEntry_of_mem_files : (t : FileTree) → t.WellFormed → (q : List String) →
    q ∈ t.files enters → ∀ n ∈ q, Path.IsEntry n
  | file text, _, q, hq => by
    rw [files, List.mem_singleton] at hq
    simp [hq]
  | dir entries, wf, q, hq => by
    rw [files] at hq
    exact isEntry_of_mem_filesIn entries wf q hq

theorem isEntry_of_mem_filesIn : (es : List (String × FileTree)) → WellFormedIn es →
    (q : List String) → q ∈ filesIn enters es → ∀ n ∈ q, Path.IsEntry n
  | [], _, q, hq => by simp [filesIn] at hq
  | (name, t) :: more, wf, q, hq => by
    obtain ⟨entry, -, sub, rest⟩ := wf
    rw [filesIn] at hq
    rcases List.mem_append.mp hq with here | later
    · split at here
      · simp at here
      · obtain ⟨below, hb, rfl⟩ := List.mem_map.mp here
        intro n hn
        rcases List.mem_cons.mp hn with rfl | hn
        · exact entry
        · exact isEntry_of_mem_files t sub below hb n hn
    · exact isEntry_of_mem_filesIn more rest q later
end

theorem wellFormed_of_find? (wf : t.WellFormed) {c : FileTree} (found : t.find? q = some c) :
    c.WellFormed := by
  induction q generalizing t with
  | nil => exact Option.some.inj found ▸ wf
  | cons n q ih =>
    rw [find?_cons] at found
    cases child : t.child? n with
    | none => rw [child] at found; cases found
    | some d =>
      rw [child] at found
      exact ih (wellFormed_of_child? wf child) found

theorem isEntry_of_mem_filesAt (wf : t.WellFormed) {below : List String}
    (h : below ∈ t.filesAt enters q) : ∀ n ∈ below, Path.IsEntry n := by
  unfold filesAt at h
  cases found : t.find? q with
  | none => rw [found] at h; simp at h
  | some c =>
    rw [found] at h
    exact isEntry_of_mem_files c (wellFormed_of_find? wf found) below h

end FileTree

namespace FileSystem
variable {fs fs₁ : FileSystem} {p : Path} {place q after : List String} {name : String}
  {Q : String → Prop}

theorem walk_idle (idle : ∀ piece ∈ after, piece = "" ∨ piece = ".")
    (h : fs.walk place after = .ok q) : q = place := by
  induction after with
  | nil => exact (Except.ok.inj h).symm
  | cons piece more ih =>
    rw [walk] at h
    cases step : fs.enter place piece with
    | error trouble => rw [step] at h; cases h
    | ok d =>
      have here := dirAt_of_enter step
      rw [enter_of_dir here, if_pos (idle piece List.mem_cons_self)] at step
      rw [enter_of_dir here, if_pos (idle piece List.mem_cons_self)] at h
      exact ih (fun k hk => idle k (List.mem_cons_of_mem _ hk)) h

theorem eq_of_isIdle {piece : List Char} (h : Path.isIdle piece = true) :
    String.ofList piece = "" ∨ String.ofList piece = "." := by
  simp only [Path.isIdle, Bool.or_eq_true, decide_eq_true_eq] at h
  rcases h with rfl | rfl
  · exact .inl rfl
  · exact .inr rfl

/-- A path with a file name leads to something of that name. -/
theorem getLast?_of_resolve (h : fs.resolve p = .ok place) (shown : p.fileName? = some name) :
    place.getLast? = some name := by
  obtain ⟨front, after, split, isName, idle⟩ := Path.pieces_of_fileName? shown
  unfold resolve at h
  cases started : fs.start p with
  | error trouble => rw [started] at h; cases h
  | ok pair =>
    obtain ⟨from_, pieces⟩ := pair
    rw [started] at h
    have walked : fs.walk from_ pieces = .ok place := h
    rw [start_ok started, split, List.map_append, List.map_append, walk_append, walk_append,
      List.map_singleton, String.ofList_toList] at walked
    cases above : fs.walk from_ (front.map String.ofList) with
    | error trouble => rw [above] at walked; cases walked
    | ok d =>
      rw [above, ok_bind, walk] at walked
      cases step : fs.enter d name with
      | error trouble => rw [step] at walked; cases walked
      | ok e =>
        rw [step, ok_bind, walk, ok_bind] at walked
        have stay : place = e := walk_idle (by
          intro piece hp
          obtain ⟨cs, hcs, rfl⟩ := List.mem_map.mp hp
          exact eq_of_isIdle (idle cs hcs)) walked
        have proper : ¬ (name = "" ∨ name = ".") ∧ name ≠ ".." := by
          refine ⟨?_, ?_⟩
          · rintro (rfl | rfl) <;> exact absurd isName (by decide)
          · rintro rfl
            exact absurd isName (by decide)
        rw [enter_of_dir (dirAt_of_enter step), if_neg proper.1, if_neg proper.2] at step
        split at step
        · cases step
        · split at step
          · rw [stay, ← Except.ok.inj step, List.getLast?_concat]
          · cases step

theorem toOption_read_of_resolve (h : fs.resolve p = .ok q) :
    (fs.read p).toOption = fs.tree.textAt q := by
  unfold read FileTree.textAt
  rw [h, ok_bind]
  cases fs.tree.find? q with
  | none => rfl
  | some c => cases c <;> rfl

theorem isSome_of_enter (h : fs.enter place name = .ok q) : (fs.tree.find? q).isSome = true := by
  have here := dirAt_of_enter h
  have there : ∀ d, fs.tree.dirAt d = true → (fs.tree.find? d).isSome = true := by
    intro d dir
    rw [FileTree.isSome_find?, dir, Bool.true_or]
  rw [enter_of_dir here] at h
  split at h
  · exact Except.ok.inj h ▸ there place here
  split at h
  · exact Except.ok.inj h ▸ there _ (FileTree.dirAt_dropLast here)
  split at h
  · cases h
  split at h
  · rename_i some
    exact Except.ok.inj h ▸ some
  · cases h

theorem isSome_of_resolve (h : fs.resolve p = .ok q) : (fs.tree.find? q).isSome = true := by
  unfold resolve at h
  cases started : fs.start p with
  | error trouble => rw [started] at h; cases h
  | ok pair =>
    obtain ⟨from_, pieces⟩ := pair
    obtain ⟨front, last, rfl, -⟩ := exists_concat_of_start started
    rw [started] at h
    have walked : fs.walk from_ (front ++ [String.ofList last]) = .ok q := h
    rw [walk_append] at walked
    cases above : fs.walk from_ front with
    | error trouble => rw [above] at walked; cases walked
    | ok d =>
      rw [above, ok_bind, walk] at walked
      cases step : fs.enter d (String.ofList last) with
      | error trouble => rw [step] at walked; cases walked
      | ok e =>
        rw [step] at walked
        exact Except.ok.inj walked ▸ isSome_of_enter step

theorem node?_eq (fs : FileSystem) (p : Path) :
    fs.node? p = (fs.resolve p).toOption.bind fs.tree.find? := by
  unfold node?
  cases fs.resolve p <;> rfl

/-- The files below a path, by the names that lead to them. -/
def listing (fs : FileSystem) (enters : String → Bool) (p : Path) : List (List String) :=
  ((fs.resolve p).toOption.map (fs.tree.filesAt enters)).getD []

theorem listing_eq (fs : FileSystem) (enters : String → Bool) (p : Path) :
    fs.listing enters p = ((fs.node? p).map fun t => t.files enters).getD [] := by
  rw [node?_eq, listing]
  cases fs.resolve p <;> rfl

end FileSystem

namespace Project
variable {fs : FileSystem} {P : String → Bool}

/-- Whether the names that lead down from a root lead to a file with such a name: the last one
tells, and without any the name of the root. -/
def namedBelow (P : String → Bool) (root : Path) (below : List String) : Bool :=
  match below.getLast? with
  | some n => P n
  | none => root.fileName?.any P

theorem namedBelow_eq {root : Path} {below : List String}
    (proper : ∀ n ∈ below, Path.IsEntry n) :
    namedBelow P root below = (root.descend below).fileName?.any P := by
  unfold namedBelow
  cases last : below.getLast? with
  | none =>
    rw [List.getLast?_eq_none_iff] at last
    subst last
    rfl
  | some n => rw [Path.fileName?_descend proper last, Option.any_some]

theorem filter_files_eq (wf : fs.tree.WellFormed) (p : Project) :
    ((p.files fs).filter fun path => path.fileName?.any P) =
      ((fs.listing entersDir p.root).filter (namedBelow P p.root)).map p.root.descend := by
  have proper : ∀ below ∈ fs.listing entersDir p.root, ∀ n ∈ below, Path.IsEntry n := by
    intro below hb
    unfold FileSystem.listing at hb
    cases there : fs.resolve p.root with
    | error trouble => rw [there] at hb; simp at hb
    | ok q =>
      rw [there] at hb
      exact FileTree.isEntry_of_mem_filesAt wf hb
  rw [List.filter_congr fun below hb => namedBelow_eq (proper below hb)]
  unfold files
  rw [← FileSystem.listing_eq, List.filter_map]
  rfl

end Project

namespace FileSystem
variable {fs fs₁ : FileSystem} {p : Path} {q : List String} {name : String} {Q : String → Prop}

namespace Rewritten

theorem resolve_of_dir (h : Rewritten Q fs fs₁) (ok : fs₁.resolve p = .ok q)
    (dir : fs₁.tree.dirAt q = true) : fs.resolve p = .ok q := by
  have after : fs₁.enter q "" = .ok q := by
    rw [enter_of_dir dir]
    rfl
  have seen := toOption_prepare fs₁ p
  rw [start_congr h.workDir, h.dirs, ← toOption_prepare, ok, ok_bind, after] at seen
  cases before : fs.resolve p with
  | error trouble => rw [before] at seen; cases seen
  | ok d =>
    rw [h.resolve before] at ok
    exact ok

/-- What a path leads to now and did not lead to before was written. -/
theorem written_of_resolve (h : Rewritten Q fs fs₁) {trouble : FileTrouble}
    (before : fs.resolve p = .error trouble) (now : fs₁.resolve p = .ok q)
    (shown : p.fileName? = some name) : Q name := by
  by_contra other
  cases dir : fs₁.tree.dirAt q with
  | true =>
    rw [h.resolve_of_dir now dir] at before
    cases before
  | false =>
    -- a file that is new under another name would read as before, that is, not at all
    have same : (fs₁.read p).toOption = (fs.read p).toOption := h.read fun n hn =>
      Option.some.inj (shown.symm.trans hn) ▸ other
    have nothing : (fs.read p).toOption = none := by
      unfold FileSystem.read
      rw [before]
      rfl
    have some := isSome_of_resolve now
    rw [FileTree.isSome_find?, dir, Bool.false_or] at some
    rw [toOption_read_of_resolve now, nothing] at same
    rw [same] at some
    cases some

/-- Writing files leaves the files of a project that have other names. -/
theorem filter_files (h : Rewritten Q fs fs₁) (wf : fs.tree.WellFormed) {P : String → Bool}
    (apart : ∀ n, Q n → P n = false) (project : Project) :
    ((project.files fs₁).filter fun path => path.fileName?.any P) =
      (project.files fs).filter fun path => path.fileName?.any P := by
  rw [Project.filter_files_eq h.wellFormed, Project.filter_files_eq wf]
  congr 1
  unfold listing
  cases before : fs.resolve project.root with
  | ok q =>
    rw [h.resolve before]
    refine h.listed Project.entersDir q _ fun below n last written => ?_
    cases inner : below.getLast? with
    | some m =>
      have same : m = n := by simpa [List.getLast?_append, inner] using last
      simp [Project.namedBelow, inner, same, apart n written]
    | none =>
      rw [List.getLast?_eq_none_iff] at inner
      subst inner
      cases name : project.root.fileName? with
      | none => simp [Project.namedBelow, name]
      | some m =>
        have here := getLast?_of_resolve before name
        rw [List.append_nil, here] at last
        simp [Project.namedBelow, name, Option.some.inj last, apart n written]
  | error trouble =>
    cases now : fs₁.resolve project.root with
    | error trouble => rfl
    | ok q =>
      -- a root that is new can only be a file that was written
      have dir : fs₁.tree.dirAt q = false := by
        by_contra yes
        rw [h.resolve_of_dir now (eq_true_of_ne_false yes)] at before
        cases before
      have top : Project.namedBelow P project.root [] = false := by
        cases name : project.root.fileName? with
        | none => simp [Project.namedBelow, name]
        | some m =>
          simp [Project.namedBelow, name, apart m (h.written_of_resolve before now name)]
      unfold FileTree.dirAt at dir
      simp only [toOption_ok, toOption_error, Option.map_some, Option.map_none, Option.getD_some,
        Option.getD_none, List.filter_nil, FileTree.filesAt]
      cases found : fs₁.tree.find? q with
      | none => rfl
      | some c =>
        rw [found] at dir
        cases c with
        | file text => simp [FileTree.files, top]
        | dir es => cases dir

/-- Writing files that are no sources leaves the sources of a project. -/
theorem sources (h : Rewritten Q fs fs₁) (wf : fs.tree.WellFormed)
    (apart : ∀ n, Q n → Project.isSourceName n = false) (project : Project) :
    project.sources fs₁ = project.sources fs :=
  h.filter_files wf apart project

end Rewritten

end FileSystem

end Ambient
