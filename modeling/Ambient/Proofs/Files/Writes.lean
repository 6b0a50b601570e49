import Ambient.Proofs.Files.Places

/-!
# What writing a file changes

A write that succeeds puts the text at the place the path leads to. Directories stay, other files
keep their texts, and a text that stands already is no change.
-/
namespace Ambient

namespace FileSystem
variable {fs fs₁ fs₂ : FileSystem} {p : Path} {place q pieces : List String}
  {text name : String} {Q : String → Prop}

/-- The directory is there in which a file under this path is prepared. -/
def prepares (fs : FileSystem) (p : Path) : Bool :=
  ((fs.start (prepareDir p)).toOption.bind fun (place, pieces) =>
    dirWalk? fs.tree.dirAt place pieces).isSome

/-- The place where a file can be written under this path. -/
def target? (fs : FileSystem) (p : Path) : Option (List String) :=
  if fs.prepares p then (fs.place? p).filter (!fs.tree.dirAt ·) else none

theorem toOption_newPlace (fs : FileSystem) (p : Path) :
    (fs.newPlace p).toOption = fs.place? p := by
  unfold newPlace place?
  rw [toOption_bind]
  cases h : fs.start p with
  | error trouble => rfl
  | ok started =>
    obtain ⟨place, pieces⟩ := started
    obtain ⟨front, last, rfl, -⟩ := exists_concat_of_start h
    simp only [toOption_ok, Option.bind_some, List.getLast?_concat, Option.getD_some,
      List.dropLast_concat]
    by_cases open_ : String.ofList last = ""
    · -- behind a slash at the end there is no name
      have dropped : Text.dropEndWhile (· == "") (front ++ [String.ofList last]) =
          front.rdropWhile (· == "") := by
        exact List.rdropWhile_concat_pos _ _ _ (by simp [open_])
      have fewer : (front.rdropWhile (· == "")).length <
          (front ++ [String.ofList last]).length := by
        have most := (front.rdropWhile_prefix (· == "")).length_le
        simp only [List.length_append, List.length_singleton]
        omega
      rw [dropped, if_pos (.inl open_)]
      cases fs.walk place ((front.rdropWhile (· == "")).dropLast ++ [""]) with
      | error trouble => rfl
      | ok dir =>
        rw [ok_bind, if_pos fewer]
        split
        · rfl
        · split <;> rfl
    · have kept : Text.dropEndWhile (· == "") (front ++ [String.ofList last]) =
          front ++ [String.ofList last] := by
        exact List.rdropWhile_concat_neg _ _ _ (by simp [open_])
      have dir := walk_dir fs place front
      rw [kept, List.dropLast_concat, List.getLast?_concat, Option.getD_some]
      cases walked : fs.walk place (front ++ [""]) with
      | error trouble =>
        rw [walked, toOption_error] at dir
        rw [error_bind, toOption_error, ← dir]
        split <;> rfl
      | ok d =>
        rw [walked] at dir
        rw [← dir]
        rw [ok_bind, if_neg (lt_irrefl _)]
        by_cases dots : String.ofList last = "" ∨ String.ofList last = "." ∨
          String.ofList last = ".."
        · rw [if_pos dots, if_pos (by tauto)]
          rfl
        by_cases long : maxNameBytes < (String.ofList last).utf8ByteSize
        · rw [if_neg dots, if_pos long, if_pos (by tauto)]
          rfl
        rw [if_neg dots, if_neg long, if_neg (by tauto)]
        rfl

theorem start_blurred (fs : FileSystem) (p : Path) :
    (fs.start p).mapError FileTrouble.blurred = fs.start p := by
  unfold start
  split
  · rfl
  · split <;> rfl

theorem prepare_blurred (fs : FileSystem) (p : Path) :
    ((fs.resolve p).bind fun place => fs.enter place "").mapError FileTrouble.blurred =
      (fs.start p).bind fun (place, pieces) => dirWay fs.tree.dirAt place pieces := by
  unfold resolve
  rw [mapError_bind, mapError_bind, start_blurred]
  cases fs.start p with
  | error trouble => rfl
  | ok pair =>
    obtain ⟨place, pieces⟩ := pair
    have last : ∀ d, fs.walk d [""] = fs.enter d "" := by
      intro d
      rw [walk]
      cases fs.enter d "" <;> rfl
    have dir := walk_dir_blurred fs place pieces
    rw [walk_append, mapError_bind] at dir
    simp only [last] at dir
    exact dir

theorem toOption_prepare (fs : FileSystem) (p : Path) :
    ((fs.resolve p).bind fun place => fs.enter place "").toOption =
      (fs.start p).toOption.bind fun (place, pieces) => dirWalk? fs.tree.dirAt place pieces := by
  have both := congrArg Except.toOption (prepare_blurred fs p)
  rw [toOption_mapError] at both
  rw [both, toOption_bind]
  simp only [toOption_dirWay]

theorem toOption_write (fs : FileSystem) (p : Path) (text : String) :
    (fs.write p text).toOption =
      (fs.target? p).map fun place => { fs with tree := fs.tree.put place (.file text) } := by
  have check := toOption_prepare fs (prepareDir p)
  unfold write target? prepares
  rw [toOption_bind, ← check]
  cases (fs.resolve (prepareDir p)).bind (fs.enter · "") with
  | error trouble => rfl
  | ok d =>
    simp only [toOption_ok, Option.bind_some, Option.isSome_some, if_true]
    have made := toOption_newPlace fs p
    cases place : fs.newPlace p with
    | error trouble =>
      rw [place, toOption_error] at made
      rw [← made]
      rfl
    | ok q =>
      rw [place, toOption_ok] at made
      rw [← made, ok_bind, Option.filter_some]
      cases found : fs.tree.find? q with
      | none => simp [FileTree.dirAt, found]
      | some c => cases c <;> simp [FileTree.dirAt, found, FileTree.isDir]

theorem write_ok_iff : fs.write p text = .ok fs₁ ↔
    ∃ place, fs.target? p = some place ∧
      fs₁ = { fs with tree := fs.tree.put place (.file text) } := by
  have made := toOption_write fs p text
  constructor
  · intro h
    rw [h] at made
    obtain ⟨place, found, same⟩ := Option.map_eq_some_iff.mp made.symm
    exact ⟨place, found, same.symm⟩
  · rintro ⟨place, found, rfl⟩
    rw [found] at made
    exact toOption_eq_some_iff.mp made

theorem place?_of_target? (h : fs.target? p = some place) : fs.place? p = some place := by
  unfold target? at h
  split at h
  · exact (Option.filter_eq_some_iff.mp h).1
  · cases h

theorem exists_concat_of_place? (h : fs.place? p = some place) :
    ∃ d name, place = d ++ [name] ∧ fs.tree.dirAt d = true := by
  unfold place? at h
  cases started : fs.start p with
  | error trouble => rw [started] at h; cases h
  | ok pair =>
    rw [started] at h
    simp only [toOption_ok, Option.bind_some] at h
    split at h
    · cases h
    · obtain ⟨d, walked, rfl⟩ := Option.map_eq_some_iff.mp h
      exact ⟨d, _, rfl, dirs_of_dirWalk? walked⟩

theorem room_of_target? (h : fs.target? p = some place) : fs.tree.Room place := by
  obtain ⟨d, name, rfl, dir⟩ := exists_concat_of_place? (place?_of_target? h)
  unfold target? at h
  split at h
  · have free := (Option.filter_eq_some_iff.mp h).2
    rw [FileTree.Room, List.dropLast_concat]
    exact ⟨dir, by simpa using free⟩
  · cases h

theorem isEntry_of_target? (wf : fs.tree.WellFormed) (h : fs.target? p = some place) :
    ∀ n ∈ place, Path.IsEntry n := by
  have known := place?_of_target? h
  obtain ⟨d, name, rfl, dir⟩ := exists_concat_of_place? known
  obtain ⟨last, same, -, entry⟩ := getLast?_of_place? known
  rw [List.getLast?_concat] at same
  obtain ⟨es, found⟩ := FileTree.exists_dir dir
  intro n hn
  rcases List.mem_append.mp hn with above | here
  · exact FileTree.isEntry_of_find? wf found n above
  · rw [List.mem_singleton.mp here, Option.some.inj same]
    exact entry

theorem wellFormed_write (wf : fs.tree.WellFormed) (ok : fs.write p text = .ok fs₁) :
    fs₁.tree.WellFormed := by
  obtain ⟨place, target, rfl⟩ := write_ok_iff.mp ok
  exact FileTree.wellFormed_put wf (isEntry_of_target? wf target) (room_of_target? target)

theorem dirAt_write (wf : fs.tree.WellFormed) (ok : fs.write p text = .ok fs₁) :
    fs₁.tree.dirAt = fs.tree.dirAt := by
  obtain ⟨place, target, rfl⟩ := write_ok_iff.mp ok
  funext q
  exact FileTree.dirAt_put wf (room_of_target? target)

theorem start_congr (same : fs₁.workDir = fs.workDir) : fs₁.start p = fs.start p := by
  unfold start
  rw [same]

theorem place?_congr (same : fs₁.workDir = fs.workDir)
    (dirs : fs₁.tree.dirAt = fs.tree.dirAt) : fs₁.place? p = fs.place? p := by
  unfold place?
  rw [start_congr same, dirs]

theorem target?_congr (same : fs₁.workDir = fs.workDir)
    (dirs : fs₁.tree.dirAt = fs.tree.dirAt) : fs₁.target? p = fs.target? p := by
  unfold target? prepares
  rw [place?_congr same dirs, start_congr same, dirs]

/-- What a run of writes leaves, all of them to files whose names satisfy `Q`. -/
structure Rewritten (Q : String → Prop) (fs fs₁ : FileSystem) : Prop where
  workDir : fs₁.workDir = fs.workDir
  wellFormed : fs₁.tree.WellFormed
  dirs : fs₁.tree.dirAt = fs.tree.dirAt
  texts : ∀ q, (∀ n, q.getLast? = some n → ¬ Q n) → fs₁.tree.textAt q = fs.tree.textAt q
  kept : ∀ q, (fs.tree.textAt q).isSome = true → (fs₁.tree.textAt q).isSome = true
  listed : ∀ enters q (P : List String → Bool),
    (∀ below n, (q ++ below).getLast? = some n → Q n → P below = false) →
      (fs₁.tree.filesAt enters q).filter P = (fs.tree.filesAt enters q).filter P

namespace Rewritten

theorem refl (wf : fs.tree.WellFormed) : Rewritten Q fs fs where
  workDir := rfl
  wellFormed := wf
  dirs := rfl
  texts := fun _ _ => rfl
  kept := fun _ h => h
  listed := fun _ _ _ _ => rfl

theorem trans (first : Rewritten Q fs fs₁) (second : Rewritten Q fs₁ fs₂) :
    Rewritten Q fs fs₂ where
  workDir := second.workDir.trans first.workDir
  wellFormed := second.wellFormed
  dirs := second.dirs.trans first.dirs
  texts := fun q h => (second.texts q h).trans (first.texts q h)
  kept := fun q h => second.kept q (first.kept q h)
  listed := fun enters q P h => (second.listed enters q P h).trans (first.listed enters q P h)

theorem mono {Q' : String → Prop} (h : Rewritten Q fs fs₁) (weaker : ∀ n, Q n → Q' n) :
    Rewritten Q' fs fs₁ where
  workDir := h.workDir
  wellFormed := h.wellFormed
  dirs := h.dirs
  texts := fun q other => h.texts q fun n last holds => other n last (weaker n holds)
  kept := h.kept
  listed := fun enters q P passed =>
    h.listed enters q P fun below n last holds => passed below n last (weaker n holds)

theorem of_write (wf : fs.tree.WellFormed) (h : fs.write p text = .ok fs₁)
    (named : ∀ n, p.fileName? = some n → Q n) : Rewritten Q fs fs₁ := by
  have wellFormed := wellFormed_write wf h
  have dirs := dirAt_write wf h
  obtain ⟨place, target, rfl⟩ := write_ok_iff.mp h
  have room := room_of_target? target
  obtain ⟨name, last, shown, -⟩ := getLast?_of_place? (place?_of_target? target)
  refine ⟨rfl, wellFormed, dirs, ?_, ?_, ?_⟩
  · intro q other
    have apart : q ≠ place := by
      rintro rfl
      exact other name last (named name shown)
    exact (FileTree.textAt_put wf room).trans (if_neg apart)
  · intro q some
    show (FileTree.textAt _ q).isSome = true
    rw [FileTree.textAt_put wf room]
    split
    · rfl
    · exact some
  · intro enters q P passed
    exact FileTree.filter_filesAt_put wf room fun below here =>
      passed below name (here ▸ last) (named name shown)

theorem place? (h : Rewritten Q fs fs₁) : fs₁.place? p = fs.place? p :=
  place?_congr h.workDir h.dirs

theorem target? (h : Rewritten Q fs fs₁) : fs₁.target? p = fs.target? p :=
  target?_congr h.workDir h.dirs

/-- A file whose name does not satisfy `Q` reads as before. -/
theorem read (h : Rewritten Q fs fs₁) (other : ∀ n, p.fileName? = some n → ¬ Q n) :
    (fs₁.read p).toOption = (fs.read p).toOption := by
  rw [toOption_read, toOption_read, h.place?]
  cases found : fs.place? p with
  | none => rfl
  | some place =>
    obtain ⟨name, last, shown, -⟩ := getLast?_of_place? found
    exact h.texts place fun n same => Option.some.inj (last.symm.trans same) ▸ other name shown

theorem enter (h : Rewritten Q fs fs₁) (ok : fs.enter place name = .ok q) :
    fs₁.enter place name = .ok q := by
  have here := dirAt_of_enter ok
  rw [enter_of_dir here] at ok
  rw [enter_of_dir (h.dirs ▸ here)]
  rw [FileTree.isSome_find?] at ok ⊢
  rw [h.dirs]
  by_cases some : (fs.tree.dirAt (place ++ [name]) ||
      (fs.tree.textAt (place ++ [name])).isSome) = true
  · have still : (fs.tree.dirAt (place ++ [name]) ||
        (fs₁.tree.textAt (place ++ [name])).isSome) = true := by
      rw [Bool.or_eq_true] at some ⊢
      exact some.imp_right (h.kept _)
    rw [if_pos some] at ok
    rw [if_pos still]
    exact ok
  · rw [if_neg some] at ok
    split at ok
    · rw [if_pos (by assumption)]
      exact ok
    split at ok
    · rw [if_neg (by assumption), if_pos (by assumption)]
      exact ok
    split at ok <;> cases ok

theorem walk (h : Rewritten Q fs fs₁) (ok : fs.walk place pieces = .ok q) :
    fs₁.walk place pieces = .ok q := by
  induction pieces generalizing place with
  | nil => exact ok
  | cons piece more ih =>
    rw [FileSystem.walk] at ok ⊢
    cases step : fs.enter place piece with
    | error trouble => rw [step] at ok; cases ok
    | ok d =>
      rw [step] at ok
      rw [h.enter step]
      exact ih ok

theorem resolve (h : Rewritten Q fs fs₁) (ok : fs.resolve p = .ok q) :
    fs₁.resolve p = .ok q := by
  unfold FileSystem.resolve at ok ⊢
  rw [start_congr h.workDir]
  cases started : fs.start p with
  | error trouble => rw [started] at ok; cases ok
  | ok pair =>
    rw [started] at ok
    exact h.walk ok

theorem canonical {r : Path} (h : Rewritten Q fs fs₁) (ok : fs.canonical p = .ok r) :
    fs₁.canonical p = .ok r := by
  unfold FileSystem.canonical at ok ⊢
  cases resolved : fs.resolve p with
  | error trouble => rw [resolved] at ok; cases ok
  | ok q =>
    rw [resolved] at ok
    rw [h.resolve resolved]
    exact ok

end Rewritten

end FileSystem

end Ambient
