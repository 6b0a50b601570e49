import Ambient.FileSystem
import Ambient.Proofs.Files.Trees
import Ambient.Proofs.Path.FileName

/-!
# Where a path leads

Reading and writing enter directories until the last name of a path. Which place that is depends on
where directories are, not on the files in them, so it stays when files are written.
-/
namespace Ambient

namespace FileTree
variable {t c : FileTree} {name : String} {place q : List String}

theorem find?_append (t : FileTree) (place q : List String) :
    t.find? (place ++ q) = (t.find? place).bind (·.find? q) := by
  induction place generalizing t with
  | nil => rfl
  | cons n rest ih =>
    rw [List.cons_append, find?_cons, find?_cons]
    cases child : t.child? n with
    | none => rfl
    | some c => exact ih c

theorem find?_concat (found : t.find? place = some c) :
    t.find? (place ++ [name]) = c.child? name := by
  rw [find?_append, found, Option.bind_some, find?_cons]
  cases c.child? name <;> rfl

theorem isSome_find? : (t.find? q).isSome = (t.dirAt q || (t.textAt q).isSome) := by
  unfold dirAt textAt
  cases t.find? q with
  | none => rfl
  | some c => cases c <;> rfl

theorem exists_dir (h : t.dirAt q = true) : ∃ es, t.find? q = some (dir es) := by
  unfold dirAt at h
  cases found : t.find? q with
  | none => rw [found] at h; cases h
  | some c =>
    cases c with
    | file text => rw [found] at h; cases h
    | dir es => exact ⟨es, rfl⟩

theorem dirAt_of_find? {es : List (String × FileTree)} (h : t.find? q = some (dir es)) :
    t.dirAt q = true := by
  unfold dirAt
  rw [h]
  rfl

theorem dirAt_dropLast (h : t.dirAt q = true) : t.dirAt q.dropLast = true := by
  rcases List.eq_nil_or_concat' q with rfl | ⟨front, last, rfl⟩
  · exact h
  · obtain ⟨es, found⟩ := exists_dir h
    rw [List.dropLast_concat]
    rw [find?_append] at found
    cases above : t.find? front with
    | none => rw [above] at found; cases found
    | some c =>
      cases c with
      | file text => rw [above] at found; cases found
      | dir es => exact dirAt_of_find? above

theorem isEntry_of_child? (wf : t.WellFormed) (found : t.child? name = some c) :
    Path.IsEntry name := by
  cases t with
  | file text => cases found
  | dir es =>
    rw [WellFormed] at wf
    induction es with
    | nil => cases found
    | cons e more ih =>
      obtain ⟨m, t⟩ := e
      rw [child?_cons] at found
      split at found
      · rename_i same
        exact same ▸ wf.1
      · exact ih wf.2.2.2 found

/-- The names on the way to what is there are proper. -/
theorem isEntry_of_find? (wf : t.WellFormed) (found : t.find? q = some c) :
    ∀ n ∈ q, Path.IsEntry n := by
  induction q generalizing t with
  | nil => simp
  | cons n q ih =>
    rw [find?_cons] at found
    cases child : t.child? n with
    | none => rw [child] at found; cases found
    | some d =>
      rw [child] at found
      intro k hk
      rcases List.mem_cons.mp hk with rfl | hk
      · exact isEntry_of_child? wf child
      · exact ih (wellFormed_of_child? wf child) found k hk

end FileTree

/-- A trouble as far as directories decide it: what is no directory counts as missing. -/
def FileTrouble.blurred : FileTrouble → FileTrouble
  | notDirectory => missing
  | trouble => trouble

section
variable {ε δ α β : Type} {h : ε → δ}

@[simp] theorem toOption_ok (a : α) : (Except.ok a : Except ε α).toOption = some a := rfl

@[simp] theorem toOption_error (e : ε) : (Except.error e : Except ε α).toOption = none := rfl

@[simp] theorem ok_bind (a : α) (f : α → Except ε β) : (Except.ok a).bind f = f a := rfl

@[simp] theorem error_bind (e : ε) (f : α → Except ε β) :
    (Except.error e).bind f = .error e := rfl

theorem toOption_eq_some_iff {x : Except ε α} {a : α} : x.toOption = some a ↔ x = .ok a := by
  cases x with
  | error e =>
    constructor <;> rintro ⟨⟩
  | ok b =>
    constructor
    · exact fun same => congrArg Except.ok (Option.some.inj same)
    · exact fun same => congrArg some (Except.ok.inj same)

theorem toOption_bind (x : Except ε α) (f : α → Except ε β) :
    (x.bind f).toOption = x.toOption.bind fun a => (f a).toOption := by
  cases x <;> rfl

@[simp] theorem mapError_ok (a : α) : (Except.ok a : Except ε α).mapError h = .ok a := rfl

@[simp] theorem mapError_error (e : ε) :
    (Except.error e : Except ε α).mapError h = .error (h e) := rfl

theorem mapError_bind (x : Except ε α) (f : α → Except ε β) :
    (x.bind f).mapError h = (x.mapError h).bind fun a => (f a).mapError h := by
  cases x <;> rfl

theorem toOption_mapError (x : Except ε α) : (x.mapError h).toOption = x.toOption := by
  cases x <;> rfl

end

namespace FileSystem
variable {fs fs₁ : FileSystem} {p : Path} {place q pieces : List String} {text piece : String}

/-- The directory that the pieces lead to, where `dirs` tells which places are directories. -/
def dirWalk? (dirs : List String → Bool) : List String → List String → Option (List String)
  | place, [] => if dirs place then some place else none
  | place, piece :: more =>
    if !dirs place then none
    else if piece = "" ∨ piece = "." then dirWalk? dirs place more
    else if piece = ".." then dirWalk? dirs place.dropLast more
    else if maxNameBytes < piece.utf8ByteSize then none
    else dirWalk? dirs (place ++ [piece]) more

theorem dirWalk?_of_not {dirs : List String → Bool} (no : dirs place = false) :
    dirWalk? dirs place pieces = none := by
  cases pieces <;> simp [dirWalk?, no]

/-- The directory that the pieces lead to, or the trouble on the way. -/
def dirWay (dirs : List String → Bool) :
    List String → List String → Except FileTrouble (List String)
  | place, [] => if dirs place then .ok place else .error .missing
  | place, piece :: more =>
    if !dirs place then .error .missing
    else if piece = "" ∨ piece = "." then dirWay dirs place more
    else if piece = ".." then dirWay dirs place.dropLast more
    else if maxNameBytes < piece.utf8ByteSize then .error .nameTooLong
    else dirWay dirs (place ++ [piece]) more

theorem dirWay_of_not {dirs : List String → Bool} (no : dirs place = false) :
    dirWay dirs place pieces = .error .missing := by
  cases pieces <;> simp [dirWay, no]

theorem toOption_dirWay (dirs : List String → Bool) (place pieces : List String) :
    (dirWay dirs place pieces).toOption = dirWalk? dirs place pieces := by
  fun_induction dirWalk? dirs place pieces <;> simp [dirWay, *]

theorem dirs_of_dirWalk? {dirs : List String → Bool} (h : dirWalk? dirs place pieces = some q) :
    dirs q = true := by
  fun_induction dirWalk? dirs place pieces with
  | case1 place yes => exact Option.some.inj h ▸ yes
  | case2 => cases h
  | case3 => cases h
  | case4 place piece more yes idle ih => exact ih h
  | case5 place more yes other ih => exact ih h
  | case6 => cases h
  | case7 place piece more yes proper up short ih => exact ih h

/-- What a step from a directory gives. -/
theorem enter_of_dir (here : fs.tree.dirAt place = true) :
    fs.enter place piece =
      if piece = "" ∨ piece = "." then .ok place
      else if piece = ".." then .ok place.dropLast
      else if maxNameBytes < piece.utf8ByteSize then .error .nameTooLong
      else if (fs.tree.find? (place ++ [piece])).isSome then .ok (place ++ [piece])
      else .error .missing := by
  obtain ⟨es, found⟩ := FileTree.exists_dir here
  rw [FileTree.find?_concat found]
  unfold enter
  rw [found]

theorem dirAt_of_enter (h : fs.enter place piece = .ok q) : fs.tree.dirAt place = true := by
  unfold enter at h
  split at h
  · cases h
  · cases h
  · rename_i t notFile found
    cases t with
    | file text => exact absurd rfl (notFile text)
    | dir es => exact FileTree.dirAt_of_find? found

theorem toOption_enter_of_not (no : fs.tree.dirAt place = false) :
    (fs.enter place piece).toOption = none := by
  cases h : fs.enter place piece with
  | error trouble => rfl
  | ok q =>
    rw [dirAt_of_enter h] at no
    cases no

theorem walk_append (fs : FileSystem) (place pieces more : List String) :
    fs.walk place (pieces ++ more) = (fs.walk place pieces).bind fun q => fs.walk q more := by
  induction pieces generalizing place with
  | nil => rfl
  | cons piece rest ih =>
    rw [List.cons_append, walk, walk]
    cases fs.enter place piece with
    | error trouble => rfl
    | ok q => exact ih q

/-- A step from where there is no directory fails as one from nowhere. -/
theorem enter_of_not (no : fs.tree.dirAt place = false) :
    (fs.enter place piece).mapError FileTrouble.blurred = .error .missing := by
  unfold enter
  cases found : fs.tree.find? place with
  | none => rfl
  | some t =>
    cases t with
    | file text => rfl
    | dir es =>
      rw [FileTree.dirAt_of_find? found] at no
      cases no

/-- A walk that has to end in a directory sees nothing but directories. -/
theorem walk_dir_blurred (fs : FileSystem) (place pieces : List String) :
    (fs.walk place (pieces ++ [""])).mapError FileTrouble.blurred =
      dirWay fs.tree.dirAt place pieces := by
  induction pieces generalizing place with
  | nil =>
    by_cases here : fs.tree.dirAt place = true
    · simp [walk, dirWay, here, enter_of_dir]
    · have no := eq_false_of_ne_true here
      rw [List.nil_append, walk, mapError_bind, enter_of_not no, dirWay_of_not no]
      rfl
  | cons piece rest ih =>
    rw [List.cons_append, walk, mapError_bind]
    by_cases here : fs.tree.dirAt place = true
    · rw [enter_of_dir here, dirWay, here]
      by_cases idle : piece = "" ∨ piece = "."
      · rw [if_pos idle, if_pos idle]
        exact ih place
      by_cases up : piece = ".."
      · rw [if_neg idle, if_neg idle, if_pos up, if_pos up]
        exact ih place.dropLast
      by_cases long : maxNameBytes < piece.utf8ByteSize
      · rw [if_neg idle, if_neg idle, if_neg up, if_neg up, if_pos long, if_pos long]
        rfl
      rw [if_neg idle, if_neg idle, if_neg up, if_neg up, if_neg long, if_neg long]
      by_cases some : (fs.tree.find? (place ++ [piece])).isSome = true
      · rw [if_pos some]
        exact ih (place ++ [piece])
      · have no : fs.tree.dirAt (place ++ [piece]) = false := by
          have neither := eq_false_of_ne_true some
          rw [FileTree.isSome_find?, Bool.or_eq_false_iff] at neither
          exact neither.1
        rw [if_neg some, dirWay_of_not no]
        rfl
    · have no := eq_false_of_ne_true here
      rw [enter_of_not no, dirWay_of_not no]
      rfl

theorem walk_dir (fs : FileSystem) (place pieces : List String) :
    (fs.walk place (pieces ++ [""])).toOption = dirWalk? fs.tree.dirAt place pieces := by
  have both := congrArg Except.toOption (walk_dir_blurred fs place pieces)
  rw [toOption_mapError, toOption_dirWay] at both
  exact both

/-- The place that a path leads to if it ends in a name. -/
def place? (fs : FileSystem) (p : Path) : Option (List String) :=
  (fs.start p).toOption.bind fun (place, pieces) =>
    let name := pieces.getLast?.getD ""
    if name = "" ∨ name = "." ∨ name = ".." ∨ maxNameBytes < name.utf8ByteSize then none
    else (dirWalk? fs.tree.dirAt place pieces.dropLast).map (· ++ [name])

theorem start_ok (h : fs.start p = .ok (place, pieces)) :
    pieces = (Text.pieces Path.isSlash p.text.toList).map String.ofList := by
  unfold start at h
  split at h
  · cases h
  · split at h
    · cases h
    · exact (Prod.mk.inj (Except.ok.inj h)).2.symm

theorem exists_concat_of_start (h : fs.start p = .ok (place, pieces)) :
    ∃ front last, pieces = front ++ [String.ofList last] ∧
      Text.pieces Path.isSlash p.text.toList = front.map String.toList ++ [last] := by
  have spelled := start_ok h
  rcases List.eq_nil_or_concat' (Text.pieces Path.isSlash p.text.toList) with
    none | ⟨front, last, eq⟩
  · exact absurd none (Text.pieces_ne_nil _)
  · refine ⟨front.map String.ofList, last, ?_, ?_⟩
    · rw [spelled, eq, List.map_append]
      rfl
    · rw [eq, List.map_map]
      simp

/-- The text read at the end of a walk. -/
theorem textAt_walk (fs : FileSystem) (place front : List String) (name : String) :
    (fs.walk place (front ++ [name])).toOption.bind fs.tree.textAt =
      (if name = "" ∨ name = "." ∨ name = ".." ∨ maxNameBytes < name.utf8ByteSize then none
        else (dirWalk? fs.tree.dirAt place front).map (· ++ [name])).bind fs.tree.textAt := by
  have dir := walk_dir fs place front
  rw [walk_append, toOption_bind] at dir
  rw [walk_append, toOption_bind]
  cases walked : (fs.walk place front).toOption with
  | none =>
    rw [walked] at dir
    rw [← dir]
    split <;> rfl
  | some d =>
    rw [walked, Option.bind_some, walk] at dir
    rw [Option.bind_some, walk]
    by_cases here : fs.tree.dirAt d = true
    · have known : dirWalk? fs.tree.dirAt place front = some d := by
        rw [← dir, enter_of_dir here]
        rfl
      rw [enter_of_dir here, known]
      by_cases idle : name = "" ∨ name = "."
      · rw [if_pos idle, if_pos (by tauto)]
        exact FileTree.textAt_of_dirAt here
      by_cases up : name = ".."
      · rw [if_neg idle, if_pos up, if_pos (by tauto)]
        exact FileTree.textAt_of_dirAt (FileTree.dirAt_dropLast here)
      by_cases long : maxNameBytes < name.utf8ByteSize
      · rw [if_neg idle, if_neg up, if_pos long, if_pos (by tauto)]
        rfl
      have plain : ¬ (name = "" ∨ name = "." ∨ name = ".." ∨
          maxNameBytes < name.utf8ByteSize) := by tauto
      rw [if_neg idle, if_neg up, if_neg long, if_neg plain]
      by_cases some : (fs.tree.find? (d ++ [name])).isSome = true
      · rw [if_pos some]
        rfl
      · have neither := eq_false_of_ne_true some
        rw [FileTree.isSome_find?, Bool.or_eq_false_iff] at neither
        have nothing : fs.tree.textAt (d ++ [name]) = none := by simpa using neither.2
        rw [if_neg some, Option.map_some, Option.bind_some, nothing]
        rfl
    · have no := eq_false_of_ne_true here
      rw [toOption_bind, toOption_enter_of_not no] at dir
      rw [toOption_bind, toOption_enter_of_not no, ← dir]
      split <;> rfl

theorem toOption_read (fs : FileSystem) (p : Path) :
    (fs.read p).toOption = (fs.place? p).bind fs.tree.textAt := by
  unfold read resolve place?
  rw [toOption_bind, toOption_bind]
  cases h : fs.start p with
  | error trouble => rfl
  | ok started =>
    obtain ⟨place, pieces⟩ := started
    obtain ⟨front, last, rfl, -⟩ := exists_concat_of_start h
    simp only [toOption_ok, Option.bind_some, List.getLast?_concat, Option.getD_some,
      List.dropLast_concat]
    rw [← textAt_walk]
    refine congrArg _ (funext fun q => ?_)
    unfold FileTree.textAt
    cases fs.tree.find? q with
    | none => rfl
    | some c => cases c <;> rfl

/-- The last piece of a path is the last name of its place. -/
theorem pieces_of_place? (h : fs.place? p = some place) :
    ∃ front name, Text.pieces Path.isSlash p.text.toList = front ++ [name.toList] ∧
      place.getLast? = some name ∧ Path.IsEntry name := by
  unfold place? at h
  cases started : fs.start p with
  | error trouble => rw [started] at h; cases h
  | ok pair =>
    obtain ⟨from_, pieces⟩ := pair
    obtain ⟨front, last, rfl, split⟩ := exists_concat_of_start started
    rw [started] at h
    simp only [toOption_ok, Option.bind_some, List.getLast?_concat, Option.getD_some,
      List.dropLast_concat] at h
    by_cases bad : String.ofList last = "" ∨ String.ofList last = "." ∨
      String.ofList last = ".." ∨ maxNameBytes < (String.ofList last).utf8ByteSize
    · rw [if_pos bad] at h
      cases h
    rw [if_neg bad] at h
    simp only [not_or] at bad
    obtain ⟨some, one, two, -⟩ := bad
    obtain ⟨d, -, rfl⟩ := Option.map_eq_some_iff.mp h
    have noSlash : '/' ∉ last := by
      intro slash
      have piece : last ∈ Text.pieces Path.isSlash p.text.toList := by simp [split]
      exact absurd (Text.not_of_mem_pieces last piece '/' slash) (by decide)
    have entry : Path.IsEntry (String.ofList last) := ⟨some, one, two, by simpa using noSlash⟩
    refine ⟨front.map String.toList, String.ofList last, ?_, List.getLast?_concat .., entry⟩
    rw [String.toList_ofList]
    exact split

theorem getLast?_of_place? (h : fs.place? p = some place) :
    ∃ name, place.getLast? = some name ∧ p.fileName? = some name ∧ Path.IsEntry name := by
  obtain ⟨front, name, split, last, entry⟩ := pieces_of_place? h
  have shown := Path.fileName?_of_pieces split entry.isName_toList
  rw [String.ofList_toList] at shown
  exact ⟨name, last, shown, entry⟩

end FileSystem

end Ambient
