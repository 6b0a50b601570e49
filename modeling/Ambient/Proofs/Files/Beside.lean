import Ambient.Proofs.Files.Writes

/-!
# Writing beside a file

Where a path starts, and through which directories it goes, is told by its pieces. So a path with
another last name in place of one that leads to a file goes through the same directories, and to
write to it fails for this name only.

Whether a file can be written is decided by directories. So is the reason why it cannot, but for one
thing: where a directory is wanted, a file that stands in its place is told from nothing at all.
-/
namespace Ambient

namespace FileSystem
variable {fs fs₁ : FileSystem} {p : Path}

/-- Where a file is written under this path, or why it is not, as far as directories decide it. -/
def opening (fs : FileSystem) (p : Path) : Except FileTrouble (List String) :=
  ((fs.start (prepareDir p)).bind fun (place, pieces) => dirWay fs.tree.dirAt place pieces).bind
    fun _ => (fs.start p).bind fun (place, pieces) =>
      let spine := Text.dropEndWhile (· == "") pieces
      let name := spine.getLast?.getD ""
      (dirWay fs.tree.dirAt place spine.dropLast).bind fun dir =>
        if name = "" ∨ name = "." ∨ name = ".." then .error .busy
        else if maxNameBytes < name.utf8ByteSize then .error .nameTooLong
        else if spine.length < pieces.length then .error .missing
        else if fs.tree.dirAt (dir ++ [name]) then .error .isDirectory
        else .ok (dir ++ [name])

theorem opening_congr (same : fs₁.workDir = fs.workDir)
    (dirs : fs₁.tree.dirAt = fs.tree.dirAt) : fs₁.opening p = fs.opening p := by
  unfold opening
  rw [start_congr same, start_congr same, dirs]

/-- Writing fails for the reason that the directories give, or puts the text at the
place they give. -/
theorem write_blurred (fs : FileSystem) (p : Path) (text : String) :
    (fs.write p text).mapError FileTrouble.blurred =
      (fs.opening p).map fun place => { fs with tree := fs.tree.put place (.file text) } := by
  unfold write opening newPlace
  rw [mapError_bind, prepare_blurred]
  cases (fs.start (prepareDir p)).bind fun (place, pieces) => dirWay fs.tree.dirAt place pieces with
  | error trouble => rfl
  | ok d =>
    rw [ok_bind, ok_bind, mapError_bind, mapError_bind, start_blurred]
    cases fs.start p with
    | error trouble => rfl
    | ok pair =>
      obtain ⟨place, pieces⟩ := pair
      simp only [ok_bind, mapError_bind, walk_dir_blurred]
      cases dirWay fs.tree.dirAt place (Text.dropEndWhile (· == "") pieces).dropLast with
      | error trouble => rfl
      | ok dir =>
        simp only [ok_bind]
        split_ifs with dots long open_ taken
        · rfl
        · rfl
        · rfl
        · obtain ⟨es, found⟩ := FileTree.exists_dir taken
          rw [mapError_ok, ok_bind, found]
          rfl
        · rw [mapError_ok, ok_bind]
          split
          · rename_i found
            exact absurd (FileTree.dirAt_of_find? found) taken
          · rfl

theorem opening_of_error {trouble : FileTrouble} {text : String}
    (failed : fs.write p text = .error trouble) : fs.opening p = .error trouble.blurred := by
  have opened := fs.write_blurred p text
  rw [failed, mapError_error] at opened
  cases here : fs.opening p with
  | error reason =>
    simp only [here, Except.map, Except.error.injEq] at opened
    rw [opened]
  | ok place =>
    rw [here] at opened
    cases opened

theorem exists_opening {text : String} (written : fs.write p text = .ok fs₁) :
    ∃ place, fs.opening p = .ok place := by
  have opened := fs.write_blurred p text
  rw [written, mapError_ok] at opened
  cases here : fs.opening p with
  | error reason =>
    rw [here] at opened
    cases opened
  | ok place => exact ⟨place, rfl⟩

end FileSystem

namespace Path
variable {p : Path} {first last : List Char} {rest : List (List Char)}

theorem isEmpty_text_iff : p.text.isEmpty = true ↔ Text.pieces isSlash p.text.toList = [[]] := by
  rw [String.isEmpty_iff]
  constructor
  · intro none
    rw [none]
    rfl
  · exact fun alone => String.toList_eq_nil_iff.mp (Text.eq_nil_of_pieces alone)

/-- A path is absolute if its first piece is empty and not its last. -/
theorem isAbsolute_iff_head? (going : Text.pieces isSlash p.text.toList ≠ [[]]) :
    p.isAbsolute = true ↔ (Text.pieces isSlash p.text.toList).head? = some [] := by
  constructor
  · intro absolute
    cases spelled : p.text.toList with
    | nil => exact absurd (by rw [spelled]; rfl) going
    | cons c r =>
      rw [isAbsolute, spelled, List.head?_cons, beq_iff_eq] at absolute
      rw [Option.some.inj absolute]
      rfl
  · intro empty
    cases split : Text.pieces isSlash p.text.toList with
    | nil => exact absurd split (Text.pieces_ne_nil _)
    | cons x rest =>
      rw [split] at empty going
      obtain rfl : x = [] := Option.some.inj empty
      have some : rest ≠ [] := by
        rintro rfl
        exact going rfl
      obtain ⟨c, r, spelled, slash⟩ := Text.exists_cons_of_pieces split some
      rw [isAbsolute, spelled, List.head?_cons, eq_of_beq slash]
      rfl

theorem parent_of_singleton (split : Text.pieces isSlash p.text.toList = [last])
    (counts : isIdle last = false) : p.parent = ⟨""⟩ := by
  have spine : p.spine = [last] := @spine_of_pieces p [] last split counts
  unfold parent parent?
  rw [spine]
  simp only [ne_nil_of_not_idle counts, if_false, Option.getD_some]

/-- The pieces of the directory in which a file is prepared. -/
theorem pieces_prepareDir (split : Text.pieces isSlash p.text.toList = first :: rest ++ [last])
    (counts : isIdle last = false) :
    Text.pieces isSlash (FileSystem.prepareDir p).text.toList =
      if first :: rest.rdropWhile isIdle = [[]] then [[], []]
      else first :: rest.rdropWhile isIdle := by
  have parent := parent_of_spine (spine_of_pieces split counts)
  by_cases root : first :: rest.rdropWhile isIdle = [[]]
  · rw [if_pos root, FileSystem.prepareDir, parent, root]
    rfl
  · have plain : ∀ piece ∈ first :: rest.rdropWhile isIdle, ∀ c ∈ piece,
        isSlash c = false := by
      intro piece hp
      have member : piece ∈ first :: rest := by
        rcases List.mem_cons.mp hp with rfl | later
        · exact List.mem_cons_self
        · exact List.mem_cons_of_mem _ ((rest.rdropWhile_prefix isIdle).subset later)
      refine @Text.not_of_mem_pieces isSlash p.text.toList piece ?_
      rw [split]
      exact List.mem_append_left _ member
    have split' := pieces_ofPieces (List.cons_ne_nil _ _) root plain
    have filled : p.parent.text.isEmpty = false := by
      rw [Bool.eq_false_iff]
      intro none
      rw [← parent, String.isEmpty_iff.mp none] at split'
      exact root split'.symm
    rw [if_neg root, FileSystem.prepareDir, filled, if_neg (by decide), parent, split']

end Path

namespace FileSystem
variable {fs : FileSystem} {p q : Path} {place d pieces : List String}
  {front : List (List Char)} {a b last : List Char} {name text : String}

/-- Where a path of these pieces starts. -/
def startAt (fs : FileSystem) (pieces : List (List Char)) :
    Except FileTrouble (List String × List String) :=
  if pieces = [[]] then .error .missing
  else if ∃ x ∈ pieces, '\x00' ∈ x then .error .nulInName
  else .ok (if pieces.head? = some [] then [] else fs.workDir, pieces.map String.ofList)

theorem start_eq (fs : FileSystem) (p : Path) :
    fs.start p = fs.startAt (Text.pieces Path.isSlash p.text.toList) := by
  have nul : p.text.toList.contains '\x00' = true ↔
      ∃ x ∈ Text.pieces Path.isSlash p.text.toList, '\x00' ∈ x := by
    rw [Text.exists_mem_pieces_iff, List.contains_iff_mem]
    exact ⟨fun member => ⟨member, rfl⟩, fun both => both.1⟩
  unfold start startAt
  by_cases alone : Text.pieces Path.isSlash p.text.toList = [[]]
  · rw [if_pos (Path.isEmpty_text_iff.mpr alone), if_pos alone]
  rw [if_neg fun h => alone (Path.isEmpty_text_iff.mp h), if_neg alone]
  simp only [nul, Path.isAbsolute_iff_head? alone]

theorem startAt_of_ne (filled : last ≠ []) : fs.startAt (front ++ [last]) =
    if ∃ x ∈ front ++ [last], '\x00' ∈ x then .error .nulInName
    else .ok (if front.head? = some [] then [] else fs.workDir,
      (front ++ [last]).map String.ofList) := by
  have going : front ++ [last] ≠ [[]] := by
    intro same
    have ends := congrArg List.getLast? same
    rw [List.getLast?_concat] at ends
    exact filled (Option.some.inj ends)
  have head : (front ++ [last]).head? = some [] ↔ front.head? = some [] := by
    cases front with
    | nil => simpa using filled
    | cons x rest => exact Iff.rfl
  rw [startAt, if_neg going]
  simp only [head]

/-- Another last name does not change where a path starts. -/
theorem start_beside (one : Text.pieces Path.isSlash p.text.toList = front ++ [a])
    (two : Text.pieces Path.isSlash q.text.toList = front ++ [b]) (here : a ≠ [])
    (there : b ≠ []) (plain : '\x00' ∉ b) (started : fs.start p = .ok (place, pieces)) :
    pieces = (front ++ [a]).map String.ofList ∧
      fs.start q = .ok (place, (front ++ [b]).map String.ofList) := by
  rw [start_eq, one, startAt_of_ne here] at started
  rw [start_eq, two, startAt_of_ne there]
  split at started
  · cases started
  rename_i clean
  obtain ⟨rfl, rfl⟩ := Prod.mk.inj (Except.ok.inj started)
  have still : ¬ ∃ x ∈ front ++ [b], '\x00' ∈ x := by
    rintro ⟨x, hx, nul⟩
    rcases List.mem_append.mp hx with before | own
    · exact clean ⟨x, List.mem_append_left _ before, nul⟩
    · exact plain (List.mem_singleton.mp own ▸ nul)
  exact ⟨rfl, if_neg still⟩

theorem dirWalk?_append (dirs : List String → Bool) (place pieces more : List String) :
    dirWalk? dirs place (pieces ++ more) =
      (dirWalk? dirs place pieces).bind fun q => dirWalk? dirs q more := by
  fun_induction dirWalk? dirs place pieces with
  | case1 place yes => rfl
  | case2 place no => exact dirWalk?_of_not (eq_false_of_ne_true no)
  | case3 place piece rest no => exact dirWalk?_of_not (by simpa using no)
  | case4 place piece rest yes idle ih =>
    rw [← ih, List.cons_append, dirWalk?, if_neg yes, if_pos idle]
  | case5 place rest yes other ih =>
    rw [← ih, List.cons_append, dirWalk?, if_neg yes, if_neg other, if_pos rfl]
  | case6 place piece rest yes other up long =>
    rw [List.cons_append, dirWalk?, if_neg yes, if_neg other, if_neg up, if_pos long]
    rfl
  | case7 place piece rest yes other up short ih =>
    rw [← ih, List.cons_append, dirWalk?, if_neg yes, if_neg other, if_neg up, if_neg short]

/-- The directory that a path goes through to its last piece. -/
def parentPlace? (fs : FileSystem) (p : Path) : Option (List String) :=
  (fs.start p).toOption.bind fun (place, pieces) => dirWalk? fs.tree.dirAt place pieces.dropLast

theorem parentPlace?_of_place? (h : fs.place? p = some place) :
    fs.parentPlace? p = some place.dropLast := by
  unfold place? at h
  unfold parentPlace?
  cases started : fs.start p with
  | error trouble => rw [started] at h; cases h
  | ok pair =>
    rw [started] at h
    simp only [toOption_ok, Option.bind_some] at h ⊢
    split at h
    · cases h
    · obtain ⟨d, walked, rfl⟩ := Option.map_eq_some_iff.mp h
      rw [walked, List.dropLast_concat]

theorem parentPlace?_beside (one : Text.pieces Path.isSlash p.text.toList = front ++ [a])
    (two : Text.pieces Path.isSlash q.text.toList = front ++ [b]) (here : a ≠ [])
    (there : b ≠ [])
    (plain : '\x00' ∉ b) (h : fs.parentPlace? p = some d) : fs.parentPlace? q = some d := by
  unfold parentPlace? at h ⊢
  cases started : fs.start p with
  | error trouble => rw [started] at h; cases h
  | ok pair =>
    obtain ⟨place, pieces⟩ := pair
    obtain ⟨rfl, other⟩ := start_beside one two here there plain started
    rw [started] at h
    rw [other]
    simp only [toOption_ok, Option.bind_some, List.map_append, List.map_cons, List.map_nil,
      List.dropLast_concat] at h ⊢
    exact h

/-- Where a path goes through directories to its last name, a file can be prepared in
the last of them. -/
theorem prepares_of_parentPlace?
    (split : Text.pieces Path.isSlash p.text.toList = front ++ [name.toList])
    (counts : Path.isIdle name.toList = false) (h : fs.parentPlace? p = some d) :
    fs.prepares p = true := by
  unfold parentPlace? at h
  rw [start_eq, split, startAt_of_ne (Path.ne_nil_of_not_idle counts)] at h
  split at h
  · cases h
  rename_i clean
  simp only [toOption_ok, Option.bind_some, List.map_append, List.map_cons, List.map_nil,
    List.dropLast_concat] at h
  unfold prepares
  cases front with
  | nil =>
    have here : fs.tree.dirAt fs.workDir = true := by
      have same := h
      rw [List.head?_nil, if_neg (by simp), List.map_nil] at same
      unfold dirWalk? at same
      split at same
      · assumption
      · cases same
    have dot : prepareDir p = ⟨"."⟩ := by
      rw [prepareDir, Path.parent_of_singleton split counts]
      rfl
    have started : fs.start ⟨"."⟩ = .ok (fs.workDir, ["."]) := rfl
    rw [dot, started]
    simp [dirWalk?, here]
  | cons first rest =>
    have below := Path.pieces_prepareDir split counts
    have whole : first :: rest =
        first :: rest.rdropWhile Path.isIdle ++ rest.rtakeWhile Path.isIdle := by
      rw [List.cons_append, List.rdropWhile_append_rtakeWhile]
    have clean' : ¬ ∃ x ∈ first :: rest.rdropWhile Path.isIdle, '\x00' ∈ x := by
      rintro ⟨x, hx, nul⟩
      refine clean ⟨x, List.mem_append_left _ ?_, nul⟩
      rw [whole]
      exact List.mem_append_left _ hx
    rw [whole, List.map_append, dirWalk?_append] at h
    obtain ⟨e, before, -⟩ := Option.bind_eq_some_iff.mp h
    rw [start_eq, below]
    by_cases root : first :: rest.rdropWhile Path.isIdle = [[]]
    · -- the path of the root has one piece more
      have started : fs.startAt [[], []] = .ok ([], ["", ""]) := by simp [startAt]
      rw [root] at before
      rw [if_pos root, started]
      have top : fs.tree.dirAt [] = true := by
        by_contra no
        rw [dirWalk?_of_not (by simpa using no)] at before
        cases before
      simp [dirWalk?, top]
    · rw [if_neg root, startAt, if_neg root, if_neg clean']
      exact Option.isSome_iff_exists.mpr ⟨e, before⟩

theorem newPlace_of_parentPlace?
    (split : Text.pieces Path.isSlash p.text.toList = front ++ [name.toList])
    (counts : Path.isIdle name.toList = false) (h : fs.parentPlace? p = some d) :
    fs.newPlace p =
      if name = ".." then .error .busy
      else if maxNameBytes < name.utf8ByteSize then .error .nameTooLong
      else .ok (d ++ [name]) := by
  have proper : name ≠ "" ∧ name ≠ "." := by
    constructor <;> rintro rfl <;> cases counts
  unfold parentPlace? at h
  unfold newPlace
  cases started : fs.start p with
  | error trouble => rw [started] at h; cases h
  | ok pair =>
    obtain ⟨place, pieces⟩ := pair
    have spelled := start_ok started
    rw [split, List.map_append, List.map_singleton, String.ofList_toList] at spelled
    subst spelled
    rw [started] at h
    simp only [toOption_ok, Option.bind_some, List.dropLast_concat] at h
    have kept : Text.dropEndWhile (· == "") (front.map String.ofList ++ [name]) =
        front.map String.ofList ++ [name] :=
      List.rdropWhile_concat_neg _ _ _ (by simp [proper.1])
    have walked : fs.walk place (front.map String.ofList ++ [""]) = .ok d := by
      apply toOption_eq_some_iff.mp
      rw [walk_dir, h]
    simp only [ok_bind, kept, List.getLast?_concat, Option.getD_some, List.dropLast_concat, walked,
      proper, false_or, lt_irrefl, if_false]

/-- To write where only the name can stand in the way. -/
theorem write_of_parentPlace?
    (split : Text.pieces Path.isSlash p.text.toList = front ++ [name.toList])
    (counts : Path.isIdle name.toList = false) (h : fs.parentPlace? p = some d) :
    fs.write p text =
      if name = ".." then .error .busy
      else if maxNameBytes < name.utf8ByteSize then .error .nameTooLong
      else if fs.tree.dirAt (d ++ [name]) then .error .isDirectory
      else .ok { fs with tree := fs.tree.put (d ++ [name]) (.file text) } := by
  obtain ⟨e, prepared⟩ : ∃ e,
      ((fs.resolve (prepareDir p)).bind fun place => fs.enter place "") = .ok e := by
    have able := prepares_of_parentPlace? split counts h
    unfold prepares at able
    rw [← toOption_prepare] at able
    obtain ⟨e, made⟩ := Option.isSome_iff_exists.mp able
    exact ⟨e, toOption_eq_some_iff.mp made⟩
  unfold write
  rw [prepared, ok_bind, newPlace_of_parentPlace? split counts h]
  split_ifs with dots long taken
  · rfl
  · rfl
  · obtain ⟨es, found⟩ := FileTree.exists_dir taken
    rw [ok_bind, found]
  · rw [ok_bind]
    split
    · rename_i found
      exact absurd (FileTree.dirAt_of_find? found) taken
    · rfl

/-- Such a write fails only for what directories tell. -/
theorem write_eq_opening (split : Text.pieces Path.isSlash p.text.toList = front ++ [name.toList])
    (counts : Path.isIdle name.toList = false) (h : fs.parentPlace? p = some d) (text : String) :
    fs.write p text =
      (fs.opening p).map fun place => { fs with tree := fs.tree.put place (.file text) } := by
  rw [← write_blurred, write_of_parentPlace? split counts h]
  split_ifs <;> rfl

end FileSystem

namespace OutputNaming
variable {n : OutputNaming} {source : Path} {front : List (List Char)} {name : String}

/-- An output differs from its source in the last component. -/
theorem exists_pieces_outputPath (ext : n.extension = ".d.ts")
    (split : Text.pieces Path.isSlash source.text.toList = front ++ [name.toList])
    (shown : Path.isName name.toList = true) :
    ∃ own : String, Text.pieces Path.isSlash (n.outputPath source).text.toList =
      front ++ [own.toList] ∧
      Path.isIdle own.toList = false ∧ ('\x00' ∉ name.toList → '\x00' ∉ own.toList) := by
  unfold outputPath
  by_cases keep : n.keepExtension = true
  · obtain ⟨front', last, before, after⟩ := Text.exists_pieces_append source.text.toList
      (p := Path.isSlash) (b := ".d.ts".toList) (by simp [Path.isSlash])
    rw [before] at split
    obtain ⟨rfl, same⟩ := List.append_inj' split rfl
    obtain rfl := List.head_eq_of_cons_eq same
    refine ⟨name ++ ".d.ts", ?_, ?_, ?_⟩
    · rw [if_pos keep, ext, Path.append, String.toList_append, after, String.toList_append]
    · exact Path.isIdle_of_isName (Path.isName_of_length (by simp))
    · intro plain
      simpa using plain
  · have bare : n.bareExtension = "d.ts" := by
      rw [bareExtension, ext]
      rfl
    have file := Path.fileName?_of_pieces split shown
    rw [String.ofList_toList] at file
    refine ⟨source.renamed name "d.ts", ?_, ?_, ?_⟩
    · rw [if_neg keep, bare, Path.pieces_withExtension file (by decide),
        Path.spine_of_pieces split (Path.isIdle_of_isName shown), List.dropLast_concat]
    · exact Path.isIdle_renamed (Path.isEntry_of_fileName? file).toList_ne_nil (by decide)
    · intro plain nul
      rcases List.mem_append.mp (Path.renamed_subset source name "d.ts" nul) with old | ending
      · exact plain old
      · simp at ending

end OutputNaming

namespace FileSystem
variable {fs : FileSystem} {source : Path} {place pieces : List String}

theorem nul_notMem_of_start (started : fs.start source = .ok (place, pieces)) :
    '\x00' ∉ source.text.toList := by
  intro nul
  unfold start at started
  split at started
  · cases started
  · rw [if_pos (List.contains_iff_mem.mpr nul)] at started
    cases started

/-- To write the output of a source that is there fails only for what directories tell. -/
theorem write_outputPath {n : OutputNaming} (ext : n.extension = ".d.ts")
    (named : fs.place? source = some place) (text : String) :
    fs.write (n.outputPath source) text = (fs.opening (n.outputPath source)).map fun place =>
      { fs with tree := fs.tree.put place (.file text) } := by
  obtain ⟨front, name, split, -, entry⟩ := pieces_of_place? named
  obtain ⟨own, spelled, counts, clean⟩ :=
    OutputNaming.exists_pieces_outputPath ext split entry.isName_toList
  have plain : '\x00' ∉ name.toList := by
    intro nul
    have inner : ∃ x ∈ Text.pieces Path.isSlash source.text.toList, '\x00' ∈ x :=
      ⟨name.toList, by simp [split], nul⟩
    have known := parentPlace?_of_place? named
    unfold parentPlace? at known
    cases started : fs.start source with
    | error trouble => rw [started] at known; cases known
    | ok pair => exact nul_notMem_of_start started (Text.exists_mem_pieces_iff.mp inner).1
  have there : fs.parentPlace? (n.outputPath source) = some place.dropLast :=
    parentPlace?_beside split spelled entry.toList_ne_nil (Path.ne_nil_of_not_idle counts)
      (clean plain) (parentPlace?_of_place? named)
  exact write_eq_opening spelled counts there text

end FileSystem

end Ambient
