import Ambient.Proofs.Path.FileName
import Ambient.Proofs.Rendering.Directives

/-!
# The way to a file

The path of a directive leads from one directory to another and then to a file. Between directories
below the root it never has two slashes in a row, whatever the names on the way hold.
-/
namespace Ambient

namespace Path
variable {p q : Path} {name : String} {c : Component}

/-- Between two slashes in a row there is an empty piece, which is not the last one. -/
theorem nil_mem_of_infix {cs : List Char} (h : ['/', '/'] <:+: cs) :
    [] ∈ (Text.pieces isSlash cs).dropLast := by
  obtain ⟨front, back, rfl⟩ := h
  have split : Text.pieces isSlash (front ++ ['/', '/'] ++ back) =
      Text.pieces isSlash front ++ [] :: Text.pieces isSlash back := by
    rw [List.append_assoc, List.cons_append, Text.pieces_append_cons rfl]
    rfl
  rw [split, List.dropLast_append_of_ne_nil (List.cons_ne_nil _ _),
    List.dropLast_cons_of_ne_nil (Text.pieces_ne_nil back)]
  simp

theorem head?_ofPieces (more : List (List Char)) :
    (ofPieces ([] :: more)).text.toList.head? = some '/' := by
  unfold ofPieces
  split
  · rfl
  · rw [String.toList_ofList]
    cases more with
    | nil => contradiction
    | cons piece rest => rfl

theorem isAbsolute_iff : p.isAbsolute = true ↔ p.text.toList.head? = some '/' := by
  rw [isAbsolute, beq_iff_eq]

/-- The pieces of an absolute path start with nothing, and others follow. -/
theorem exists_pieces (absolute : p.isAbsolute = true) :
    ∃ more, Text.pieces isSlash p.text.toList = [] :: more ∧ more ≠ [] := by
  have slash := isAbsolute_iff.mp absolute
  cases spelled : p.text.toList with
  | nil => rw [spelled] at slash; cases slash
  | cons d r =>
    rw [spelled] at slash
    rw [Option.some.inj slash]
    exact ⟨_, Text.pieces_append_cons rfl [] r, Text.pieces_ne_nil r⟩

/-- The spine of an absolute path starts with nothing, and goes on where there is a file name. -/
theorem exists_spine (absolute : p.isAbsolute = true) (shown : p.fileName? = some name) :
    ∃ more, p.spine = [] :: more ∧ more ≠ [] := by
  obtain ⟨more, split, -⟩ := exists_pieces absolute
  have spine : p.spine = [] :: Text.dropEndWhile isIdle more := by
    unfold Path.spine
    rw [split]
  refine ⟨_, spine, fun none => ?_⟩
  rw [none] at spine
  unfold fileName? at shown
  rw [spine] at shown
  cases shown

theorem isAbsolute_parent_of_spine {more : List (List Char)} (spine : p.spine = [] :: more)
    (some : more ≠ []) : p.parent.isAbsolute = true := by
  obtain ⟨piece, rest, rfl⟩ := List.exists_cons_of_ne_nil some
  unfold parent parent?
  rw [spine]
  exact isAbsolute_iff.mpr (head?_ofPieces _)

theorem isAbsolute_parent (absolute : p.isAbsolute = true) (shown : p.fileName? = some name) :
    p.parent.isAbsolute = true := by
  obtain ⟨more, spine, some⟩ := exists_spine absolute shown
  exact isAbsolute_parent_of_spine spine some

theorem isAbsolute_append (absolute : p.isAbsolute = true) (tail : String) :
    (p.append tail).isAbsolute = true := by
  rw [isAbsolute_iff] at absolute ⊢
  rw [append, String.toList_append, List.head?_append, absolute]
  rfl

theorem isAbsolute_parent_withExtension {extension : String} (absolute : p.isAbsolute = true)
    (shown : p.fileName? = some name) (going : extension ≠ "")
    (plain : '/' ∉ extension.toList) :
    (p.withExtension extension).parent.isAbsolute = true := by
  obtain ⟨more, spine, some⟩ := exists_spine absolute shown
  have filled := (isEntry_of_fileName? shown).toList_ne_nil
  have other := spine_of_pieces (pieces_withExtension shown plain) (isIdle_renamed filled going)
  rw [spine, List.dropLast_cons_of_ne_nil some, List.cons_append] at other
  exact isAbsolute_parent_of_spine other (by simp)

theorem componentsOf_root {more : List (List Char)} (going : more ≠ []) :
    componentsOf ([] :: more) = .root :: (more.filter (!isIdle ·)).map Component.ofPiece := by
  rw [componentsOf, if_pos rfl, if_neg going]

theorem head?_components (absolute : p.isAbsolute = true) : p.components.head? = some .root := by
  obtain ⟨more, split, going⟩ := exists_pieces absolute
  rw [components, split, componentsOf_root going]
  rfl

/-- A step on the way between two directories: up, or down to a name that a directory can hold. -/
inductive Component.IsStep : Component → Prop where
  | up : IsStep .parent
  | down {name : String} : IsEntry name → IsStep (.normal name)

namespace Component.IsStep

theorem ofPiece_text (step : c.IsStep) : Component.ofPiece c.text.toList = c := by
  cases step with
  | up => rfl
  | down entry => exact Path.ofPiece_toList entry

theorem isIdle_text (step : c.IsStep) : isIdle c.text.toList = false := by
  cases step with
  | up => rfl
  | down entry => exact entry.isIdle_toList

theorem text_ne_empty (step : c.IsStep) : c.text ≠ "" := by
  cases step with
  | up => decide
  | down entry => exact entry.1

theorem slash_notMem_text (step : c.IsStep) : '/' ∉ c.text.toList := by
  cases step with
  | up => decide
  | down entry => exact entry.2.2.2

end Component.IsStep

/-- A piece between slashes that is not idle is a step. -/
theorem isStep_ofPiece {piece : List Char} (shown : isIdle piece = false) (plain : '/' ∉ piece) :
    (Component.ofPiece piece).IsStep := by
  unfold Component.ofPiece
  split
  · exact .up
  · rename_i dots
    rw [isIdle, Bool.or_eq_false_iff, decide_eq_false_iff_not, decide_eq_false_iff_not] at shown
    have spelled : (String.ofList piece).toList = piece := String.toList_ofList
    refine .down ⟨fun none => shown.1 (String.ofList_eq_empty_iff.mp none), ?_, ?_, ?_⟩
    · intro one
      rw [one] at spelled
      exact shown.2 spelled.symm
    · intro two
      rw [two] at spelled
      exact dots spelled.symm
    · rwa [spelled]

theorem isStep_of_mem_tail (h : c ∈ p.components.tail) : c.IsStep := by
  have plain : ∀ piece ∈ Text.pieces isSlash p.text.toList, '/' ∉ piece :=
    fun piece hp slash =>
    not_slash.mp (Text.not_of_mem_pieces piece hp '/' slash) rfl
  unfold components at h
  cases split : Text.pieces isSlash p.text.toList with
  | nil => exact absurd split (Text.pieces_ne_nil _)
  | cons first more =>
    rw [split] at h plain
    have inner : c ∈ (more.filter (!isIdle ·)).map Component.ofPiece := by
      rw [componentsOf] at h
      split at h
      · split at h
        · cases h
        · exact h
      · split at h <;> exact h
    obtain ⟨piece, hp, rfl⟩ := List.mem_map.mp inner
    obtain ⟨member, shown⟩ := List.mem_filter.mp hp
    exact isStep_ofPiece (by simpa using shown) (plain piece (List.mem_cons_of_mem first member))

/-- From a directory below the root the way goes up and then down. -/
theorem relativeDir_eq {way : String} (absolute : p.isAbsolute = true)
    (h : p.relativeDir q = some way) :
    ∃ steps : List Component, way = joined steps ∧ ∀ c ∈ steps, c.IsStep := by
  have head := head?_components absolute
  unfold relativeDir at h
  simp only at h
  split at h
  · cases h
  · rename_i alike
    have target : q.components.head? = some .root := by
      by_contra other
      exact alike ⟨fun same => other (same.symm.trans head), head⟩
    have common : 1 ≤ commonLength p.components q.components := by
      cases source : p.components with
      | nil => rw [source] at head; cases head
      | cons a as =>
        cases dest : q.components with
        | nil => rw [dest] at target; cases target
        | cons b bs =>
          rw [source] at head
          rw [dest] at target
          rw [commonLength, if_pos (Option.some.inj (head.trans target.symm))]
          omega
    refine ⟨_, (Option.some.inj h).symm, fun c hc => ?_⟩
    rcases List.mem_append.mp hc with up | down
    · rw [List.eq_of_mem_replicate up]
      exact .up
    · refine isStep_of_mem_tail (p := q) ?_
      rw [← List.drop_one]
      exact (List.drop_suffix_drop_left _ common).subset down

theorem slash_notMem_fileName (p : Path) : '/' ∉ p.fileName.toList := by
  unfold fileName
  cases shown : p.fileName? with
  | none => simp
  | some name => exact (isEntry_of_fileName? shown).2.2.2

theorem pieces_joined {steps : List Component} (each : ∀ c ∈ steps, c.IsStep)
    (some : steps ≠ []) :
    Text.pieces isSlash (joined steps).toList = steps.map fun c => c.text.toList := by
  have slash : "/".toList = ['/'] := rfl
  unfold joined
  rw [String.toList_intercalate, slash, List.map_map]
  refine Text.pieces_intercalate rfl (by simpa using some) ?_
  intro x hx d hd
  obtain ⟨c, hc, rfl⟩ := List.mem_map.mp hx
  exact not_slash.mpr fun same => (each c hc).slash_notMem_text (same ▸ hd)

end Path

namespace Directive
variable {naming : OutputNaming} {sidecarOf : Path → Option Sidecar} {dir output : Path}

/-- A directive is a name, or a way that is not empty and a name. -/
theorem exists_pathTo (naming : OutputNaming) (sidecarOf : Path → Option Sidecar)
    (dir output : Path) :
    ∃ name : String, '/' ∉ name.toList ∧
      (pathTo naming sidecarOf dir output = name ∨
        ∃ way, dir.relativeDir output.parent = some way ∧ way ≠ "" ∧
          pathTo naming sidecarOf dir output = way ++ "/" ++ name) := by
  have paths : ∀ name : String, '/' ∉ name.toList → ∀ whole,
      whole = (dir.relativeDir output.parent).elim name
        (fun way => if way.isEmpty then name else way ++ "/" ++ name) →
      whole = name ∨ ∃ way, dir.relativeDir output.parent = some way ∧ way ≠ "" ∧
        whole = way ++ "/" ++ name := by
    rintro name - whole rfl
    cases dir.relativeDir output.parent with
    | none => exact .inl rfl
    | some way =>
      by_cases empty : way.isEmpty = true
      · exact .inl (if_pos empty)
      · refine .inr ⟨way, rfl, fun none => empty (String.isEmpty_iff.mpr none), if_neg empty⟩
  cases given : (sidecarOf output).bind Sidecar.givenName with
  | none =>
    have plain := Path.slash_notMem_fileName output
    refine ⟨_, plain, paths _ plain _ ?_⟩
    unfold pathTo
    rw [given]
    cases dir.relativeDir output.parent <;> rfl
  | some name =>
    have plain := Path.slash_notMem_fileName (naming.outputPath ⟨name⟩)
    refine ⟨_, plain, paths _ plain _ ?_⟩
    unfold pathTo
    rw [given]
    cases dir.relativeDir output.parent <;> rfl

/-- From a directory below the root no directive has two slashes in a row. -/
theorem pathTo_apart (absolute : dir.isAbsolute = true) :
    ¬ ['/', '/'] <:+: (pathTo naming sidecarOf dir output).toList := by
  obtain ⟨name, plain, whole⟩ := exists_pathTo naming sidecarOf dir output
  have alone : Text.pieces Path.isSlash name.toList = [name.toList] :=
    Text.pieces_of_forall fun d hd => Path.not_slash.mpr fun same => plain (same ▸ hd)
  intro two
  have empty := Path.nil_mem_of_infix two
  rcases whole with whole | ⟨way, found, some, whole⟩
  · rw [whole, alone] at empty
    cases empty
  · obtain ⟨steps, rfl, each⟩ := Path.relativeDir_eq absolute found
    have going : steps ≠ [] := by
      rintro rfl
      exact some rfl
    have slash : "/".toList = ['/'] := rfl
    rw [whole, String.toList_append, String.toList_append, slash, List.append_assoc,
      List.singleton_append, Text.pieces_append_cons rfl, Path.pieces_joined each going, alone,
      List.dropLast_concat] at empty
    obtain ⟨c, hc, none⟩ := List.mem_map.mp empty
    exact (each c hc).text_ne_empty (String.toList_eq_nil_iff.mp none)

theorem apart_of_mem_computed {declarations : List Declaration} {source : Path} {path : String}
    (absolute : (naming.outputPath source).parent.isAbsolute = true)
    (h : path ∈ computed naming sidecarOf declarations source) :
    ¬ ['/', '/'] <:+: path.toList := by
  have member := (eraseDups_sublist _).subset h
  obtain ⟨output, -, rfl⟩ := List.mem_map.mp (List.mem_mergeSort.mp member)
  exact pathTo_apart absolute

end Directive

namespace OutputNaming
variable {n : OutputNaming} {source : Path} {name : String}

theorem isAbsolute_parent_outputPath (ext : n.extension = ".d.ts")
    (absolute : source.isAbsolute = true)
    (shown : source.fileName? = some name) : (n.outputPath source).parent.isAbsolute = true := by
  have bare : n.bareExtension = "d.ts" := by
    rw [bareExtension, ext]
    rfl
  unfold outputPath
  split
  · obtain ⟨found, same, -⟩ :=
      Path.exists_fileName?_append source ".d.ts" (by decide) (by decide)
    rw [ext]
    exact Path.isAbsolute_parent (Path.isAbsolute_append absolute _) same
  · rw [bare]
    exact Path.isAbsolute_parent_withExtension absolute shown (by decide) (by decide)

end OutputNaming

end Ambient
