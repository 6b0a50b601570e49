import Ambient.Proofs.Text.Pieces
import Ambient.Resolution.Site

/-!
# Going down from a directory

A file of a project is reached from the root by entering one name after another. What the path of
the file shows below the root are these names, and joined to the root again they give the same path.
-/
namespace Ambient

namespace Path

/-- A name that a directory can hold. -/
def IsEntry (name : String) : Prop :=
  name ≠ "" ∧ name ≠ "." ∧ name ≠ ".." ∧ '/' ∉ name.toList

instance : DecidablePred IsEntry := fun name =>
  inferInstanceAs
    (Decidable (name ≠ "" ∧ name ≠ "." ∧ name ≠ ".." ∧ '/' ∉ name.toList))

/-- The path through directories of these names. -/
def descend (root : Path) (names : List String) : Path :=
  names.foldl (fun path name => path.join ⟨name⟩) root

/-- What stands in front of a relative path that is joined to `root`. -/
def lead (root : Path) : String :=
  if root.text.isEmpty ∨ root.text.toList.getLast? = some '/' then root.text else root.text ++ "/"

variable {root q : Path} {names : List String} {name : String}

theorem join_relative (relative : q.isAbsolute = false) :
    root.join q = ⟨root.lead ++ q.text⟩ := by
  unfold join lead
  rw [relative]
  by_cases empty : root.text.isEmpty = true
  · have nothing := String.isEmpty_iff.mp empty
    simp [nothing]
  · by_cases slash : root.text.toList.getLast? = some '/' <;> simp [empty, slash]

namespace IsEntry

theorem toList_ne_nil (h : IsEntry name) : name.toList ≠ [] :=
  fun nothing => h.1 (String.toList_eq_nil_iff.mp nothing)

theorem relative (h : IsEntry name) (more : List Char) :
    (name.toList ++ more).head? ≠ some '/' := by
  cases spelled : name.toList with
  | nil => exact absurd spelled h.toList_ne_nil
  | cons c r =>
    intro slash
    have first : c = '/' := by simpa using slash
    have member := h.2.2.2
    rw [spelled, first] at member
    exact member List.mem_cons_self

theorem isName_toList (h : IsEntry name) : isName name.toList = true := by
  have one : name.toList ≠ ['.'] := fun same => h.2.1 (String.toList_inj.mp same)
  have two : name.toList ≠ ['.', '.'] := fun same => h.2.2.1 (String.toList_inj.mp same)
  simp [isName, isIdle, h.1, one, two]

theorem isIdle_toList (h : IsEntry name) : isIdle name.toList = false := by
  have shown := h.isName_toList
  rw [isName, Bool.and_eq_true, Bool.not_eq_true'] at shown
  exact shown.1

end IsEntry

theorem isAbsolute_intercalate (proper : ∀ n ∈ names, IsEntry n) :
    Path.isAbsolute ⟨"/".intercalate names⟩ = false := by
  have slash : "/".toList = ['/'] := rfl
  simp only [isAbsolute, beq_eq_false_iff_ne, String.toList_intercalate, slash]
  cases names with
  | nil => simp
  | cons n more =>
    have entry := proper n List.mem_cons_self
    cases more with
    | nil => simpa using entry.relative []
    | cons m rest =>
      rw [List.map_cons, List.map_cons, List.intercalate_cons_cons, List.append_assoc]
      exact entry.relative _

theorem join_entry (h : IsEntry name) : root.join ⟨name⟩ = ⟨root.lead ++ name⟩ := by
  refine join_relative ?_
  have relative := h.relative []
  rw [List.append_nil] at relative
  exact beq_eq_false_iff_ne.mpr relative

theorem lead_join_entry (h : IsEntry name) :
    (root.join ⟨name⟩).lead = root.lead ++ name ++ "/" := by
  rw [join_entry h]
  have some : ¬ (root.lead ++ name).isEmpty = true := by
    intro nothing
    have chars := congrArg String.toList (String.isEmpty_iff.mp nothing)
    rw [String.toList_append] at chars
    exact h.toList_ne_nil (List.append_eq_nil_iff.mp chars).2
  have last : ¬ (root.lead ++ name).toList.getLast? = Option.some '/' := by
    rw [String.toList_append, List.getLast?_append]
    cases spelled : name.toList.getLast? with
    | none => exact absurd (List.getLast?_eq_none_iff.mp spelled) h.toList_ne_nil
    | some c =>
      intro slash
      have same : c = '/' := Option.some.inj slash
      rw [same] at spelled
      exact h.2.2.2 (List.mem_of_getLast? spelled)
  unfold lead
  rw [if_neg (by simp only [not_or]; exact ⟨some, last⟩)]

theorem descend_eq (proper : ∀ n ∈ names, IsEntry n) (some : names ≠ []) :
    root.descend names = ⟨root.lead ++ "/".intercalate names⟩ := by
  induction names generalizing root with
  | nil => exact absurd rfl some
  | cons n more ih =>
    have entry := proper n List.mem_cons_self
    cases more with
    | nil =>
      rw [String.intercalate_singleton]
      exact join_entry entry
    | cons m rest =>
      have below : (root.join ⟨n⟩).descend (m :: rest) = _ :=
        ih (fun k hk => proper k (List.mem_cons_of_mem n hk)) (by simp)
      rw [String.intercalate_cons_cons, ← String.append_assoc, ← String.append_assoc,
        ← lead_join_entry entry]
      exact below

/-- A path below a directory is the directory joined with the names that lead down. -/
theorem join_intercalate (proper : ∀ n ∈ names, IsEntry n) (some : names ≠ []) :
    root.join ⟨"/".intercalate names⟩ = root.descend names := by
  rw [descend_eq proper some]
  exact join_relative (isAbsolute_intercalate proper)

theorem ofPiece_toList (h : IsEntry name) : Component.ofPiece name.toList = .normal name := by
  have dots : name.toList ≠ ['.', '.'] := fun same => h.2.2.1 (String.toList_inj.mp same)
  rw [Component.ofPiece, if_neg dots, String.ofList_toList]

theorem map_ofPiece_entries (proper : ∀ n ∈ names, IsEntry n) :
    (names.map String.toList).map Component.ofPiece = names.map Component.normal := by
  rw [List.map_map]
  exact List.map_congr_left fun n hn => ofPiece_toList (proper n hn)

theorem filter_shown {pieces : List (List Char)}
    (shown : ∀ piece ∈ pieces, isIdle piece = false) :
    pieces.filter (!isIdle ·) = pieces :=
  List.filter_eq_self.mpr fun piece hp => by rw [shown piece hp]; rfl

/-- More pieces are more components; an empty piece at the end is none. -/
theorem componentsOf_append {pieces more : List (List Char)} (some : pieces ≠ [])
    (going : more ≠ []) :
    componentsOf (pieces ++ more) =
      componentsOf (pieces ++ [[]]) ++ (more.filter (!isIdle ·)).map Component.ofPiece := by
  cases pieces with
  | nil => exact absurd rfl some
  | cons first rest =>
    have idle : isIdle [] = true := rfl
    simp only [List.cons_append, componentsOf, List.filter_append, List.map_append]
    by_cases root : first = []
    · simp [root, idle, going]
    · by_cases dot : first = ['.'] <;> simp [root, dot, idle]

theorem componentsOf_append_nil {pieces : List (List Char)} (other : pieces ≠ [[]]) :
    componentsOf (pieces ++ [[]]) = componentsOf pieces ∨ pieces = [] := by
  cases pieces with
  | nil => exact .inr rfl
  | cons first rest =>
    left
    have idle : isIdle [] = true := rfl
    simp only [List.cons_append, componentsOf, List.filter_append, List.map_append]
    by_cases root : first = []
    · have some : rest ≠ [] := fun none => other (by rw [root, none])
      simp [root, idle, some]
    · by_cases dot : first = ['.'] <;> simp [root, dot, idle]

theorem pieces_intercalate_entries (proper : ∀ n ∈ names, IsEntry n) (some : names ≠ []) :
    Text.pieces isSlash ("/".intercalate names).toList = names.map String.toList := by
  rw [String.toList_intercalate]
  refine Text.pieces_intercalate rfl (by simpa using some) ?_
  intro piece hp c hc
  obtain ⟨n, hn, rfl⟩ := List.mem_map.mp hp
  rw [isSlash, beq_eq_false_iff_ne]
  rintro rfl
  exact (proper n hn).2.2.2 hc

theorem componentsOf_shown {pieces : List (List Char)}
    (shown : ∀ piece ∈ pieces, isIdle piece = false) :
    componentsOf pieces = pieces.map Component.ofPiece := by
  cases pieces with
  | nil => rfl
  | cons first more =>
    have rest := filter_shown fun piece hp => shown piece (List.mem_cons_of_mem first hp)
    have front := shown first List.mem_cons_self
    rw [isIdle, Bool.or_eq_false_iff, decide_eq_false_iff_not, decide_eq_false_iff_not] at front
    rw [componentsOf, if_neg front.1, if_neg front.2, rest, List.map_cons]

/-- Whatever stands behind a directory adds to its components. -/
theorem components_lead_append (some : root.text ≠ "") (text : String) :
    components ⟨root.lead ++ text⟩ = root.components ++
      ((Text.pieces isSlash text.toList).filter (!isIdle ·)).map Component.ofPiece := by
  have going := Text.pieces_ne_nil (p := isSlash) text.toList
  have slash : "/".toList = ['/'] := rfl
  have full : ¬ root.text.isEmpty = true := fun none => some (String.isEmpty_iff.mp none)
  rw [components, components, String.toList_append]
  by_cases last : root.text.toList.getLast? = .some '/'
  · obtain ⟨front, spelled⟩ := List.getLast?_eq_some_iff.mp last
    have lead : root.lead = root.text := by simp [Path.lead, last]
    rw [lead, spelled, List.append_assoc, List.singleton_append,
      Text.pieces_append_cons rfl, Text.pieces_append_cons rfl]
    exact componentsOf_append (Text.pieces_ne_nil front) going
  · have lead : root.lead.toList = root.text.toList ++ ['/'] := by
      simp [Path.lead, full, last, slash]
    rw [lead, List.append_assoc, List.singleton_append, Text.pieces_append_cons rfl,
      componentsOf_append (Text.pieces_ne_nil _) going]
    congr 1
    have others : Text.pieces isSlash root.text.toList ≠ [[]] := fun alone =>
      some (String.toList_eq_nil_iff.mp (Text.eq_nil_of_pieces alone))
    rcases componentsOf_append_nil others with same | none
    · exact same
    · exact absurd none (Text.pieces_ne_nil _)

/-- Pieces behind what leads down from a directory add to its components. -/
theorem components_lead {text : String} {pieces : List (List Char)}
    (split : Text.pieces isSlash text.toList = pieces)
    (shown : ∀ piece ∈ pieces, isIdle piece = false) :
    components ⟨root.lead ++ text⟩ = root.components ++ pieces.map Component.ofPiece := by
  by_cases empty : root.text = ""
  · have lead : root.lead = "" := by simp [Path.lead, empty]
    have top : root.components = [] := by rw [components, empty]; rfl
    rw [lead, top, String.empty_append, List.nil_append, components, split,
      componentsOf_shown shown]
  · rw [components_lead_append empty, split, filter_shown shown]

/-- Going down adds the names to the components. -/
theorem components_descend (proper : ∀ n ∈ names, IsEntry n) (some : names ≠ []) :
    (root.descend names).components = root.components ++ names.map .normal := by
  have shown : ∀ piece ∈ names.map String.toList, isIdle piece = false := by
    intro piece hp
    obtain ⟨n, hn, rfl⟩ := List.mem_map.mp hp
    exact (proper n hn).isIdle_toList
  rw [descend_eq proper some, components_lead (pieces_intercalate_entries proper some) shown,
    map_ofPiece_entries proper]

/-- What the path of a file shows below a directory are the names that lead down. -/
theorem below?_descend (proper : ∀ n ∈ names, IsEntry n) (some : names ≠ []) :
    root.below? (root.descend names) = .some (names.map .normal) := by
  unfold below?
  rw [components_descend proper some]
  simp

end Path

/-- The item name of a project file leads back to the file. -/
theorem Setting.join_itemName {s : Setting} {names : List String}
    (proper : ∀ n ∈ names, Path.IsEntry n) (some : names ≠ []) :
    s.project.root.join ⟨s.itemName (s.project.root.descend names)⟩ =
      s.project.root.descend names := by
  have texts : (names.map Path.Component.normal).map Path.Component.text = names := by
    rw [List.map_map]
    exact List.map_id names
  rw [itemName, Path.below?_descend proper some]
  show s.project.root.join ⟨"/".intercalate _⟩ = _
  rw [texts]
  exact Path.join_intercalate proper some

end Ambient
