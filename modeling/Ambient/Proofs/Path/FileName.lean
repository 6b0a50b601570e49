import Ambient.Naming
import Ambient.Proofs.Path.Descend
import Mathlib.Data.List.DropRight

/-!
# The last name of a path

A path has a file name when its last component is a name. What follows this name in the text of the
path are slashes and single dots.
-/
namespace Ambient

namespace Path
variable {p : Path} {front : List (List Char)} {last : List Char} {name : String}

theorem isIdle_of_isName (h : isName last = true) : isIdle last = false := by
  rw [isName, Bool.and_eq_true, Bool.not_eq_true'] at h
  exact h.1

theorem ne_nil_of_not_idle (h : isIdle last = false) : last ≠ [] := by
  rintro rfl
  cases h

/-- Nothing is dropped behind a piece that is a component. -/
theorem spine_of_pieces (split : Text.pieces isSlash p.text.toList = front ++ [last])
    (counts : isIdle last = false) : p.spine = front ++ [last] := by
  unfold Path.spine
  rw [split]
  cases front with
  | nil => rfl
  | cons first more =>
    have kept := List.rdropWhile_concat_neg isIdle more last (by simp [counts])
    exact congrArg (first :: ·) kept

/-- The parent of a path is spelled by the pieces in front of the last component. -/
theorem parent_of_spine {first : List Char} {rest : List (List Char)}
    (spine : p.spine = first :: rest ++ [last]) :
    p.parent = ofPieces (first :: rest.rdropWhile isIdle) := by
  unfold parent parent?
  rw [spine]
  cases rest with
  | nil => rfl
  | cons second others =>
    simp only [List.cons_append]
    rw [← List.cons_append, List.dropLast_concat]
    rfl

/-- The last piece is the file name if it is a name. -/
theorem fileName?_of_pieces (split : Text.pieces isSlash p.text.toList = front ++ [last])
    (shown : isName last = true) : p.fileName? = some (String.ofList last) := by
  rw [fileName?, spine_of_pieces split (isIdle_of_isName shown), List.getLast?_concat,
    Option.filter_some, if_pos shown, Option.map_some]

/-- The file name stands in the text with nothing but idle pieces after it. -/
theorem pieces_of_fileName? (h : p.fileName? = some name) :
    ∃ front after, Text.pieces isSlash p.text.toList = front ++ [name.toList] ++ after ∧
      isName name.toList = true ∧ ∀ piece ∈ after, isIdle piece = true := by
  unfold fileName? at h
  obtain ⟨last, found, rfl⟩ := Option.map_eq_some_iff.mp h
  obtain ⟨found, shown⟩ := Option.filter_eq_some_iff.mp found
  obtain ⟨front, spine⟩ := List.getLast?_eq_some_iff.mp found
  rw [String.toList_ofList]
  cases split : Text.pieces isSlash p.text.toList with
  | nil => exact absurd split (Text.pieces_ne_nil _)
  | cons first more =>
    have whole : p.spine = first :: more.rdropWhile isIdle := by
      unfold Path.spine
      rw [split]
      rfl
    refine ⟨front, more.rtakeWhile isIdle, ?_, shown, fun piece => List.mem_rtakeWhile_imp⟩
    rw [← spine, whole, List.cons_append, List.rdropWhile_append_rtakeWhile]

theorem not_slash {c : Char} : isSlash c = false ↔ c ≠ '/' := by
  rw [isSlash, beq_eq_false_iff_ne]

/-- A file name is a proper name. -/
theorem isEntry_of_fileName? (h : p.fileName? = some name) : IsEntry name := by
  obtain ⟨front, after, split, shown, -⟩ := pieces_of_fileName? h
  have piece : name.toList ∈ Text.pieces isSlash p.text.toList := by simp [split]
  simp only [isName, isIdle, Bool.and_eq_true, Bool.not_eq_true', Bool.or_eq_false_iff,
    decide_eq_false_iff_not, decide_eq_true_eq] at shown
  obtain ⟨⟨some, one⟩, two⟩ := shown
  refine ⟨fun h => some (by rw [h]; rfl), fun h => one (by rw [h]; rfl),
    fun h => two (by rw [h]; rfl), fun slash => ?_⟩
  exact not_slash.mp (Text.not_of_mem_pieces _ piece '/' slash) rfl

/-- A piece of three characters or more is a name. -/
theorem isName_of_length {piece : List Char} (long : 3 ≤ piece.length) : isName piece = true := by
  have some : piece ≠ [] := by rintro rfl; simp at long
  have one : piece ≠ ['.'] := by rintro rfl; simp at long
  have two : piece ≠ ['.', '.'] := by rintro rfl; simp at long
  simp [isName, isIdle, some, one, two]

/-- What is appended to a path is the end of its file name. -/
theorem exists_fileName?_append (p : Path) (tail : String) (long : 3 ≤ tail.toList.length)
    (noSlash : '/' ∉ tail.toList) : ∃ name, (p.append tail).fileName? = some name ∧
      tail.toList <:+ name.toList := by
  obtain ⟨front, last, -, after⟩ := Text.exists_pieces_append p.text.toList
    (p := isSlash) (b := tail.toList) fun c hc => not_slash.mpr fun same => noSlash (same ▸ hc)
  have split : Text.pieces isSlash (p.append tail).text.toList =
      front ++ [last ++ tail.toList] := by
    rw [← after, append, String.toList_append]
  have shown : isName (last ++ tail.toList) = true := isName_of_length (by
    rw [List.length_append]
    omega)
  refine ⟨_, fileName?_of_pieces split shown, ?_⟩
  rw [String.toList_ofList]
  exact List.suffix_append last tail.toList

theorem mem_pieces_of_mem_spine {piece : List Char} (h : piece ∈ p.spine) :
    piece ∈ Text.pieces isSlash p.text.toList := by
  unfold Path.spine at h
  cases split : Text.pieces isSlash p.text.toList with
  | nil => exact absurd split (Text.pieces_ne_nil _)
  | cons first more =>
    rw [split] at h
    rcases List.mem_cons.mp h with rfl | later
    · exact List.mem_cons_self
    · exact List.mem_cons_of_mem _ ((more.rdropWhile_prefix isIdle).subset later)

theorem stem_subset (name : String) : (splitName name).1.toList ⊆ name.toList := by
  unfold splitName
  simp only
  split
  · exact List.Subset.refl _
  · rw [String.toList_ofList]
    exact List.take_subset _ _

theorem stem_ne_nil (some : name.toList ≠ []) : (splitName name).1.toList ≠ [] := by
  unfold splitName
  simp only
  split
  · exact some
  · rename_i before
    rwa [String.toList_ofList]

theorem renamed_subset (p : Path) (name extension : String) :
    (p.renamed name extension).toList ⊆ name.toList ++ '.' :: extension.toList := by
  have stem := List.subset_append_of_subset_left ('.' :: extension.toList) (stem_subset name)
  unfold renamed
  simp only
  split_ifs
  · intro c hc
    obtain rfl : c = '.' := by simpa using hc
    simp
  · exact stem
  · rw [String.toList_append, String.toList_append, List.append_assoc]
    exact List.append_subset.mpr ⟨stem, List.subset_append_right _ _⟩

theorem renamed_ne_nil (some : name.toList ≠ []) (extension : String) :
    (p.renamed name extension).toList ≠ [] := by
  unfold renamed
  simp only
  split_ifs
  · decide
  · exact stem_ne_nil some
  · simp

/-- An extension that is not empty gives a file name that ends in it, but for a double dot. -/
theorem renamed_cases {extension : String} (some : name.toList ≠ []) (going : extension ≠ "") :
    p.renamed name extension = ".." ∨
      isName (p.renamed name extension).toList = true ∧
        '.' :: extension.toList <:+ (p.renamed name extension).toList := by
  have filled : extension.isEmpty = false := by
    rw [Bool.eq_false_iff]
    exact fun none => going (String.isEmpty_iff.mp none)
  have stem := List.length_pos_of_ne_nil (stem_ne_nil some)
  have last := List.length_pos_of_ne_nil fun none => going (String.toList_eq_nil_iff.mp none)
  have dot : ".".toList = ['.'] := rfl
  unfold renamed
  simp only [filled, Bool.false_eq_true, if_false]
  split_ifs
  · exact .inl rfl
  · right
    rw [String.toList_append, String.toList_append, dot, List.append_assoc, List.singleton_append]
    refine ⟨isName_of_length ?_, List.suffix_append _ _⟩
    rw [List.length_append, List.length_cons]
    omega

theorem isIdle_renamed {extension : String} (some : name.toList ≠ []) (going : extension ≠ "") :
    isIdle (p.renamed name extension).toList = false := by
  rcases renamed_cases (p := p) some going with dots | ⟨shown, -⟩
  · rw [dots]
    rfl
  · exact isIdle_of_isName shown

/-- No slash comes in with an extension that has none. -/
theorem apart_renamed {extension : String} (shown : p.fileName? = some name)
    (noSlash : '/' ∉ extension.toList) :
    ∀ piece ∈ p.spine.dropLast ++ [(p.renamed name extension).toList], ∀ c ∈ piece,
      isSlash c = false := by
  intro piece hp c hc
  rcases List.mem_append.mp hp with front | own
  · exact Text.not_of_mem_pieces piece
      (mem_pieces_of_mem_spine ((List.dropLast_prefix _).subset front)) c hc
  · refine not_slash.mpr ?_
    rintro rfl
    rw [List.mem_singleton.mp own] at hc
    rcases List.mem_append.mp (renamed_subset p name extension hc) with before | ending
    · exact (isEntry_of_fileName? shown).2.2.2 before
    · rcases List.mem_cons.mp ending with dot | ending
      · cases dot
      · exact noSlash ending

/-- The pieces of a text are joined to it again. -/
theorem joinWith_pieces (cs : List Char) : Text.joinWith ['/'] (Text.pieces isSlash cs) = cs := by
  rw [Text.joinWith_eq_intercalate, Text.pieces_eq_splitOnP]
  exact List.intercalate_splitOn '/'

/-- A text ends in the last of its pieces. -/
theorem suffix_of_pieces {cs : List Char} (split : Text.pieces isSlash cs = front ++ [last]) :
    last <:+ cs := by
  rw [← joinWith_pieces cs, split]
  rcases List.eq_nil_or_concat' front with rfl | ⟨before, piece, rfl⟩
  · exact List.suffix_refl last
  · rw [Text.joinWith_concat _ (by simp)]
    exact List.suffix_append _ _

/-- What another extension makes of a name at the end of a path is told by the name alone. -/
theorem renamed_of_pieces (split : Text.pieces isSlash p.text.toList = front ++ [name.toList])
    (extension : String) :
    p.renamed name extension = (⟨name⟩ : Path).renamed name extension := by
  have whole : Text.endsWith p.text name = true :=
    List.isSuffixOf_iff_suffix.mpr (suffix_of_pieces split)
  have own : Text.endsWith name name = true := List.isSuffixOf_iff_suffix.mpr (List.suffix_refl _)
  unfold renamed
  rw [whole, own]

/-- Pieces without slashes are those of the path made from them, but for the root. -/
theorem pieces_ofPieces {pieces : List (List Char)} (some : pieces ≠ []) (other : pieces ≠ [[]])
    (apart : ∀ piece ∈ pieces, ∀ c ∈ piece, isSlash c = false) :
    Text.pieces isSlash (ofPieces pieces).text.toList = pieces := by
  rw [ofPieces, if_neg other, Text.joinWith_eq_intercalate, String.toList_ofList]
  exact Text.pieces_intercalate rfl some apart

theorem pieces_withExtension {extension : String} (shown : p.fileName? = some name)
    (noSlash : '/' ∉ extension.toList) :
    Text.pieces isSlash (p.withExtension extension).text.toList =
      p.spine.dropLast ++ [(p.renamed name extension).toList] := by
  unfold withExtension
  rw [shown]
  apply pieces_ofPieces
  · simp
  · intro same
    have ends := congrArg List.getLast? same
    rw [List.getLast?_concat] at ends
    exact renamed_ne_nil (isEntry_of_fileName? shown).toList_ne_nil extension (Option.some.inj ends)
  · exact apart_renamed shown noSlash

/-- The file name of a path with another extension ends in it. -/
theorem suffix_of_fileName?_withExtension {old extension : String} (shown : p.fileName? = some old)
    (going : extension ≠ "") (noSlash : '/' ∉ extension.toList)
    (found : (p.withExtension extension).fileName? = some name) :
    '.' :: extension.toList <:+ name.toList := by
  have split := pieces_withExtension shown noSlash
  rcases renamed_cases (p := p) (isEntry_of_fileName? shown).toList_ne_nil going with
    dots | ⟨entry, ends⟩
  · rw [dots] at split
    rw [fileName?, spine_of_pieces split rfl, List.getLast?_concat] at found
    cases found
  · rw [fileName?_of_pieces split entry] at found
    rw [← Option.some.inj found, String.toList_ofList]
    exact ends

/-- What is appended ends the file name, unless it goes with a piece that is no component. -/
theorem suffix_of_fileName?_append {tail : String} (noSlash : '/' ∉ tail.toList)
    (some : tail ≠ "") (dot : tail ≠ ".") (shown : (p.append tail).fileName? = .some name) :
    tail.toList <:+ name.toList := by
  obtain ⟨front, last, -, after⟩ := Text.exists_pieces_append p.text.toList
    (p := isSlash) (b := tail.toList) fun c hc => not_slash.mpr fun same => noSlash (same ▸ hc)
  obtain ⟨above, rest, split, -, idle⟩ := pieces_of_fileName? shown
  rw [append, String.toList_append, after] at split
  rcases List.eq_nil_or_concat' rest with rfl | ⟨more, piece, rfl⟩
  · rw [List.append_nil] at split
    rw [← (List.cons.inj (List.append_inj' split rfl).2).1]
    exact List.suffix_append _ _
  · rw [← List.append_assoc] at split
    have same := (List.cons.inj (List.append_inj' split rfl).2).1
    have none := idle piece (by simp)
    rw [← same, isIdle, Bool.or_eq_true, decide_eq_true_iff, decide_eq_true_iff] at none
    rcases none with empty | one
    · exact absurd (String.toList_eq_nil_iff.mp (List.append_eq_nil_iff.mp empty).2) some
    · rcases List.append_eq_singleton_iff.mp one with ⟨-, alone⟩ | ⟨-, empty⟩
      · exact absurd (String.toList_inj.mp alone) dot
      · exact absurd (String.toList_eq_nil_iff.mp empty) some

/-- What stands in front of a joined path is nothing or ends in a slash. -/
theorem lead_cases (root : Path) :
    root.lead = "" ∨ ∃ front, root.lead.toList = front ++ ['/'] := by
  unfold lead
  split
  · rename_i whole
    rcases whole with nothing | slash
    · exact .inl (String.isEmpty_iff.mp nothing)
    · exact .inr (List.getLast?_eq_some_iff.mp slash)
  · exact .inr ⟨root.text.toList, by simp⟩

theorem pieces_of_entry (entry : IsEntry name) : Text.pieces isSlash name.toList = [name.toList] :=
  Text.pieces_of_forall fun _ hc => not_slash.mpr fun same => entry.2.2.2 (same ▸ hc)

theorem fileName?_join {root : Path} (entry : IsEntry name) :
    (root.join ⟨name⟩).fileName? = some name := by
  have split : ∃ front, Text.pieces isSlash (root.join ⟨name⟩).text.toList =
      front ++ [name.toList] := by
    rw [join_entry entry, String.toList_append]
    rcases root.lead_cases with nothing | ⟨front, slash⟩
    · exact ⟨[], by rw [nothing]; exact pieces_of_entry entry⟩
    · refine ⟨Text.pieces isSlash front, ?_⟩
      rw [slash, List.append_assoc, List.singleton_append, Text.pieces_append_cons rfl,
        pieces_of_entry entry]
  obtain ⟨front, split⟩ := split
  have found := fileName?_of_pieces split entry.isName_toList
  rw [String.ofList_toList] at found
  exact found

theorem fileName?_descend {root : Path} {names : List String} (proper : ∀ n ∈ names, IsEntry n)
    (last : names.getLast? = some name) : (root.descend names).fileName? = some name := by
  obtain ⟨front, rfl⟩ := List.getLast?_eq_some_iff.mp last
  rw [descend, List.foldl_append]
  exact fileName?_join (proper name (by simp))

end Path

end Ambient
