import Ambient.Proofs.Rendering.Destinations
import Mathlib.Data.List.Sublists

/-!
# References and copies use one name

A directive takes the name of an output from the path of the output, a copy makes it from the name
of the source. Both make it from the name that the output was given, if there is one. Without one
they agree as far as the ending of generated files comes right behind the name of the source: a path
may go on behind its file name, with slashes and single dots.
-/
namespace Ambient

namespace Path
variable {p : Path} {front after : List (List Char)} {last : List Char}
  {name extension tail : String}

theorem isName_iff : isName last = true ↔ ¬ last.Sublist ['.', '.'] := by
  have all : ['.', '.'].sublists = [[], ['.'], ['.'], ['.', '.']] := rfl
  rw [← List.mem_sublists, all]
  simp [isName, isIdle, and_assoc]

/-- What holds a name is one. -/
theorem isName_of_sublist {more : List Char} (shown : isName last = true)
    (within : last.Sublist more) :
    isName more = true :=
  isName_iff.mpr fun dots => isName_iff.mp shown (within.trans dots)

theorem fileName_of_pieces (split : Text.pieces isSlash p.text.toList = front ++ [last])
    (counts : isIdle last = false) :
    p.fileName = if isName last then String.ofList last else "" := by
  rw [fileName, fileName?, spine_of_pieces split counts, List.getLast?_concat, Option.filter_some]
  split_ifs <;> rfl

theorem rdropWhile_append_of_forall (before : List (List Char)) (counts : isIdle last = false)
    (idle : ∀ piece ∈ after, isIdle piece = true) :
    (before ++ [last] ++ after).rdropWhile isIdle = before ++ [last] := by
  rw [List.rdropWhile, List.reverse_append,
    List.dropWhile_append_of_pos fun piece hp => idle piece (List.mem_reverse.mp hp)]
  exact List.rdropWhile_concat_neg isIdle before last (by simp [counts])

/-- Idle pieces at the end are no part of the spine. -/
theorem spine_of_pieces_append
    (split : Text.pieces isSlash p.text.toList = front ++ [last] ++ after)
    (counts : isIdle last = false) (idle : ∀ piece ∈ after, isIdle piece = true) :
    p.spine = front ++ [last] := by
  unfold Path.spine
  rw [split]
  cases front with
  | nil =>
    have none : Text.dropEndWhile isIdle after = [] := List.rdropWhile_eq_nil_iff.mpr idle
    simp only [List.nil_append, List.singleton_append, none]
  | cons first more => exact congrArg (first :: ·) (rdropWhile_append_of_forall more counts idle)

/-- If a text ends in the file name, this is its last piece. -/
theorem exists_pieces_of_endsWith (shown : p.fileName? = some name)
    (ends : Text.endsWith p.text name = true) :
    ∃ front, Text.pieces isSlash p.text.toList = front ++ [name.toList] := by
  obtain ⟨front, after, split, isName, idle⟩ := pieces_of_fileName? shown
  rcases List.eq_nil_or_concat' after with rfl | ⟨more, piece, rfl⟩
  · exact ⟨front, split.trans (List.append_nil _)⟩
  · -- the last piece would be idle, and it ends in the name
    obtain ⟨lead, whole⟩ := List.isSuffixOf_iff_suffix.mp ends
    have plain : ∀ c ∈ name.toList, isSlash c = false := fun c hc =>
      not_slash.mpr fun same => (isEntry_of_fileName? shown).2.2.2 (same ▸ hc)
    obtain ⟨before, last, -, ending⟩ := Text.exists_pieces_append lead plain
    rw [whole, split, ← List.append_assoc] at ending
    have same := (List.cons.inj (List.append_inj' ending rfl).2).1
    have none :=
      isIdle_of_isName (isName_of_sublist isName (List.sublist_append_right last name.toList))
    rw [← same, idle piece (by simp)] at none
    cases none

/-- What is appended to a path that ends in its file name is the end of the name. -/
theorem fileName_append (shown : p.fileName? = some name) (ends : Text.endsWith p.text name = true)
    (plain : '/' ∉ tail.toList) : (p.append tail).fileName = name ++ tail := by
  obtain ⟨front, split⟩ := exists_pieces_of_endsWith shown ends
  obtain ⟨before, last, own, longer⟩ := Text.exists_pieces_append p.text.toList
    fun c hc => not_slash.mpr fun same => plain (same ▸ hc)
  rw [split] at own
  obtain ⟨rfl, same⟩ := List.append_inj' own rfl
  obtain rfl := (List.cons.inj same).1
  have named := isName_of_sublist (isEntry_of_fileName? shown).isName_toList
    (List.sublist_append_left name.toList tail.toList)
  rw [fileName, fileName?_of_pieces (by rw [append, String.toList_append]; exact longer) named]
  rw [Option.getD_some, ← String.toList_append, String.ofList_toList]

/-- Behind anything else it is not. -/
theorem fileName_append_ne (shown : p.fileName? = some name)
    (ends : Text.endsWith p.text name = false) (plain : '/' ∉ tail.toList) (some : tail ≠ "") :
    (p.append tail).fileName ≠ name ++ tail := by
  obtain ⟨front, after, split, named, idle⟩ := pieces_of_fileName? shown
  rcases List.eq_nil_or_concat' after with rfl | ⟨more, piece, rfl⟩
  · rw [List.append_nil] at split
    have whole : Text.endsWith p.text name = true :=
      List.isSuffixOf_iff_suffix.mpr (suffix_of_pieces split)
    rw [ends] at whole
    cases whole
  obtain ⟨before, last, own, longer⟩ := Text.exists_pieces_append p.text.toList
    fun c hc => not_slash.mpr fun same => plain (same ▸ hc)
  rw [split, ← List.append_assoc] at own
  obtain ⟨rfl, same⟩ := List.append_inj' own rfl
  obtain rfl := (List.cons.inj same).1
  have spelled : Text.pieces isSlash (p.append tail).text.toList =
      front ++ [name.toList] ++ more ++ [piece ++ tail.toList] := by
    rw [append, String.toList_append, longer]
  cases counts : isIdle (piece ++ tail.toList) with
  | true =>
    -- the name is still the last
    have spine : (p.append tail).spine = front ++ [name.toList] := by
      refine spine_of_pieces_append (spelled.trans (List.append_assoc _ _ _))
        (isIdle_of_isName named) ?_
      intro x hx
      rcases List.mem_append.mp hx with inner | ending
      · exact idle x (List.mem_append_left _ inner)
      · rwa [List.mem_singleton.mp ending]
    rw [fileName, fileName?, spine, List.getLast?_concat, Option.filter_some, if_pos named,
      Option.map_some, Option.getD_some, String.ofList_toList]
    intro same
    have texts := congrArg String.toList same
    rw [String.toList_append] at texts
    exact some (String.toList_eq_nil_iff.mp (List.self_eq_append_right.mp texts))
  | false =>
    rw [fileName_of_pieces spelled counts]
    intro same
    split_ifs at same
    · have texts := congrArg String.toList same
      rw [String.toList_ofList, String.toList_append] at texts
      have whole := List.append_cancel_right texts
      rw [← whole, isName, idle piece (by simp)] at named
      cases named
    · exact (isEntry_of_fileName? shown).1 (String.append_eq_empty_iff.mp same.symm).1

theorem fileName_append_eq_iff (shown : p.fileName? = some name) (plain : '/' ∉ tail.toList) :
    (p.append tail).fileName = name ++ tail ↔ Text.endsWith p.text name = true ∨ tail = "" := by
  cases ends : Text.endsWith p.text name with
  | true => simp [fileName_append shown ends plain]
  | false =>
    by_cases none : tail = ""
    · simp [none, append, fileName, shown]
    · simpa [none] using fileName_append_ne shown ends plain none

/-- The file name of a path with another extension, unless this leaves a single dot. -/
theorem fileName_withExtension (shown : p.fileName? = some name) (plain : '/' ∉ extension.toList)
    (counts : isIdle (p.renamed name extension).toList = false) :
    (p.withExtension extension).fileName =
      if isName (p.renamed name extension).toList then p.renamed name extension else "" := by
  rw [fileName_of_pieces (pieces_withExtension shown plain) counts, String.ofList_toList]

theorem endsWith_self (name : String) : Text.endsWith name name = true :=
  List.isSuffixOf_iff_suffix.mpr (List.suffix_refl _)

theorem fileName?_of_entry (entry : IsEntry name) : (⟨name⟩ : Path).fileName? = some name := by
  have split : Text.pieces isSlash (⟨name⟩ : Path).text.toList = [] ++ [name.toList] :=
    pieces_of_entry entry
  rw [fileName?_of_pieces split entry.isName_toList, String.ofList_toList]

/-- If the text goes on behind a name, the old extension is not cut off before it is replaced. -/
theorem renamed_eq_self (h : Text.endsWith p.text name = true ∨ (splitName name).1 ≠ ".") :
    p.renamed name extension = (⟨name⟩ : Path).renamed name extension := by
  unfold renamed
  rcases h with ends | other
  · rw [ends, endsWith_self]
  · simp only [beq_eq_false_iff_ne.mpr other, Bool.false_and]

theorem renamed_self_of_dot (dot : (splitName name).1 = ".") :
    (⟨name⟩ : Path).renamed name extension = ".." := by
  unfold renamed
  rw [dot, endsWith_self]
  rfl

theorem renamed_of_dot (dot : (splitName name).1 = ".") (ends : Text.endsWith p.text name = false) :
    p.renamed name extension = if extension = "" then "." else "." ++ "." ++ extension := by
  unfold renamed
  rw [dot, ends]
  simp only [Bool.and_false, Bool.false_eq_true, if_false, String.isEmpty_iff]

/-- A name by itself does not become a single dot. -/
theorem isIdle_renamed_self (entry : IsEntry name) (extension : String) :
    isIdle ((⟨name⟩ : Path).renamed name extension).toList = false := by
  by_cases dot : (splitName name).1 = "."
  · rw [renamed_self_of_dot dot]
    rfl
  · by_cases going : extension = ""
    · have kept : (⟨name⟩ : Path).renamed name extension = (splitName name).1 := by
        simp [renamed, dot, going]
      have one : (splitName name).1.toList ≠ ['.'] := fun same => dot (String.toList_inj.mp same)
      rw [kept, isIdle, decide_eq_false (stem_ne_nil entry.toList_ne_nil), decide_eq_false one]
      rfl
    · exact isIdle_renamed entry.toList_ne_nil going

/-- A single dot that is left at the end is no name: the one in front of it is the last. -/
theorem fileName_withExtension_of_dot (absolute : p.isAbsolute = true)
    (shown : p.fileName? = some name)
    (dot : p.renamed name "" = ".") : (p.withExtension "").fileName = p.parent.fileName := by
  obtain ⟨more, spine, some⟩ := exists_spine absolute shown
  obtain ⟨front, last, rfl⟩ := List.eq_nil_or_concat' more |>.resolve_left some
  have plain : '/' ∉ "".toList := by simp
  have split := pieces_withExtension shown plain
  have apart : ∀ piece ∈ [] :: front.rdropWhile isIdle, ∀ c ∈ piece, isSlash c = false := by
    intro piece hp
    have member : piece ∈ p.spine := by
      rw [spine]
      rcases List.mem_cons.mp hp with rfl | inner
      · exact List.mem_cons_self
      · exact List.mem_cons_of_mem _
          (List.mem_append_left _ ((front.rdropWhile_prefix isIdle).subset inner))
    exact Text.not_of_mem_pieces piece (mem_pieces_of_mem_spine member)
  rw [spine, ← List.cons_append, List.dropLast_concat, dot] at split
  have one : (p.withExtension "").spine = [] :: front.rdropWhile isIdle := by
    unfold Path.spine
    rw [split]
    exact congrArg ([] :: ·) (List.rdropWhile_concat_pos isIdle front ['.'] rfl)
  have two : p.parent.spine = [] :: front.rdropWhile isIdle := by
    rw [← List.cons_append] at spine
    rw [parent_of_spine spine]
    by_cases root : front.rdropWhile isIdle = []
    · rw [root]
      rfl
    · unfold Path.spine
      rw [pieces_ofPieces (by simp) (by simpa using root) apart]
      exact congrArg ([] :: ·) (List.rdropWhile_idempotent isIdle front)
  rw [fileName, fileName, fileName?, fileName?, one, two]

theorem fileName_withExtension_eq_iff (absolute : p.isAbsolute = true)
    (shown : p.fileName? = some name) (plain : '/' ∉ extension.toList) :
    (p.withExtension extension).fileName =
      ((⟨name⟩ : Path).withExtension extension).fileName ↔
      Text.endsWith p.text name = true ∨ (splitName name).1 ≠ "." ∨
        extension = "" ∧ p.parent.fileName = "" := by
  have entry := isEntry_of_fileName? shown
  have counts := isIdle_renamed_self entry extension
  rw [fileName_withExtension (fileName?_of_entry entry) plain counts]
  by_cases cut : Text.endsWith p.text name = true ∨ (splitName name).1 ≠ "."
  · have renamed : p.renamed name extension = _ := renamed_eq_self cut
    rw [fileName_withExtension shown plain (renamed ▸ counts), renamed, ← or_assoc]
    exact iff_of_true rfl (.inl cut)
  · have going : Text.endsWith p.text name = false :=
      eq_false_of_ne_true fun ends => cut (.inl ends)
    have dot : (splitName name).1 = "." := by_contra fun other => cut (.inr other)
    have whole := @renamed_of_dot p name extension dot going
    have none : isName "..".toList = false := rfl
    rw [renamed_self_of_dot dot, none, if_neg Bool.false_ne_true]
    simp only [going, dot, Bool.false_eq_true, ne_eq, not_true_eq_false, false_or]
    by_cases bare : extension = ""
    · subst bare
      rw [fileName_withExtension_of_dot absolute shown whole]
      exact (and_iff_right rfl).symm
    · rw [if_neg bare] at whole
      have named : isName (p.renamed name extension).toList = true := by
        rcases renamed_cases (p := p) entry.toList_ne_nil bare with dots | ⟨named, -⟩
        · rw [whole] at dots
          exact absurd (String.append_eq_left_iff.mp dots) bare
        · exact named
      rw [fileName_withExtension shown plain (isIdle_of_isName named), if_pos named]
      refine iff_of_false (fun none => ?_) fun both => bare both.1
      exact renamed_ne_nil entry.toList_ne_nil extension (String.toList_eq_nil_iff.mpr none)

end Path

namespace OutputNaming
variable {n : OutputNaming} {source : Path} {name : String}

/-- The ending of generated files comes right behind the name of the source. -/
def Reaches (n : OutputNaming) (source : Path) : Prop :=
  Text.endsWith source.text source.fileName = true ∨
    if n.keepExtension then n.extension = ""
    else (Path.splitName source.fileName).1 ≠ "." ∨ n.bareExtension = "" ∧
      source.parent.fileName = ""

theorem outputFileName_eq_iff (absolute : source.isAbsolute = true)
    (shown : source.fileName? = some name) (plain : '/' ∉ n.extension.toList) :
    n.outputFileName source = n.outputFileName ⟨source.fileName⟩ ↔ n.Reaches source := by
  have same : source.fileName = name := by rw [Path.fileName, shown, Option.getD_some]
  have alone := Path.fileName?_of_entry (Path.isEntry_of_fileName? shown)
  unfold outputFileName outputPath Reaches
  rw [same]
  cases n.keepExtension with
  | true =>
    simp only [if_true]
    rw [Path.fileName_append alone (Path.endsWith_self name) plain]
    exact Path.fileName_append_eq_iff shown plain
  | false =>
    have bare : '/' ∉ n.bareExtension.toList := by
      rw [bareExtension, String.toList_ofList]
      exact fun slash => plain ((List.dropWhile_suffix _).subset slash)
    simp only [Bool.false_eq_true, if_false]
    exact Path.fileName_withExtension_eq_iff absolute shown bare

end OutputNaming

namespace Directive
variable {naming : OutputNaming} {sidecarOf : Path → Option Sidecar} {dir output source : Path}

/-- The file name at the end of a directive's path. -/
def lastName (path : String) : String := String.ofList (Text.lastPiece Path.isSlash path.toList)

/-- The file name that directives to an output show. -/
def shownName (naming : OutputNaming) (sidecarOf : Path → Option Sidecar)
    (output : Path) : String :=
  match (sidecarOf output).bind Sidecar.givenName with
  | some name => naming.outputFileName ⟨name⟩
  | none => output.fileName

theorem lastName_of_plain {name : String} (plain : '/' ∉ name.toList) : lastName name = name := by
  have all : ∀ c ∈ name.toList, Path.isSlash c = false := fun c hc =>
    Path.not_slash.mpr fun same => plain (same ▸ hc)
  rw [lastName, Text.lastPiece_of_forall all, String.ofList_toList]

theorem lastName_append_slash (way : String) {name : String} (plain : '/' ∉ name.toList) :
    lastName (way ++ "/" ++ name) = name := by
  have slash : "/".toList = ['/'] := rfl
  have last : lastName (way ++ "/" ++ name) = lastName name := by
    unfold lastName
    rw [String.toList_append, String.toList_append, slash, List.append_assoc, List.singleton_append,
      Text.lastPiece_append_cons rfl]
  rw [last, lastName_of_plain plain]

theorem lastName_pathTo (naming : OutputNaming) (sidecarOf : Path → Option Sidecar)
    (dir output : Path) :
    lastName (pathTo naming sidecarOf dir output) = shownName naming sidecarOf output := by
  have plain : '/' ∉ (shownName naming sidecarOf output).toList := by
    unfold shownName
    split <;> exact Path.slash_notMem_fileName _
  have whole : pathTo naming sidecarOf dir output =
      match dir.relativeDir output.parent with
      | some way => if way.isEmpty then shownName naming sidecarOf output
          else way ++ "/" ++ shownName naming sidecarOf output
      | none => shownName naming sidecarOf output := rfl
  rw [whole]
  split
  · split_ifs
    · exact lastName_of_plain plain
    · exact lastName_append_slash _ plain
  · exact lastName_of_plain plain

/-- The name in a directive to the output of a source is the one that copies use if it is given, and
else exactly if the ending of generated files comes right behind the name of the source. -/
theorem lastName_eq_copyFileName_iff (naming : OutputNaming) (ordinary : source.IsOrdinary)
    (plain : '/' ∉ naming.extension.toList) (sidecarOf : Path → Option Sidecar) (dir : Path) :
    let sidecar := (sidecarOf (naming.outputPath source)).getD .empty
    lastName (pathTo naming sidecarOf dir (naming.outputPath source)) =
      naming.copyFileName source sidecar ↔
      sidecar.givenName.isSome = true ∨ naming.Reaches source := by
  obtain ⟨names, some, follows⟩ := ordinary
  have shown : ∃ name, source.fileName? = .some name := by
    obtain ⟨above, name, rfl⟩ := List.eq_nil_or_concat' names |>.resolve_left some
    rw [Path.Follows, List.map_append] at follows
    exact ⟨name, Path.fileName?_of_components follows⟩
  obtain ⟨name, shown⟩ := shown
  have unnamed :=
    OutputNaming.outputFileName_eq_iff (Path.isAbsolute_of_components follows) shown plain
  have stored : ((sidecarOf (naming.outputPath source)).getD .empty).givenName =
      (sidecarOf (naming.outputPath source)).bind Sidecar.givenName := by
    cases sidecarOf (naming.outputPath source) <;> rfl
  intro sidecar
  rw [lastName_pathTo, shownName, OutputNaming.copyFileName, stored]
  cases given : (sidecarOf (naming.outputPath source)).bind Sidecar.givenName with
  | some given => exact iff_of_true rfl (.inl rfl)
  | none => exact unnamed.trans (by simp)

/-- A file with dots in a row and one in front, under an ending with two. -/
theorem lastName_of_dots :
    lastName (pathTo ⟨false, "..d.ts"⟩ (fun _ => none) ⟨"/p/q"⟩
        (OutputNaming.outputPath ⟨false, "..d.ts"⟩ ⟨"/p//.a..cs"⟩)) =
      OutputNaming.copyFileName ⟨false, "..d.ts"⟩ ⟨"/p//.a..cs"⟩ .empty ∧
    OutputNaming.copyFileName ⟨false, "..d.ts"⟩ ⟨"/p//.a..cs"⟩ .empty = ".a..d.ts" :=
  ⟨(lastName_eq_copyFileName_iff ⟨false, "..d.ts"⟩
    ⟨["p", ".a..cs"], by decide, by decide⟩ (by decide)
    (fun _ => none) ⟨"/p/q"⟩).mpr (.inr (.inl (by decide))), by decide⟩

/-- A slash behind the source comes between its name and the ending. -/
theorem lastName_ne_copyFileName_of_slash :
    (⟨"/p/a.cs/"⟩ : Path).IsOrdinary ∧ '/' ∉ ".d.ts".toList ∧
    lastName (pathTo ⟨true, ".d.ts"⟩ (fun _ => none) ⟨"/p"⟩
      (OutputNaming.outputPath ⟨true, ".d.ts"⟩ ⟨"/p/a.cs/"⟩)) = ".d.ts" ∧
    OutputNaming.copyFileName ⟨true, ".d.ts"⟩ ⟨"/p/a.cs/"⟩ .empty = "a.cs.d.ts" :=
  ⟨⟨["p", "a.cs"], by decide, by decide⟩, by decide, by decide, by decide⟩

end Directive

end Ambient
