import Ambient.Proofs.Files.Discovery

/-!
# Canonical paths

The canonical path of a place spells the names that lead to it. Its parents are the canonical paths
of the directories above, and where it leads is that place or nowhere, which the names alone decide.
-/
namespace Ambient

namespace FileTree

theorem pairwise_entries {es : List (String × FileTree)} (wf : WellFormedIn es) :
    es.Pairwise fun d e => d.1 < e.1 := by
  induction es with
  | nil => exact .nil
  | cons e more ih =>
    obtain ⟨n, t⟩ := e
    exact .cons wf.2.1 (ih wf.2.2.2)

/-- Something with a name is in a directory. -/
theorem dirAt_of_isSome {t : FileTree} {q : List String} {name : String}
    (there : (t.find? (q ++ [name])).isSome = true) : t.dirAt q = true := by
  rw [find?_append] at there
  cases here : t.find? q with
  | none => rw [here] at there; cases there
  | some c =>
    cases c with
    | file text => rw [here] at there; cases there
    | dir es => exact dirAt_of_find? here

end FileTree

namespace FileSystem
variable {fs fs₁ : FileSystem} {place q names : List String} {p r : Path}

theorem toList_pathOf (q : List String) :
    (pathOf q).text.toList = '/' :: ("/".intercalate q).toList := by
  rw [pathOf, String.toList_append]
  rfl

theorem pieces_pathOf (proper : ∀ n ∈ q, Path.IsEntry n) (some : q ≠ []) :
    Text.pieces Path.isSlash (pathOf q).text.toList = [] :: q.map String.toList := by
  have slash : Path.isSlash '/' = true := rfl
  rw [toList_pathOf, Text.pieces, if_pos slash, Path.pieces_intercalate_entries proper some]

theorem spine_pathOf (proper : ∀ n ∈ q, Path.IsEntry n) :
    (pathOf q).spine = [] :: q.map String.toList := by
  rcases List.eq_nil_or_concat' q with rfl | ⟨front, last, rfl⟩
  · rfl
  · have entry : Path.IsEntry last := proper last (by simp)
    have split := pieces_pathOf proper (by simp)
    rw [List.map_append, List.map_singleton, ← List.cons_append] at split ⊢
    exact Path.spine_of_pieces split (Path.isIdle_of_isName entry.isName_toList)

theorem components_pathOf (proper : ∀ n ∈ q, Path.IsEntry n) :
    (pathOf q).components = .root :: q.map .normal := by
  by_cases some : q = []
  · subst some
    rfl
  · have shown : ∀ piece ∈ q.map String.toList, Path.isIdle piece = false := by
      intro piece hp
      obtain ⟨n, hn, rfl⟩ := List.mem_map.mp hp
      exact (proper n hn).isIdle_toList
    rw [Path.components, pieces_pathOf proper some, Path.componentsOf, if_pos rfl,
      if_neg (by simpa using some), Path.filter_shown shown, Path.map_ofPiece_entries proper]

/-- Canonical paths with the same components are the same text. -/
theorem pathOf_eq_of_same (proper : ∀ n ∈ q, Path.IsEntry n)
    (proper' : ∀ n ∈ names, Path.IsEntry n) (same : (pathOf q).same (pathOf names) = true) :
    pathOf q = pathOf names := by
  rw [Path.same, beq_iff_eq, components_pathOf proper, components_pathOf proper'] at same
  have inner := (List.cons.inj same).2
  rw [List.map_inj_right fun a b h => Path.Component.normal.inj h] at inner
  rw [inner]

theorem ofPieces_names (q : List String) :
    Path.ofPieces ([] :: q.map String.toList) = pathOf q := by
  cases q with
  | nil => rfl
  | cons n more =>
    have slash : "/".toList = ['/'] := rfl
    rw [Path.ofPieces, if_neg (by simp), Text.joinWith_eq_intercalate, List.map_cons,
      List.intercalate_cons_cons, ← List.map_cons, ← slash, ← String.toList_intercalate,
      List.nil_append, ← String.toList_append, String.ofList_toList]
    rfl

theorem dropEndWhile_names (proper : ∀ n ∈ q, Path.IsEntry n) :
    Text.dropEndWhile Path.isIdle (q.map String.toList) = q.map String.toList := by
  rcases List.eq_nil_or_concat' q with rfl | ⟨front, last, rfl⟩
  · rfl
  · have entry : Path.IsEntry last := proper last (by simp)
    rw [List.map_append, List.map_singleton]
    exact List.rdropWhile_concat_neg _ _ _ (by simp [entry.isIdle_toList])

theorem parent?_pathOf (proper : ∀ n ∈ q, Path.IsEntry n) :
    (pathOf q).parent? = if q = [] then none else some (pathOf q.dropLast) := by
  unfold Path.parent?
  rw [spine_pathOf proper]
  cases q with
  | nil => rfl
  | cons n more =>
    have above : ∀ m ∈ (n :: more).dropLast, Path.IsEntry m := fun m hm =>
      proper m (List.dropLast_subset _ hm)
    rw [List.map_cons, if_neg (List.cons_ne_nil n more)]
    simp only
    rw [← List.map_cons, ← List.map_dropLast, dropEndWhile_names above, ofPieces_names]

/-- Above a place there are the directories that its path leads through. -/
theorem exists_of_mem_ancestors (proper : ∀ n ∈ q, Path.IsEntry n)
    (h : p ∈ (pathOf q).ancestors) :
    ∃ above, above <+: q ∧ p = pathOf above := by
  unfold Path.ancestors at h
  generalize (pathOf q).spine.length = fuel at h
  induction fuel generalizing q with
  | zero => exact ⟨q, List.prefix_rfl, List.mem_singleton.mp h⟩
  | succ fuel ih =>
    rw [Path.ancestorsWithin, parent?_pathOf proper] at h
    by_cases top : q = []
    · rw [if_pos top] at h
      exact ⟨q, List.prefix_rfl, List.mem_singleton.mp h⟩
    · rw [if_neg top] at h
      rcases List.mem_cons.mp h with rfl | later
      · exact ⟨q, List.prefix_rfl, rfl⟩
      · obtain ⟨above, front, shown⟩ :=
          ih (fun n hn => proper n (List.dropLast_subset _ hn)) later
        exact ⟨above, front.trans (List.dropLast_prefix q), shown⟩

/-- The names can be entered one after another, as far as they decide it. -/
def Fits (q : List String) : Prop :=
  '\x00' ∉ (pathOf q).text.toList ∧ ∀ n ∈ q, n.utf8ByteSize ≤ maxNameBytes

theorem walk_names (proper : ∀ n ∈ names, Path.IsEntry n) (ok : fs.walk place names = .ok q) :
    q = place ++ names ∧ ∀ n ∈ names, n.utf8ByteSize ≤ maxNameBytes := by
  induction names generalizing place with
  | nil =>
    cases ok
    exact ⟨(List.append_nil _).symm, nofun⟩
  | cons n more ih =>
    have entry := proper n List.mem_cons_self
    rw [walk] at ok
    cases step : fs.enter place n with
    | error trouble => rw [step] at ok; cases ok
    | ok d =>
      rw [step, ok_bind] at ok
      obtain ⟨rfl, rest⟩ := ih (fun m hm => proper m (List.mem_cons_of_mem n hm)) ok
      rw [enter_of_dir (dirAt_of_enter step), if_neg (by simp [entry.1, entry.2.1]),
        if_neg entry.2.2.1] at step
      split at step
      · cases step
      · rename_i short
        split at step
        · cases step
          refine ⟨by simp, ?_⟩
          rw [List.forall_mem_cons]
          exact ⟨Nat.le_of_not_lt short, rest⟩
        · cases step

/-- Where there is something at the end, there are directories on the way. -/
theorem walk_of_find? (proper : ∀ n ∈ names, Path.IsEntry n)
    (short : ∀ n ∈ names, n.utf8ByteSize ≤ maxNameBytes)
    (there : (fs.tree.find? (place ++ names)).isSome = true) :
    fs.walk place names = .ok (place ++ names) := by
  induction names generalizing place with
  | nil => rw [walk, List.append_nil]
  | cons n more ih =>
    have entry := proper n List.mem_cons_self
    have whole : place ++ n :: more = (place ++ [n]) ++ more := by simp
    have next : (fs.tree.find? (place ++ [n])).isSome = true := by
      rw [whole, FileTree.find?_append] at there
      cases here : fs.tree.find? (place ++ [n]) with
      | none => rw [here] at there; cases there
      | some c => rfl
    have step : fs.enter place n = .ok (place ++ [n]) := by
      rw [enter_of_dir (FileTree.dirAt_of_isSome next), if_neg (by simp [entry.1, entry.2.1]),
        if_neg entry.2.2.1,
        if_neg (Nat.not_lt.mpr (short n List.mem_cons_self)), if_pos next]
    rw [whole] at there ⊢
    rw [walk, step, ok_bind]
    exact ih (fun m hm => proper m (List.mem_cons_of_mem n hm))
      (fun m hm => short m (List.mem_cons_of_mem n hm)) there

theorem walk_names_iff (proper : ∀ n ∈ q, Path.IsEntry n)
    (there : (fs.tree.find? q).isSome = true) :
    fs.walk [] q = .ok place ↔ place = q ∧ ∀ n ∈ q, n.utf8ByteSize ≤ maxNameBytes := by
  constructor
  · exact walk_names proper
  · rintro ⟨rfl, short⟩
    exact walk_of_find? proper short there

/-- In the root the name that is empty leads nowhere else. -/
theorem walk_top (top : fs.tree.dirAt [] = true) : fs.walk [] ("" :: names) = fs.walk [] names := by
  have first : fs.enter [] "" = .ok [] := by
    rw [enter_of_dir top]
    rfl
  rw [walk, first, ok_bind]

theorem start_pathOf (proper : ∀ n ∈ q, Path.IsEntry n) :
    fs.start (pathOf q) = if '\x00' ∈ (pathOf q).text.toList then .error .nulInName
      else .ok ([], "" :: if q = [] then [""] else q) := by
  have some : (pathOf q).text.isEmpty = false := by
    rw [← Bool.not_eq_true, String.isEmpty_iff, ← String.toList_eq_nil_iff, toList_pathOf]
    exact List.cons_ne_nil _ _
  have absolute : (pathOf q).isAbsolute = true := by
    rw [Path.isAbsolute, toList_pathOf]
    rfl
  have pieces : (Text.pieces Path.isSlash (pathOf q).text.toList).map String.ofList =
      "" :: if q = [] then [""] else q := by
    by_cases none : q = []
    · subst none
      rfl
    · rw [pieces_pathOf proper none, if_neg none, List.map_cons, List.map_map]
      simp
  unfold start
  rw [some, absolute, pieces]
  simp only [List.contains_iff_mem, Bool.false_eq_true, if_false, if_true]

/-- The canonical path of something leads to it, if its names can be entered, and else nowhere. -/
theorem resolve_pathOf_iff (proper : ∀ n ∈ q, Path.IsEntry n)
    (there : (fs.tree.find? q).isSome = true) :
    fs.resolve (pathOf q) = .ok place ↔ place = q ∧ Fits q ∧ fs.tree.dirAt [] = true := by
  unfold resolve Fits
  rw [start_pathOf proper]
  by_cases nul : '\x00' ∈ (pathOf q).text.toList
  · rw [if_pos nul]
    constructor
    · intro ok
      cases ok
    · rintro ⟨-, ⟨plain, -⟩, -⟩
      exact absurd nul plain
  rw [if_neg nul, ok_bind]
  show fs.walk [] ("" :: if q = [] then [""] else q) = .ok place ↔ _
  by_cases top : fs.tree.dirAt [] = true
  · have again : fs.walk [] (if q = [] then [""] else q) = fs.walk [] q := by
      split
      · rename_i none
        rw [none, walk_top top]
      · rfl
    rw [walk_top top, again, walk_names_iff proper there]
    simp only [nul, top, not_false_eq_true, true_and, and_true]
  · constructor
    · intro ok
      rw [walk] at ok
      cases step : fs.enter [] "" with
      | error trouble => rw [step] at ok; cases ok
      | ok d => exact absurd (dirAt_of_enter step) top
    · exact fun h => absurd h.2.2 top

theorem toOption_read_resolve (fs : FileSystem) (p : Path) :
    (fs.read p).toOption = (fs.resolve p).toOption.bind fs.tree.textAt := by
  cases resolved : fs.resolve p with
  | error trouble =>
    rw [read, resolved]
    rfl
  | ok place => exact toOption_read_of_resolve resolved

/-- A canonical path is that of something. -/
theorem exists_of_canonical (h : fs.canonical p = .ok r) :
    ∃ place, fs.resolve p = .ok place ∧ r = pathOf place ∧
      (fs.tree.find? place).isSome = true := by
  unfold canonical at h
  cases resolved : fs.resolve p with
  | error trouble => rw [resolved] at h; cases h
  | ok place =>
    rw [resolved] at h
    cases h
    exact ⟨place, rfl, rfl, isSome_of_resolve resolved⟩

theorem isEntry_of_isSome (wf : fs.tree.WellFormed) (there : (fs.tree.find? q).isSome = true) :
    ∀ n ∈ q, Path.IsEntry n := by
  obtain ⟨c, found⟩ := Option.isSome_iff_exists.mp there
  exact FileTree.isEntry_of_find? wf found

theorem isSome_of_front {above : List String} (front : above <+: q)
    (there : (fs.tree.find? q).isSome = true) : (fs.tree.find? above).isSome = true := by
  obtain ⟨below, rfl⟩ := front
  rw [FileTree.find?_append] at there
  cases here : fs.tree.find? above with
  | none => rw [here] at there; cases there
  | some c => rfl

namespace Rewritten
variable {Q : String → Prop}

theorem isSome_find? (h : Rewritten Q fs fs₁) (there : (fs.tree.find? q).isSome = true) :
    (fs₁.tree.find? q).isSome = true := by
  rw [FileTree.isSome_find?, Bool.or_eq_true] at there ⊢
  rw [h.dirs]
  exact there.imp_right (h.kept q)

/-- A canonical path leads where it led. -/
theorem resolve_pathOf (h : Rewritten Q fs fs₁) (wf : fs.tree.WellFormed)
    (there : (fs.tree.find? q).isSome = true) :
    (fs₁.resolve (pathOf q)).toOption = (fs.resolve (pathOf q)).toOption := by
  have proper := isEntry_of_isSome wf there
  ext place
  rw [toOption_eq_some_iff, toOption_eq_some_iff, resolve_pathOf_iff proper (h.isSome_find? there),
    resolve_pathOf_iff proper there, h.dirs]

/-- A path leads where it led if no other text is read from it. -/
theorem resolve_of_read (h : Rewritten Q fs fs₁)
    (same : (fs₁.read p).toOption = (fs.read p).toOption) :
    (fs₁.resolve p).toOption = (fs.resolve p).toOption := by
  cases before : fs.resolve p with
  | ok place => rw [h.resolve before]
  | error trouble =>
    cases after : fs₁.resolve p with
    | error trouble => rfl
    | ok place =>
      cases dir : fs₁.tree.dirAt place with
      | true =>
        rw [h.resolve_of_dir after dir] at before
        cases before
      | false =>
        have there := isSome_of_resolve after
        rw [FileTree.isSome_find?, dir, Bool.false_or] at there
        rw [toOption_read_of_resolve after, toOption_read_resolve, before] at same
        rw [same] at there
        cases there

theorem canonical_of_resolve (same : (fs₁.resolve p).toOption = (fs.resolve p).toOption) :
    (fs₁.canonical p).toOption = (fs.canonical p).toOption := by
  unfold FileSystem.canonical
  cases after : fs₁.resolve p <;> cases before : fs.resolve p <;> rw [after, before] at same
  · rfl
  · cases same
  · cases same
  · cases same
    rfl

theorem isDir (h : Rewritten Q fs fs₁) (p : Path) : fs₁.isDir p = fs.isDir p := by
  unfold FileSystem.isDir
  rw [node?_eq, node?_eq]
  cases before : fs.resolve p with
  | ok place =>
    rw [h.resolve before]
    exact congrFun h.dirs place
  | error trouble =>
    cases after : fs₁.resolve p with
    | error trouble => rfl
    | ok place =>
      show fs₁.tree.dirAt place = false
      by_contra dir
      rw [h.resolve_of_dir after (eq_true_of_ne_false dir)] at before
      cases before

end Rewritten

theorem names_of_resolve (h : fs.resolve p = .ok place) :
    fs.names p = ((fs.tree.find? place).map fun t => t.entries.map (·.1)).getD [] := by
  rw [names, node?_eq, h]
  rfl

theorem names_of_error {trouble : FileTrouble} (h : fs.resolve p = .error trouble) :
    fs.names p = [] := by
  rw [names, node?_eq, h]
  rfl

theorem mem_names_of_resolve (h : fs.resolve p = .ok place) {n : String} :
    n ∈ fs.names p ↔ (fs.tree.find? (place ++ [n])).isSome = true := by
  rw [names_of_resolve h]
  cases found : fs.tree.find? place with
  | none =>
    rw [FileTree.find?_append, found]
    simp
  | some t =>
    rw [FileTree.find?_concat found, FileTree.child?, Option.isSome_map, List.find?_isSome]
    simp only [Option.map_some, Option.getD_some, List.mem_map, beq_iff_eq]

theorem pairwise_names (wf : fs.tree.WellFormed) (p : Path) : (fs.names p).Pairwise (· < ·) := by
  cases resolved : fs.resolve p with
  | error trouble =>
    rw [names_of_error resolved]
    exact .nil
  | ok place =>
    rw [names_of_resolve resolved]
    cases found : fs.tree.find? place with
    | none => exact .nil
    | some t =>
      have sub := FileTree.wellFormed_of_find? wf found
      rw [Option.map_some, Option.getD_some, List.pairwise_map]
      cases t with
      | file text => exact .nil
      | dir es =>
        exact FileTree.pairwise_entries sub

namespace Rewritten
variable {Q : String → Prop}

/-- Names that are none of those written stay in a directory, and no others of them come. -/
theorem mem_names (h : Rewritten Q fs fs₁) {n : String} (other : ¬ Q n) :
    n ∈ fs₁.names p ↔ n ∈ fs.names p := by
  have entries : ∀ place, (fs₁.tree.find? (place ++ [n])).isSome =
      (fs.tree.find? (place ++ [n])).isSome := by
    intro place
    rw [FileTree.isSome_find?, FileTree.isSome_find?, h.dirs, h.texts]
    intro m last
    rw [List.getLast?_concat] at last
    cases last
    exact other
  cases before : fs.resolve p with
  | ok place =>
    rw [mem_names_of_resolve before, mem_names_of_resolve (h.resolve before), entries]
  | error trouble =>
    rw [names_of_error before]
    refine ⟨fun there => ?_, nofun⟩
    cases after : fs₁.resolve p with
    | error trouble =>
      rw [names_of_error after] at there
      cases there
    | ok place =>
      -- there is a directory around the name, and directories were there before
      rw [mem_names_of_resolve after] at there
      rw [h.resolve_of_dir after (FileTree.dirAt_of_isSome there)] at before
      cases before

/-- The first of the names that cannot have been written is the same. -/
theorem find?_names (h : Rewritten Q fs fs₁) (wf : fs.tree.WellFormed) {P : String → Bool}
    (apart : ∀ n, Q n → P n = false) : (fs₁.names p).find? P = (fs.names p).find? P := by
  ext name
  rw [find?_eq_some_iff_of_pairwise (fun _ _ => lt_asymm) (pairwise_names h.wellFormed p),
    find?_eq_some_iff_of_pairwise (fun _ _ => lt_asymm) (pairwise_names wf p)]
  have same : ∀ n, n ∈ fs₁.names p ∧ P n = true ↔ n ∈ fs.names p ∧ P n = true := by
    intro n
    refine and_congr_left fun holds => h.mem_names fun written => ?_
    rw [apart n written] at holds
    cases holds
  simp only [same]

end Rewritten

end FileSystem

end Ambient
