import Ambient.Proofs.Path.Way

/-!
# Where a relative path leads

The way from one directory to another goes up as far as the two differ and then down by names.
Joined to the first directory, with every double dot taking back the name in front of it, it
ends in the second.
-/
namespace Ambient

namespace Path
variable {p q : Path} {c : Component} {name : String}

/-- The path goes down from the root through these names. -/
def Follows (p : Path) (names : List String) : Prop := p.components = .root :: names.map .normal

instance (p : Path) (names : List String) : Decidable (p.Follows names) :=
  inferInstanceAs (Decidable (p.components = _))

/-- The components so far and one more. A double dot takes back the name in front of it and
stays at the root. -/
def enter (before : List Component) (c : Component) : List Component :=
  match c, before.getLast? with
  | .parent, some (.normal _) => before.dropLast
  | .parent, some .root => before
  | _, _ => before ++ [c]

/-- Where a path leads. -/
def destination (p : Path) : List Component := p.components.foldl enter []

theorem isAbsolute_of_components {cs : List Component} (h : p.components = .root :: cs) :
    p.isAbsolute = true := by
  unfold components at h
  cases split : Text.pieces isSlash p.text.toList with
  | nil => exact absurd split (Text.pieces_ne_nil _)
  | cons first more =>
    rw [split, componentsOf] at h
    by_cases root : first = []
    · subst root
      have going : more ≠ [] := by
        rintro rfl
        cases h
      obtain ⟨d, r, spelled, slash⟩ := Text.exists_cons_of_pieces split going
      rw [isAbsolute_iff, spelled, List.head?_cons, eq_of_beq slash]
    · rw [if_neg root] at h
      unfold Component.ofPiece at h
      split_ifs at h <;> cases h

theorem filter_rdropWhile (pieces : List (List Char)) :
    (pieces.rdropWhile isIdle).filter (!isIdle ·) = pieces.filter (!isIdle ·) := by
  have ends : (pieces.rtakeWhile isIdle).filter (!isIdle ·) = [] := by
    rw [List.filter_eq_nil_iff]
    intro piece hp
    simpa using List.mem_rtakeWhile_imp hp
  have whole : pieces.rdropWhile isIdle ++ pieces.rtakeWhile isIdle = pieces :=
    List.rdropWhile_append_rtakeWhile
  calc (pieces.rdropWhile isIdle).filter (!isIdle ·)
      = (pieces.rdropWhile isIdle ++ pieces.rtakeWhile isIdle).filter (!isIdle ·) := by
        rw [List.filter_append, ends, List.append_nil]
    _ = pieces.filter (!isIdle ·) := by rw [whole]

/-- The last component stands in the last piece of the spine. -/
theorem exists_spine_concat {cs : List Component} (h : p.components = .root :: (cs ++ [c])) :
    ∃ front last, p.spine = [] :: (front ++ [last]) ∧ isIdle last = false ∧
      Component.ofPiece last = c ∧ (front.filter (!isIdle ·)).map Component.ofPiece = cs ∧
      ∀ piece ∈ front ++ [last], ∀ d ∈ piece, isSlash d = false := by
  obtain ⟨more, split, going⟩ := exists_pieces (isAbsolute_of_components h)
  have spine : p.spine = [] :: more.rdropWhile isIdle := by
    unfold Path.spine
    rw [split]
    rfl
  have parts : ((more.rdropWhile isIdle).filter (!isIdle ·)).map Component.ofPiece =
      cs ++ [c] := by
    rw [components, split, componentsOf_root going] at h
    rw [filter_rdropWhile]
    exact (List.cons.inj h).2
  have some : more.rdropWhile isIdle ≠ [] := by
    intro none
    rw [none] at parts
    simp at parts
  have shown := List.rdropWhile_last_not isIdle more some
  have whole := List.dropLast_append_getLast some
  rw [← whole, List.filter_append, List.map_append] at parts
  have kept : [(more.rdropWhile isIdle).getLast some].filter (!isIdle ·) =
      [(more.rdropWhile isIdle).getLast some] := by simpa using shown
  rw [kept, List.map_singleton] at parts
  obtain ⟨front, last⟩ := List.append_inj' parts rfl
  refine ⟨_, _, spine.trans (by rw [whole]), by simpa using shown,
    (List.cons.inj last).1, front, ?_⟩
  rw [whole]
  intro piece hp
  have member : piece ∈ p.spine := by
    rw [spine]
    exact List.mem_cons_of_mem _ hp
  exact Text.not_of_mem_pieces piece (mem_pieces_of_mem_spine member)

theorem components_ofPieces {more : List (List Char)}
    (apart : ∀ piece ∈ more, ∀ d ∈ piece, isSlash d = false) :
    (ofPieces ([] :: more)).components =
      .root :: (more.filter (!isIdle ·)).map Component.ofPiece := by
  cases more with
  | nil => rfl
  | cons piece rest =>
    have split : Text.pieces isSlash (ofPieces ([] :: piece :: rest)).text.toList =
        [] :: piece :: rest := by
      refine pieces_ofPieces (by simp) (by simp) fun x hx => ?_
      rcases List.mem_cons.mp hx with rfl | inner
      · simp
      · exact apart x inner
    rw [components, split, componentsOf_root (by simp)]

theorem components_parent {cs : List Component} (h : p.components = .root :: (cs ++ [c])) :
    p.parent.components = .root :: cs := by
  obtain ⟨front, last, spine, -, -, parts, apart⟩ := exists_spine_concat h
  rw [parent_of_spine spine, components_ofPieces, filter_rdropWhile, parts]
  intro piece hp
  exact apart piece (List.mem_append_left _ ((front.rdropWhile_prefix isIdle).subset hp))

theorem fileName?_of_components {cs : List Component}
    (h : p.components = .root :: (cs ++ [.normal name])) : p.fileName? = some name := by
  obtain ⟨front, last, spine, shown, spelled, -, -⟩ := exists_spine_concat h
  unfold Component.ofPiece at spelled
  split at spelled
  · cases spelled
  · rename_i other
    have named : isName last = true := by simp [isName, shown, other]
    rw [fileName?, spine, ← List.cons_append, List.getLast?_concat, Option.filter_some,
      if_pos named, Option.map_some, Component.normal.inj spelled]

section
variable {names source target : List String} {steps : List Component}

theorem Follows.head? (follows : p.Follows names) : p.components.head? = some .root := by
  rw [follows]
  rfl

theorem Follows.isEntry (follows : p.Follows names) : ∀ n ∈ names, IsEntry n := by
  intro n hn
  have member : Component.normal n ∈ p.components.tail := by
    rw [follows]
    exact List.mem_map_of_mem hn
  cases isStep_of_mem_tail member with
  | down entry => exact entry

theorem Follows.parent (follows : p.Follows (names ++ [name])) : p.parent.Follows names := by
  refine components_parent (c := .normal name) ?_
  rw [Follows, List.map_append] at follows
  exact follows

theorem Follows.fileName (follows : p.Follows (names ++ [name])) : p.fileName = name := by
  rw [Follows, List.map_append] at follows
  rw [Path.fileName, fileName?_of_components follows]
  rfl

theorem take_commonLength (a b : List Component) :
    a.take (commonLength a b) = b.take (commonLength a b) := by
  fun_induction commonLength a b with
  | case1 c more others ih => rw [List.take_succ_cons, List.take_succ_cons, ih]
  | case2 => rfl
  | case3 => rfl

theorem commonLength_le (a b : List Component) : commonLength a b ≤ a.length := by
  fun_induction commonLength a b with
  | case1 c more others ih => exact Nat.succ_le_succ ih
  | case2 => exact Nat.zero_le _
  | case3 => exact Nat.zero_le _

/-- The steps from one directory below the root to another: up as far as they differ, then down. -/
def stepsBetween (source target : List String) : List Component :=
  let n := commonLength (source.map .normal) (target.map .normal)
  List.replicate (source.length - n) .parent ++ (target.drop n).map .normal

theorem relativeDir_follows (here : p.Follows source) (there : q.Follows target) :
    p.relativeDir q = some (joined (stepsBetween source target)) := by
  have heads :
      ¬ (p.components.head? ≠ q.components.head? ∧ p.components.head? = some .root) := by
    rw [here.head?, there.head?]
    simp
  have common : commonLength p.components q.components =
      commonLength (source.map .normal) (target.map .normal) + 1 := by
    rw [here, there, commonLength, if_pos rfl]
  unfold relativeDir
  simp only [if_neg heads, common, stepsBetween]
  rw [here, there]
  simp only [List.length_cons, List.length_map, Nat.add_sub_add_right, List.drop_succ_cons,
    List.map_drop]

theorem enter_parent (names : List String) :
    enter (.root :: names.map .normal) .parent = .root :: names.dropLast.map .normal := by
  rcases names.eq_nil_or_concat with rfl | ⟨front, last, rfl⟩
  · rfl
  · have ends : (Component.root :: (front ++ [last]).map .normal).getLast? =
        some (.normal last) := by
      rw [List.map_append, List.map_singleton, ← List.cons_append, List.getLast?_concat]
    simp only [List.concat_eq_append, enter, ends, List.dropLast_concat]
    rw [List.map_append, List.map_singleton, ← List.cons_append, List.dropLast_concat]

theorem foldl_enter_parents (n : Nat) (names : List String) :
    (List.replicate n .parent).foldl enter (.root :: names.map .normal) =
      .root :: (names.take (names.length - n)).map .normal := by
  induction n generalizing names with
  | zero => simp
  | succ n ih =>
    rw [List.replicate_succ, List.foldl_cons, enter_parent, ih, List.length_dropLast,
      List.dropLast_eq_take, List.take_take]
    congr 3
    omega

theorem foldl_enter_names (before : List Component) (names : List String) :
    (names.map .normal).foldl enter before = before ++ names.map .normal := by
  induction names generalizing before with
  | nil => exact (List.append_nil before).symm
  | cons n more ih =>
    rw [List.map_cons, List.foldl_cons, ih]
    exact List.append_assoc before [.normal n] _

/-- From the first directory the steps lead to the second. -/
theorem foldl_enter_stepsBetween (source target : List String) :
    (stepsBetween source target).foldl enter (.root :: source.map .normal) =
      .root :: target.map .normal := by
  have short := commonLength_le (source.map .normal) (target.map .normal)
  have same := take_commonLength (source.map .normal) (target.map .normal)
  unfold stepsBetween
  generalize commonLength (source.map .normal) (target.map .normal) = n at short same
  rw [List.length_map] at short
  rw [List.foldl_append, foldl_enter_parents, foldl_enter_names, Nat.sub_sub_self short,
    List.map_take, same, List.map_drop, List.cons_append, List.take_append_drop]

theorem isStep_stepsBetween (entries : ∀ n ∈ target, IsEntry n) :
    ∀ c ∈ stepsBetween source target, c.IsStep := by
  intro c hc
  rcases List.mem_append.mp hc with up | down
  · rw [List.eq_of_mem_replicate up]
    exact .up
  · obtain ⟨n, hn, rfl⟩ := List.mem_map.mp down
    exact .down (entries n (List.mem_of_mem_drop hn))

theorem isAbsolute_joined (each : ∀ c ∈ steps, c.IsStep) :
    isAbsolute ⟨joined steps⟩ = false := by
  rw [Bool.eq_false_iff]
  intro absolute
  obtain ⟨more, split, going⟩ := exists_pieces absolute
  cases steps with
  | nil =>
    have alone : Text.pieces isSlash (joined []).toList = [[]] := rfl
    rw [alone] at split
    exact going (List.cons.inj split).2.symm
  | cons c rest =>
    rw [pieces_joined each (List.cons_ne_nil c rest), List.map_cons] at split
    exact (each c List.mem_cons_self).text_ne_empty
      (String.toList_eq_nil_iff.mp (List.cons.inj split).1)

/-- Joined steps are the components behind those of the directory. -/
theorem components_join_joined (dir : Path) (each : ∀ c ∈ steps, c.IsStep)
    (some : steps ≠ []) :
    (dir.join ⟨joined steps⟩).components = dir.components ++ steps := by
  have shown : ∀ piece ∈ steps.map fun c => c.text.toList, isIdle piece = false := by
    intro piece hp
    obtain ⟨c, hc, rfl⟩ := List.mem_map.mp hp
    exact (each c hc).isIdle_text
  have spelled : (steps.map fun c => c.text.toList).map Component.ofPiece = steps := by
    rw [List.map_map]
    calc steps.map (Component.ofPiece ∘ fun c => c.text.toList)
        = steps.map id := List.map_congr_left fun c hc => (each c hc).ofPiece_text
      _ = steps := List.map_id steps
  rw [join_relative (isAbsolute_joined each),
    components_lead (pieces_joined each some) shown, spelled]

theorem destination_join (here : p.Follows source) (each : ∀ c ∈ steps, c.IsStep)
    (some : steps ≠ []) :
    destination (p.join ⟨joined steps⟩) = steps.foldl enter (.root :: source.map .normal) := by
  have start : p.components.foldl enter [] = .root :: source.map .normal := by
    rw [here, List.foldl_cons]
    exact foldl_enter_names [.root] source
  rw [destination, components_join_joined p each some, List.foldl_append, start]

theorem joined_concat (each : ∀ c ∈ steps, c.IsStep) (c : Component) :
    joined (steps ++ [c]) =
      if (joined steps).isEmpty then c.text else joined steps ++ "/" ++ c.text := by
  cases steps with
  | nil => exact String.intercalate_singleton
  | cons d rest =>
    have some : ¬ (joined (d :: rest)).isEmpty = true := by
      intro none
      have alone := pieces_joined each (List.cons_ne_nil d rest)
      rw [String.isEmpty_iff.mp none] at alone
      exact (each d List.mem_cons_self).text_ne_empty
        (String.toList_eq_nil_iff.mp (List.cons.inj alone).1.symm)
    rw [if_neg some, joined, List.map_append, List.map_singleton,
      String.intercalate_append_of_ne_nil (by simp) (by simp), String.intercalate_singleton]
    rfl

end

section
variable {names : List String} {ending : String}

theorem isIdle_of_append {a b : List Char} (h : isIdle (a ++ b) = true) : isIdle a = true := by
  rw [isIdle, Bool.or_eq_true, decide_eq_true_iff, decide_eq_true_iff] at h
  rcases h with none | one
  · rw [(List.append_eq_nil_iff.mp none).1]
    rfl
  · rcases List.append_eq_singleton_iff.mp one with ⟨rfl, -⟩ | ⟨rfl, -⟩ <;> rfl

/-- The directory of a file stays below the root when the text of the file gets an ending
without a slash. -/
theorem exists_follows_parent_append (follows : p.Follows names) (some : names ≠ [])
    (plain : '/' ∉ ending.toList) : ∃ above, (p.append ending).parent.Follows above := by
  obtain ⟨more, split, going⟩ := exists_pieces (isAbsolute_of_components follows)
  obtain ⟨front, last, before, after⟩ := Text.exists_pieces_append (p := isSlash) p.text.toList
    fun d hd => not_slash.mpr fun same => plain (same ▸ hd)
  rw [split] at before
  obtain ⟨inner, rfl⟩ : ∃ inner, front = [] :: inner := by
    cases front with
    | nil => exact absurd (List.cons.inj before).2 going
    | cons first inner => exact ⟨inner, by rw [← (List.cons.inj before).1]⟩
  have whole : p.components =
      .root :: ((inner ++ [last]).filter (!isIdle ·)).map Component.ofPiece := by
    rw [components, split, before, List.cons_append, componentsOf_root (by simp)]
  have longer : (p.append ending).components =
      .root :: ((inner ++ [last ++ ending.toList]).filter (!isIdle ·)).map Component.ofPiece := by
    rw [components, append, String.toList_append, after, List.cons_append,
      componentsOf_root (by simp)]
  rw [follows, List.filter_append, List.map_append] at whole
  rw [List.filter_append, List.map_append] at longer
  by_cases idle : isIdle (last ++ ending.toList) = true
  · have same : (p.append ending).Follows names := by
      rw [Follows, longer]
      rw [List.filter_singleton, isIdle_of_append idle] at whole
      rw [List.filter_singleton, idle]
      exact whole.symm
    obtain ⟨above, name, rfl⟩ := List.eq_nil_or_concat names |>.resolve_left some
    rw [List.concat_eq_append] at same
    exact ⟨above, same.parent⟩
  · rw [List.filter_singleton, eq_false_of_ne_true idle] at longer
    obtain ⟨above, rest, -, front, -⟩ := List.map_eq_append_iff.mp (List.cons.inj whole).2
    have parent := components_parent longer
    rw [← front] at parent
    exact ⟨above, parent⟩

/-- So it does when the file name gets another extension. -/
theorem exists_follows_parent_withExtension (follows : p.Follows names) (some : names ≠ [])
    (plain : '/' ∉ ending.toList) (going : ending ≠ "") :
    ∃ above, (p.withExtension ending).parent.Follows above := by
  obtain ⟨above, name, rfl⟩ := List.eq_nil_or_concat names |>.resolve_left some
  rw [List.concat_eq_append, Follows, List.map_append] at follows
  obtain ⟨front, last, spine, -, -, parts, -⟩ := exists_spine_concat follows
  have shown := fileName?_of_components follows
  have counts := isIdle_renamed (p := p) (isEntry_of_fileName? shown).toList_ne_nil going
  have before : p.spine.dropLast = [] :: front := by
    rw [spine, ← List.cons_append, List.dropLast_concat]
  have whole : (p.withExtension ending).components =
      .root :: (above.map .normal ++ [Component.ofPiece (p.renamed name ending).toList]) := by
    rw [components, pieces_withExtension shown plain, before, List.cons_append,
      componentsOf_root (by simp), List.filter_append, List.map_append, parts,
      List.filter_singleton, counts]
    rfl
  exact ⟨above, components_parent whole⟩

end

end Path

namespace Directive
variable {naming : OutputNaming} {sidecarOf : Path → Option Sidecar} {dir output : Path}
  {source target : List String} {name : String}

/-- A directive without a given name is the steps to the directory of the output
and then its name. -/
theorem pathTo_follows (here : dir.Follows source) (there : output.Follows (target ++ [name]))
    (unnamed : (sidecarOf output).bind Sidecar.givenName = none) :
    pathTo naming sidecarOf dir output =
      Path.joined (Path.stepsBetween source target ++ [.normal name]) := by
  have each : ∀ c ∈ Path.stepsBetween source target, c.IsStep :=
    Path.isStep_stepsBetween there.parent.isEntry
  unfold pathTo
  rw [unnamed, Path.relativeDir_follows here there.parent, Path.joined_concat each]
  simp only [there.fileName]
  rfl

/-- Such a directive leads to the output. -/
theorem destination_pathTo (here : dir.Follows source) (there : output.Follows (target ++ [name]))
    (unnamed : (sidecarOf output).bind Sidecar.givenName = none) :
    Path.destination (dir.join ⟨pathTo naming sidecarOf dir output⟩) = output.components := by
  have entries := there.isEntry
  have each : ∀ c ∈ Path.stepsBetween source target ++ [.normal name], c.IsStep := by
    intro c hc
    rcases List.mem_append.mp hc with way | last
    · exact Path.isStep_stepsBetween there.parent.isEntry c way
    · rw [List.mem_singleton.mp last]
      exact .down (entries name (by simp))
  rw [pathTo_follows here there unnamed, Path.destination_join here each (by simp),
    List.foldl_append, Path.foldl_enter_stepsBetween, there, List.map_append]
  exact Path.foldl_enter_names _ [name]

end Directive

end Ambient
