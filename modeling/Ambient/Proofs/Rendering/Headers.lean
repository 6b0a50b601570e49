import Ambient.Proofs.Rendering.Directives

/-!
# Headers read back

The directives read back from a text are those of its header exactly if each of these lies on one
line and there is none in what follows. A path that is broken over several lines gives at most one
directive, so the lines of the header would be too many.
-/
namespace Ambient

namespace Spot
variable {s t : Spot} {text : String}

/-- Without two slashes in a row no line starts with two. -/
theorem exists_leads {cs : List Char} (apart : ¬ ['/', '/'] <:+: cs)
    (first : s = slash → cs.head? ≠ some '/') : ∃ t, s.follow cs = some t := by
  induction cs generalizing s with
  | nil => exact ⟨s, rfl⟩
  | cons c r ih =>
    have later : ¬ ['/', '/'] <:+: r := fun two => apart (List.infix_cons two)
    have next : ∃ u, s.step c = some u ∧ (u = slash → c = '/') := by
      cases s <;> by_cases feed : c = '\n' <;> by_cases bar : c = '/' <;>
        simp_all [step]
    obtain ⟨u, stepped, bar⟩ := next
    obtain ⟨t, rest⟩ := @ih u later fun at_ starts => by
      obtain ⟨more, rfl⟩ : ∃ more, r = '/' :: more := by
        cases r with
        | nil => cases starts
        | cons d more => exact ⟨more, by rw [Option.some.inj starts]⟩
      exact apart (bar at_ ▸ ⟨[], more, rfl⟩)
    refine ⟨t, ?_⟩
    rw [follow, List.foldlM_cons, stepped]
    exact rest

/-- Without a line feed the start is left at the first character, and not come to again. -/
theorem ne_start_of_follow {cs : List Char} (line : '\n' ∉ cs) (led : s.follow cs = some t)
    (away : s ≠ start ∨ cs ≠ []) : t ≠ start := by
  induction cs generalizing s with
  | nil =>
    rcases away with away | some
    · exact Option.some.inj led ▸ away
    · exact absurd rfl some
  | cons d more ih =>
    rw [follow, List.foldlM_cons] at led
    cases stepped : s.step d with
    | none => rw [stepped] at led; cases led
    | some u =>
      rw [stepped] at led
      refine ih (fun later => line (List.mem_cons_of_mem d later)) led (.inl ?_)
      rintro rfl
      have other : d ≠ '\n' := fun same => line (same ▸ List.mem_cons_self)
      cases s <;> by_cases bar : d = '/' <;> simp_all [step]

end Spot

namespace Directive
variable {path : String} {references : List String}

/-- Lines that do not start with two slashes add no directive to what follows them. -/
theorem parse_append_of_leads {a : String} (h : Spot.start.Leads a .start) (b : String) :
    parse (a ++ b) = parse b := by
  induction size : a.toList.length using Nat.strongRecOn generalizing a with
  | ind n ih =>
    by_cases feed : '\n' ∈ a.toList
    · obtain ⟨front, back, whole, line⟩ := List.eq_append_cons_of_mem feed
      have spelled : a = String.ofList front ++ "\n" ++ String.ofList back := by
        rw [← String.toList_inj, String.toList_append, String.toList_append, String.toList_ofList,
          String.toList_ofList, whole]
        simp
      have parts := h
      unfold Spot.Leads Spot.follow at parts
      rw [whole, List.foldlM_append] at parts
      cases led : front.foldlM Spot.step .start with
      | none => rw [led] at parts; cases parts
      | some t =>
        rw [led] at parts
        have turned : t.step '\n' = some .start := by cases t <;> rfl
        have rest : Spot.start.Leads (String.ofList back) .start := by
          unfold Spot.Leads Spot.follow
          rw [String.toList_ofList]
          simpa [List.foldlM_cons, turned] using parts
        have plain : ¬ ['/', '/'] <+: Text.dropReturn front := fun starts => by
          obtain ⟨one, others, split, atStart, -⟩ := Spot.not_prefix_of_follow led
          rw [Text.pieces_of_forall fun d hd => by
            rw [beq_eq_false_iff_ne]
            rintro rfl
            exact line hd] at split
          obtain ⟨rfl, -⟩ := List.cons.inj split
          exact atStart rfl (starts.trans (Text.dropReturn_prefix front))
        have fewer : (String.ofList back).toList.length < n := by
          rw [String.toList_ofList, ← size, whole]
          simp
          omega
        rw [spelled, String.append_assoc, parse_line (by rwa [String.toList_ofList]),
          String.toList_ofList, parseLine?_of_not_prefix plain, ih _ fewer rest rfl]
        rfl
    · by_cases some : a.toList = []
      · rw [String.toList_eq_nil_iff.mp some, String.empty_append]
      · exact absurd rfl (Spot.ne_start_of_follow feed h (.inr some))

/-- A path gives one directive at most, on however many lines it lies. -/
theorem length_parse_render (apart : '\n' ∈ path.toList → ¬ ['/', '/'] <:+: path.toList)
    (rest : String) :
    (parse (render path ++ "\n" ++ rest)).length ≤ 1 + (parse rest).length := by
  by_cases feed : '\n' ∈ path.toList
  · obtain ⟨front, back, whole, line⟩ := List.eq_append_cons_of_mem feed
    have first : '\n' ∉ (opening ++ String.ofList front).toList := by
      have fixed : '\n' ∉ opening.toList := by decide
      rw [String.toList_append, String.toList_ofList, List.mem_append, not_or]
      exact ⟨fixed, line⟩
    have spelled : render path ++ "\n" ++ rest =
        opening ++ String.ofList front ++ "\n" ++
          (String.ofList back ++ closing ++ "\n" ++ rest) := by
      rw [← String.toList_inj]
      simp [render, String.toList_append, whole]
    have tail : Spot.start.Leads (String.ofList back ++ closing ++ "\n") .start := by
      obtain ⟨t, led⟩ := @Spot.exists_leads .start back
        (fun two => apart feed
          (whole ▸ (List.infix_cons two).trans (List.suffix_append _ _).isInfix)) (by simp)
      have led : Spot.start.Leads (String.ofList back) t := by
        unfold Spot.Leads
        rwa [String.toList_ofList]
      refine (led.append ?_ : Spot.Leads _ _ .inside).append (by decide)
      cases t <;> decide
    have kept : (parse (String.ofList back ++ closing ++ "\n" ++ rest)) = parse rest :=
      parse_append_of_leads tail rest
    rw [spelled, parse_line first, kept, List.length_append]
    cases parseLine? (Text.dropReturn (opening ++ String.ofList front).toList) <;> simp
  · rw [parse_line (newline_notMem_render feed), parseLine?_render]
    simp [Nat.add_comm]

/-- The directives of a header, without the empty line behind them. -/
def block (references : List String) : String :=
  String.join (references.map fun path => render path ++ "\n")

theorem header_eq : Render.header references =
    if references.isEmpty then "" else block references ++ "\n" :=
  rfl

theorem length_parse_block
    (apart : ∀ path ∈ references, '\n' ∈ path.toList → ¬ ['/', '/'] <:+: path.toList)
    (rest : String) :
    (parse (block references ++ rest)).length ≤ references.length + (parse rest).length := by
  induction references with
  | nil => simp [block]
  | cons path more ih =>
    have others := ih fun p hp => apart p (List.mem_cons_of_mem path hp)
    have here := length_parse_render (apart path List.mem_cons_self) (block more ++ rest)
    have spelled : block (path :: more) ++ rest = render path ++ "\n" ++ (block more ++ rest) := by
      unfold block
      rw [List.map_cons, String.join_cons, String.append_assoc]
    rw [spelled, List.length_cons]
    omega

/-- The line feeds of a header: one for each directive, and those in the paths. -/
theorem count_block : (block references).toList.count '\n' =
    references.length + (references.flatMap String.toList).count '\n' := by
  induction references with
  | nil => rfl
  | cons path more ih =>
    have fixed : opening.toList.count '\n' = 0 ∧ closing.toList.count '\n' = 0 ∧
        "\n".toList.count '\n' = 1 := by decide
    unfold block at ih ⊢
    rw [List.map_cons, String.join_cons, String.toList_append, List.count_append, ih,
      String.toList_append, List.count_append, render, String.toList_append, String.toList_append,
      List.count_append, List.count_append, fixed.1, fixed.2.1, fixed.2.2, List.length_cons,
      List.flatMap_cons, List.count_append]
    omega

theorem count_paths : (references.flatMap String.toList).count '\n' = 0 ↔
    ∀ path ∈ references, '\n' ∉ path.toList := by
  rw [List.count_eq_zero, List.mem_flatMap]
  constructor
  · intro none path hp feed
    exact none ⟨path, hp, feed⟩
  · rintro lines ⟨path, hp, feed⟩
    exact lines path hp feed

/-- A header of no more directives than another, each on one line, is the same text only if those of
the other lie on one line too. -/
theorem lines_of_header_eq {again : List String}
    (same : Render.header again = Render.header references)
    (fewer : again.length ≤ references.length)
    (lines : ∀ path ∈ again, '\n' ∉ path.toList) :
    ∀ path ∈ references, '\n' ∉ path.toList := by
  have counts := congrArg (fun text => text.toList.count '\n') same
  have feed : "\n".toList.count '\n' = 1 := by decide
  cases references with
  | nil => intro path hp; cases hp
  | cons path more =>
    cases again with
    | nil => simp [header_eq] at counts
    | cons path' more' =>
      simp only [header_eq, List.isEmpty_cons, Bool.false_eq_true, if_false, String.toList_append,
        List.count_append, feed, count_block, count_paths.mpr lines] at counts
      exact count_paths.mp (by omega)

/-- The header of a text stays when its directives are read and put in order again, exactly if each
of them lies on one line and no other follows. -/
theorem header_sorted_parse_iff {body : String} (ordered : sorted references = references)
    (apart : ∀ path ∈ references, '\n' ∈ path.toList → ¬ ['/', '/'] <:+: path.toList) :
    Render.header (sorted (parse (Render.header references ++ body))) = Render.header references ↔
      (∀ path ∈ references, '\n' ∉ path.toList) ∧ parse body = [] := by
  constructor
  · intro same
    have lines : ∀ path ∈ sorted (parse (Render.header references ++ body)),
        '\n' ∉ path.toList :=
      fun path hp => newline_notMem_of_mem_parse (List.mem_mergeSort.mp hp)
    generalize found : sorted (parse (Render.header references ++ body)) = again at same lines
    have reread := parse_header_append lines ""
    have nothing : parse "" = [] := rfl
    rw [same, nothing, List.append_nil, String.append_empty] at reread
    have fewer : again.length ≤ references.length := by
      have most := length_parse_block apart "\n"
      have blank : parse "\n" = [] := rfl
      rw [blank, List.length_nil] at most
      rw [← reread, header_eq]
      split
      · simp [nothing]
      · exact most
    have one := lines_of_header_eq same fewer lines
    refine ⟨one, ?_⟩
    -- so it is the whole list that was read back, and nothing besides
    have whole := parse_header_append one ""
    rw [nothing, List.append_nil, String.append_empty] at whole
    have size := congrArg List.length found
    rw [sorted, List.length_mergeSort, parse_header_append one, List.length_append,
      ← reread, whole] at size
    exact List.eq_nil_of_length_eq_zero (by omega)
  · rintro ⟨lines, none⟩
    rw [parse_header_append lines, none, List.append_nil, ordered]

end Directive

end Ambient
