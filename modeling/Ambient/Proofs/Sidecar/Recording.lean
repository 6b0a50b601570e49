import Ambient.Proofs.Sidecar.RoundTrip

/-!
# The homes as a finite map

From what a sidecar file says, or from nothing, homes are recorded one after the other. What
comes of it depends only on the home recorded last under each name, or else on the one that
stands first in the file, and the homes stay in the order of their names. So a name that is
looked up has one answer.
-/
namespace Ambient.Sidecar
variable {homes loaded recorded : List TypeHome} {home h : TypeHome} {name written : String}
  {s : Sidecar}

/-- The home of a name: the one recorded last, or else the first of those loaded. -/
def current? (loaded recorded : List TypeHome) (name : String) : Option TypeHome :=
  (recorded.reverse.find? (·.typeName == name)).or (loaded.find? (·.typeName == name))

/-- A sidecar to start from, with the homes in the order of the file that it is read from. -/
inductive Loads : List TypeHome → Sidecar → Prop
  | nothing : Loads [] .empty
  | file {text : String} {draft s : Sidecar} :
    Json.decodeText ((shape (Json.maxDepth - 1)).decode Json.maxDepth) text = .ok draft →
    parseJson text = .ok s → Loads draft.homes s

/-- Whether `written` follows a dot at the end of a name. -/
def EndsBehindDot (name written : String) : Prop := ∃ outer, name = outer ++ "." ++ written

/-- What is found under a written name: the home of that very name, or else the home of the smallest
name that ends behind a dot with it, or else nothing. -/
inductive Finds (homes : List TypeHome) (written : String) : Option TypeHome → Prop
  | exactly {h : TypeHome} : h ∈ homes → h.typeName = written → Finds homes written (some h)
  | ending {h : TypeHome} : (∀ k ∈ homes, k.typeName ≠ written) → h ∈ homes →
    EndsBehindDot h.typeName written →
    (∀ k ∈ homes, EndsBehindDot k.typeName written → h.typeName ≤ k.typeName) →
    Finds homes written (some h)
  | nothing : (∀ k ∈ homes, k.typeName ≠ written ∧ ¬ EndsBehindDot k.typeName written) →
    Finds homes written none

theorem typeName_of_find? (found : homes.find? (·.typeName == name) = some h) :
    h.typeName = name := by
  have same := List.find?_some found
  exact beq_iff_eq.mp same

/-- Under a name stands the home recorded under it, and under any other name what stood there. -/
theorem find?_insertHome (home : TypeHome) (homes : List TypeHome) (name : String) :
    (insertHome home homes).find? (·.typeName == name) =
      ([home].find? (·.typeName == name)).or (homes.find? (·.typeName == name)) := by
  induction homes with
  | nil => simp [insertHome]
  | cons g r ih =>
    unfold insertHome
    split
    · rename_i before
      by_cases here : g.typeName = name
      · have other : home.typeName ≠ name :=
          fun same => lt_irrefl _ (here.trans same.symm ▸ before)
        simp [here, other]
      · have passed : (g.typeName == name) = false := beq_false_of_ne here
        simp only [List.find?_cons, passed] at ih ⊢
        exact ih
    · split
      · rename_i same
        by_cases here : home.typeName = name
        · simp [here]
        · simp [here, same]
      · by_cases here : home.typeName = name <;> simp [here]

theorem find?_foldl_insertHome (old new : List TypeHome) (name : String) :
    (new.foldl (fun hs h => insertHome h hs) old).find? (·.typeName == name) =
      current? old new name := by
  induction new generalizing old with
  | nil => rfl
  | cons h more ih =>
    rw [List.foldl_cons, ih, current?, current?, find?_insertHome, List.reverse_cons,
      List.find?_append, Option.or_assoc]

/-- In settled homes a name has one home, which is the one that is found. -/
theorem filter_of_settled (settled : Settled homes) (name : String) :
    homes.filter (·.typeName == name) = (homes.find? (·.typeName == name)).toList := by
  induction homes with
  | nil => rfl
  | cons g r ih =>
    obtain ⟨first, rest⟩ := List.pairwise_cons.mp settled
    by_cases here : g.typeName = name
    · have others : r.filter (·.typeName == name) = [] := by
        rw [List.filter_eq_nil_iff]
        intro k hk same
        exact ne_of_lt (first k hk) (here.trans (beq_iff_eq.mp same).symm)
      simp [here, others]
    · simpa [here] using ih rest

theorem mem_iff_find?_of_settled (settled : Settled homes) :
    h ∈ homes ↔ homes.find? (·.typeName == h.typeName) = some h := by
  rw [← Option.mem_toList.trans Option.mem_def, ← filter_of_settled settled, List.mem_filter]
  simp

theorem find?_settle (homes : List TypeHome) (name : String) :
    (settle homes).find? (·.typeName == name) = homes.find? (·.typeName == name) := by
  refine Option.ext fun h => ?_
  constructor
  · intro found
    have kept := mem_settle_iff.mp (List.mem_of_find?_eq_some found)
    rwa [typeName_of_find? found] at kept
  · intro found
    have named := typeName_of_find? found
    have kept := mem_settle_iff.mpr (named.symm ▸ found)
    rwa [mem_iff_find?_of_settled (settled_settle homes), named] at kept

theorem eq_of_find?_eq {a b : List TypeHome} (first : Settled a) (second : Settled b)
    (same : ∀ name, a.find? (·.typeName == name) = b.find? (·.typeName == name)) : a = b := by
  have nodup : ∀ {homes : List TypeHome}, Settled homes → homes.Nodup := fun settled =>
    List.Pairwise.imp (fun less equal => ne_of_lt less (congrArg TypeHome.typeName equal)) settled
  have perm : a.Perm b := by
    rw [List.perm_ext_iff_of_nodup (nodup first) (nodup second)]
    intro h
    rw [mem_iff_find?_of_settled first, mem_iff_find?_of_settled second, same]
  exact perm.eq_of_pairwise (fun _ _ _ _ less more => absurd less (lt_asymm more)) first second

theorem Loads.settled (start : Loads loaded s) : Settled s.homes := by
  cases start with
  | nothing => exact List.Pairwise.nil
  | file _ read => exact settled_of_parseJson read

theorem Loads.find? (start : Loads loaded s) (name : String) :
    s.homes.find? (·.typeName == name) = loaded.find? (·.typeName == name) := by
  cases start with
  | nothing => rfl
  | @file text draft _ decoded read =>
    rw [parseJson, decoded] at read
    obtain rfl := Except.ok.inj read
    exact find?_settle draft.homes name

theorem endsIn_iff_of_ne (other : name ≠ written) :
    endsIn name written = true ↔ EndsBehindDot name written := by
  have dot : ".".toList = ['.'] := rfl
  rw [endsIn, Bool.or_eq_true, beq_iff_eq]
  constructor
  · rintro (last | behind)
    · -- what stands in front of the last segment ends in a dot, or is nothing
      obtain ⟨front, spelled⟩ : ∃ front,
          front ++ Text.lastPiece (· == '.') name.toList = name.toList ∧
          (front = [] ∨ ∃ outer, front = outer ++ ['.']) := by
        refine ⟨(name.toList.reverse.dropWhile fun c => !(c == '.')).reverse, ?_, ?_⟩
        · rw [Text.lastPiece, ← List.reverse_append, List.takeWhile_append_dropWhile,
            List.reverse_reverse]
        · cases rest : name.toList.reverse.dropWhile fun c => !(c == '.') with
          | nil => exact .inl rfl
          | cons c outer =>
            have stops := List.head?_dropWhile_not (fun c => !(c == '.')) name.toList.reverse
            rw [rest] at stops
            obtain rfl : c = '.' := by simpa using stops
            exact .inr ⟨outer.reverse, List.reverse_cons⟩
      obtain ⟨whole, rfl | ⟨outer, rfl⟩⟩ := spelled
      · rw [last] at whole
        exact absurd (String.toList_injective whole.symm) other
      · refine ⟨String.ofList outer, String.toList_injective ?_⟩
        rw [← whole, last, String.toList_append, String.toList_append, dot, String.toList_ofList]
    · obtain ⟨outer, spelled⟩ := List.isSuffixOf_iff_suffix.mp behind
      refine ⟨String.ofList outer, String.toList_injective ?_⟩
      rw [← spelled, String.append_assoc]
      exact (String.toList_append.trans (by rw [String.toList_ofList])).symm
  · rintro ⟨outer, rfl⟩
    refine .inr (List.isSuffixOf_iff_suffix.mpr ⟨outer.toList, ?_⟩)
    rw [String.append_assoc]
    exact String.toList_append.symm

theorem finds_findHome? (settled : Settled s.homes) (written : String) :
    Finds s.homes written (s.findHome? written) := by
  unfold findHome?
  cases exactly : s.homes.find? (·.typeName == written) with
  | some h =>
    exact .exactly (List.mem_of_find?_eq_some exactly) (typeName_of_find? exactly)
  | none =>
    have other : ∀ k ∈ s.homes, k.typeName ≠ written := by
      intro k hk
      simpa using List.find?_eq_none.mp exactly k hk
    rw [Option.none_or]
    cases ending : s.homes.find? (fun h => endsIn h.typeName written) with
    | none =>
      refine .nothing fun k hk => ⟨other k hk, fun behind => ?_⟩
      exact List.find?_eq_none.mp ending k hk ((endsIn_iff_of_ne (other k hk)).mpr behind)
    | some h =>
      obtain ⟨ends, before, after, whole, fails⟩ := List.find?_eq_some_iff_append.mp ending
      have member : h ∈ s.homes := List.mem_of_find?_eq_some ending
      refine .ending other member ((endsIn_iff_of_ne (other h member)).mp ends) ?_
      intro k hk behind
      have met := (endsIn_iff_of_ne (other k hk)).mpr behind
      rw [whole, List.mem_append, List.mem_cons] at hk
      rcases hk with early | rfl | late
      · exact absurd met (by simpa using fails k early)
      · exact le_refl _
      · -- the homes behind the one that is found have greater names
        have order := (List.pairwise_append.mp (whole ▸ settled)).2.1
        exact le_of_lt ((List.pairwise_cons.mp order).1 k late)

/-- Whatever was loaded and recorded, the homes stand in the order of their names, and each name
that was ever loaded or recorded has exactly one: the one recorded last, or else the first of
those loaded. So nothing but the last home of each name counts in what is recorded, and a name
that is looked up finds the home of just that name, or else of the smallest name that ends with
it behind a dot. -/
theorem homes_of_recording {loaded : List TypeHome} {s : Sidecar} (start : Loads loaded s)
    (recorded : List TypeHome) :
    Settled (recorded.foldl record s).homes ∧
      (∀ name, (recorded.foldl record s).homes.filter (·.typeName == name) =
        (current? loaded recorded name).toList) ∧
      (∀ name, (current? loaded recorded name).isSome = true ↔
        ∃ h ∈ loaded ++ recorded, h.typeName = name) ∧
      (∀ others : List TypeHome,
        (∀ name, others.reverse.find? (·.typeName == name) =
          recorded.reverse.find? (·.typeName == name)) →
        others.foldl record s = recorded.foldl record s) ∧
      ∀ written,
        Finds (recorded.foldl record s).homes written
          ((recorded.foldl record s).findHome? written) := by
  have settled : ∀ recorded : List TypeHome, Settled (recorded.foldl record s).homes := by
    intro recorded
    rw [homes_foldl_record]
    exact settled_foldl start.settled
  have current : ∀ (recorded : List TypeHome) (name : String),
      (recorded.foldl record s).homes.find? (·.typeName == name) =
        current? loaded recorded name := by
    intro recorded name
    rw [homes_foldl_record, find?_foldl_insertHome, current?, current?, start.find?]
  refine ⟨settled recorded, ?_, ?_, ?_,
    fun written => finds_findHome? (settled recorded) written⟩
  · intro name
    rw [filter_of_settled (settled recorded), current]
  · intro name
    simp only [current?, Option.isSome_or, Bool.or_eq_true, List.find?_isSome, List.mem_reverse,
      beq_iff_eq, List.mem_append, or_and_right, exists_or, or_comm]
  · intro others same
    have homes : (others.foldl record s).homes = (recorded.foldl record s).homes := by
      refine eq_of_find?_eq (settled others) (settled recorded) fun name => ?_
      rw [current, current, current?, current?, same]
    rw [homes_foldl_record, homes_foldl_record] at homes
    rw [foldl_record, foldl_record, homes]

/-- The text of a sidecar loads its homes, in whatever order they stand. -/
theorem loads_jsonText (s : Sidecar) : Loads s.homes { s with homes := settle s.homes } :=
  .file ((reads_decode 124 s).decodeText (Json.isWrittenAs_pretty s.toJson))
    (parseJson_jsonText_eq s)

/-- Homes in no order, one of them twice. -/
def scatteredHomes : List TypeHome :=
  [⟨"App.Zeta", "App", "Zeta.cs"⟩, ⟨"App.Beta", "App", "Beta.cs"⟩,
    ⟨"App.Beta", "App", "Old.cs"⟩]

theorem homes_of_recording_of_scattered : ∃ s, Loads scatteredHomes s ∧
    let left :=
      [⟨"App.Zeta", "App", "Models/Zeta.cs"⟩,
        ⟨"Lib.Alpha", "App", "Alpha.cs"⟩].foldl record s
    Settled left.homes ∧
      left.homes.filter (·.typeName == "App.Zeta") =
        [⟨"App.Zeta", "App", "Models/Zeta.cs"⟩] ∧
      left.homes.filter (·.typeName == "App.Beta") = [⟨"App.Beta", "App", "Beta.cs"⟩] ∧
      Finds left.homes "Zeta" (left.findHome? "Zeta") := by
  have start := loads_jsonText ⟨none, [], scatteredHomes⟩
  obtain ⟨settled, homes, -, -, found⟩ := homes_of_recording start
    [⟨"App.Zeta", "App", "Models/Zeta.cs"⟩, ⟨"Lib.Alpha", "App", "Alpha.cs"⟩]
  exact ⟨_, start, settled, homes "App.Zeta", homes "App.Beta", found "Zeta"⟩

end Ambient.Sidecar
