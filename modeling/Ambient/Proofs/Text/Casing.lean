import Ambient.Naming

/-!
# Casing names

A small letter has no smaller one, so a name in camel case is its own camel case. A capital may
become several characters and never none, so no name gets shorter.
-/
namespace Ambient

namespace Text

/-- What holds of every code point of a range holds of the characters in it. -/
theorem of_code (P : Char → Prop) (first count : Nat)
    (all : ∀ n ∈ List.range' first count, P (Char.ofNat n))
    {c : Char} (low : first ≤ c.toNat) (high : c.toNat < first + count) : P c := by
  have here := all c.toNat (List.mem_range'_1.mpr ⟨low, high⟩)
  rwa [Char.ofNat_toNat] at here

/-- No code point of the run is among those from `low` to `high`, of which every other one counts
where `step` is two. -/
def CaseRun.misses (low high step : Nat) (r : CaseRun) : Bool :=
  Nat.blt high r.first || Nat.blt r.last low ||
    (Nat.beq r.step 2 && (Nat.beq step 2 || Nat.beq low high) && Nat.beq ((low + r.first) % 2) 1)

/-- The capitals that are not in the table. -/
def otherCapitals : List CaseRun := [⟨0x41, 0x5a, 1, 32⟩, ⟨0x130, 0x130, 1, 0⟩]

theorem caseRuns_miss : ∀ r ∈ caseRuns, (otherCapitals ++ caseRuns).all
    (CaseRun.misses (r.first + r.shift).toNat (r.last + r.shift).toNat r.step) = true := by
  decide +kernel

/-- Every run of capitals leads beyond the controls. -/
theorem caseRuns_beyond : ∀ r ∈ caseRuns, 11 ≤ (r.first : Int) + r.shift := by
  decide +kernel

/-- What a run leads to is in no run that misses it. -/
theorem not_has_of_misses {r s : CaseRun} {n : Nat} (has : r.has n = true)
    (beyond : 11 ≤ (r.first : Int) + r.shift)
    (misses : s.misses (r.first + r.shift).toNat (r.last + r.shift).toNat r.step = true) :
    s.has (n + r.shift).toNat = false := by
  simp only [CaseRun.has, Bool.and_eq_true, decide_eq_true_eq, beq_iff_eq] at has
  obtain ⟨⟨low, high⟩, steps⟩ := has
  simp only [CaseRun.misses, Bool.or_eq_true, Bool.and_eq_true, Nat.blt_eq, Nat.beq_eq] at misses
  refine eq_false_of_ne_true fun there => ?_
  simp only [CaseRun.has, Bool.and_eq_true, decide_eq_true_eq, beq_iff_eq] at there
  obtain ⟨⟨low', high'⟩, steps'⟩ := there
  rcases misses with (above | below) | ⟨⟨two, even | single⟩, odd⟩
  · omega
  · omega
  · rw [even] at steps
    rw [two] at steps'
    omega
  · rw [two] at steps'
    omega

/-- A small letter is its own small letter. -/
theorem lowercase_small {r : CaseRun} (member : r ∈ caseRuns) {n : Nat} (has : r.has n = true) :
    lowercase (Char.ofNat (n + r.shift).toNat) = [Char.ofNat (n + r.shift).toNat] := by
  have apart : ∀ s ∈ otherCapitals ++ caseRuns, s.has (n + r.shift).toNat = false := fun s hs =>
    not_has_of_misses has (caseRuns_beyond r member)
      (List.all_eq_true.mp (caseRuns_miss r member) s hs)
  generalize (n + r.shift).toNat = m at apart
  by_cases valid : m.isValidChar
  · have whole : Char.ofNat m = Char.ofNatAux m valid := dif_pos valid
    have code : (Char.ofNat m).toNat = m := by rw [whole]; rfl
    have ascii := apart ⟨0x41, 0x5a, 1, 32⟩ (by simp [otherCapitals])
    have dotted := apart ⟨0x130, 0x130, 1, 0⟩ (by simp [otherCapitals])
    have none : caseRuns.find? (·.has m) = none :=
      List.find?_eq_none.mpr fun s hs => by simp [apart s (List.mem_append_right _ hs)]
    simp only [CaseRun.has, Nat.mod_one, beq_self_eq_true, Bool.and_true, Bool.and_eq_false_iff,
      decide_eq_false_iff_not] at ascii dotted
    rw [lowercase, code, none]
    split
    · have small : ¬ (Char.ofNat m ≥ 'A' ∧ Char.ofNat m ≤ 'Z') := by
        rintro ⟨low, high⟩
        have low : 65 ≤ (Char.ofNat m).toNat := low
        have high : (Char.ofNat m).toNat ≤ 90 := high
        omega
      exact congrArg ([·]) (dif_neg small)
    split
    · omega
    · rfl
  · have zero : Char.ofNat m = ⟨0, .inl (by decide)⟩ := dif_neg valid
    rw [zero]
    decide

/-- The first character that a character becomes has no other small letter. -/
theorem exists_lowercase (c : Char) :
    ∃ d more, lowercase c = d :: more ∧ lowercase d = [d] := by
  by_cases ascii : c.toNat < 128
  · have small := of_code (fun c => lowercase c.toLower = [c.toLower]) 0 128 (by decide +kernel)
      (Nat.zero_le _) ascii
    exact ⟨c.toLower, [], if_pos ascii, small⟩
  by_cases dotted : c.toNat = 0x130
  · refine ⟨'i', [Char.ofNat 0x307], ?_, by decide⟩
    rw [lowercase, if_neg ascii, if_pos dotted]
  cases found : caseRuns.find? (·.has c.toNat) with
  | none =>
    have same : lowercase c = [c] := by rw [lowercase, if_neg ascii, if_neg dotted, found]
    exact ⟨c, [], same, same⟩
  | some r =>
    have small : lowercase c = [Char.ofNat (c.toNat + r.shift).toNat] := by
      rw [lowercase, if_neg ascii, if_neg dotted, found]
    have has := List.find?_some found
    exact ⟨_, [], small, lowercase_small (List.mem_of_find?_eq_some found) has⟩

end Text

theorem camelCase_camelCase (name : String) : camelCase (camelCase name) = camelCase name := by
  cases chars : name.toList with
  | nil =>
    have none : camelCase name = "" := by rw [camelCase, chars]
    rw [none]
    decide
  | cons c r =>
    obtain ⟨d, more, lower, small⟩ := Text.exists_lowercase c
    have whole : camelCase name = String.ofList (d :: (more ++ r)) := by
      rw [camelCase, chars]
      simp only [lower, List.cons_append]
    rw [whole, camelCase, String.toList_ofList]
    simp only [small, List.cons_append, List.nil_append]

theorem length_le_camelCase (name : String) : name.length ≤ (camelCase name).length := by
  rw [← String.length_toList, ← String.length_toList]
  cases chars : name.toList with
  | nil => exact Nat.zero_le _
  | cons c r =>
    obtain ⟨d, more, lower, -⟩ := Text.exists_lowercase c
    rw [camelCase, chars]
    simp only [lower, String.toList_ofList, List.length_append, List.length_cons]
    omega

namespace Options
variable (o : Options)

theorem enumValueName_enumValueName (name : String) :
    o.enumValueName (o.enumValueName name) = o.enumValueName name := by
  unfold enumValueName cased
  split
  · exact camelCase_camelCase name
  · rfl

theorem length_le_enumValueName (name : String) :
    name.length ≤ (o.enumValueName name).length := by
  unfold enumValueName cased
  split
  · exact length_le_camelCase name
  · exact Nat.le_refl _

end Options
end Ambient
