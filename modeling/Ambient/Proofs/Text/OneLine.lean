import Ambient.Initializer
import Ambient.Naming
import Ambient.Proofs.Rendering.Directives
import Ambient.Proofs.Source.Words
import Ambient.Proofs.Text.Casing
import Ambient.Proofs.Text.Pieces

/-!
# Texts on one line

The parts that a declaration is put together from lie on one line each: names in any case, quoted
names, summaries and, where they are written so, initializers.
-/
namespace Ambient

namespace Text

/-- Nothing in the text ends its line. -/
def OneLine (text : String) : Prop := '\n' ∉ text.toList

instance : DecidablePred OneLine := fun text => inferInstanceAs (Decidable ('\n' ∉ text.toList))

namespace OneLine
variable {a b : String}

theorem append (ha : OneLine a) (hb : OneLine b) : OneLine (a ++ b) := by
  unfold OneLine at *
  rw [String.toList_append, List.mem_append, not_or]
  exact ⟨ha, hb⟩

theorem ofList {cs : List Char} (h : '\n' ∉ cs) : OneLine (String.ofList cs) := by
  unfold OneLine
  rwa [String.toList_ofList]

theorem intercalate {sep : String} {parts : List String} (hs : OneLine sep)
    (each : ∀ part ∈ parts, OneLine part) : OneLine (sep.intercalate parts) := by
  cases parts with
  | nil => exact List.not_mem_nil
  | cons first more =>
    induction more generalizing first with
    | nil => simpa using each first List.mem_cons_self
    | cons next rest ih =>
      rw [String.intercalate_cons_cons]
      refine ((each first List.mem_cons_self).append hs).append (ih next fun part hp => ?_)
      exact each part (List.mem_cons_of_mem first hp)

end OneLine

end Text

open Text

theorem IsWord.oneLine {name : String} (h : IsWord name) : OneLine name := h.not_mem (by decide)

theorem IsDotted.oneLine {name : String} (h : IsDotted name) : OneLine name :=
  h.not_mem (by decide) (by decide)

namespace Text

theorem ofNat_ne_newline {n : Nat} (h : 11 ≤ n) : Char.ofNat n ≠ '\n' := by
  by_cases valid : n.isValidChar
  · intro same
    have whole : Char.ofNat n = Char.ofNatAux n valid := dif_pos valid
    have code : (Char.ofNatAux n valid).toNat = n := rfl
    have ten : '\n'.toNat = 10 := rfl
    rw [← whole, same, ten] at code
    omega
  · have none : Char.ofNat n = ⟨0, .inl (by decide)⟩ := dif_neg valid
    rw [none]
    decide

theorem toLower_ne_newline : ∀ n < 128, n ≠ 10 → (Char.ofNat n).toLower ≠ '\n' := by
  decide

theorem newline_notMem_lowercase {c : Char} (h : c ≠ '\n') : '\n' ∉ lowercase c := by
  unfold lowercase
  split
  · rename_i ascii
    have other : c.toNat ≠ 10 := fun ten => h (Char.ofNat_toNat c ▸ congrArg Char.ofNat ten)
    have small := toLower_ne_newline c.toNat ascii other
    rw [Char.ofNat_toNat] at small
    rw [List.mem_singleton]
    exact small.symm
  split
  · decide
  split
  · rename_i r found
    rw [List.mem_singleton]
    have member := List.mem_of_find?_eq_some found
    have has := List.find?_some found
    have beyond := caseRuns_beyond r member
    simp only [CaseRun.has, Bool.and_eq_true, decide_eq_true_eq] at has
    exact (ofNat_ne_newline (by omega)).symm
  · rw [List.mem_singleton]
    exact h.symm

end Text

theorem oneLine_camelCase {name : String} (h : OneLine name) : OneLine (camelCase name) := by
  unfold camelCase
  split
  · decide
  · rename_i c r spelled
    unfold OneLine at h
    rw [spelled, List.mem_cons, not_or] at h
    refine .ofList ?_
    rw [List.mem_append, not_or]
    exact ⟨newline_notMem_lowercase (Ne.symm h.1), h.2⟩

theorem oneLine_cased {name : String} (enabled : Bool) (h : OneLine name) :
    OneLine (cased enabled name) := by
  unfold cased
  split
  · exact oneLine_camelCase h
  · exact h

namespace Options
variable {o : Options} {name : String}

theorem oneLine_typeName (h : OneLine name) : OneLine (o.typeName name) := oneLine_cased _ h

theorem oneLine_propertyName (h : OneLine name) : OneLine (o.propertyName name) := oneLine_cased _ h

theorem oneLine_enumValueName (h : OneLine name) : OneLine (o.enumValueName name) :=
  oneLine_cased _ h

end Options

theorem oneLine_of_isIdentifier {name : String} (h : isIdentifier name = true) : OneLine name := by
  unfold isIdentifier at h
  unfold OneLine
  split at h
  · cases h
  · rename_i c r spelled
    rw [Bool.and_eq_true, List.all_eq_true] at h
    rw [spelled]
    intro feed
    rcases List.mem_cons.mp feed with rfl | later
    · exact absurd h.1 (by decide)
    · exact absurd (h.2 '\n' later) (by decide)

theorem Json.hexDigit_ne_newline : ∀ n < 16, hexDigit n ≠ '\n' := by decide

theorem Json.newline_notMem_quoteChar (c : Char) : '\n' ∉ quoteChar c := by
  by_cases feed : c = '\n'
  · subst feed
    decide
  · unfold quoteChar
    split
    · decide
    split
    · decide
    split
    · decide
    split
    · decide
    split
    · decide
    split
    · decide
    split
    · rename_i control
      have high := hexDigit_ne_newline (c.toNat / 16) (by omega)
      have low := hexDigit_ne_newline (c.toNat % 16) (by omega)
      simp [high.symm, low.symm]
    · rw [List.mem_singleton]
      exact Ne.symm feed

theorem Json.oneLine_quote (s : String) : OneLine (quote s) := by
  refine .ofList ?_
  unfold quoteChars
  simp only [List.cons_append, List.mem_cons, List.mem_append, List.mem_flatMap, List.not_mem_nil,
    or_false, not_or, not_exists, not_and]
  exact ⟨by decide, fun c _ => newline_notMem_quoteChar c, by decide⟩

/-- An explicit name is declared on one line whatever it is, any other name as far
as it is on one. -/
theorem Options.oneLine_memberName {τ : Type} {o : Options} {m : MemberOf τ}
    (h : m.explicitName = false → OneLine m.shownName) : OneLine (o.memberName m) := by
  unfold memberName
  by_cases explicit : m.explicitName = true
  · rw [if_pos explicit]
    refine .append ?_ ?_
    · split
      · exact oneLine_of_isIdentifier (by assumption)
      · exact Json.oneLine_quote _
    · split <;> decide
  · rw [if_neg explicit]
    exact oneLine_propertyName (h (eq_false_of_ne_true explicit))

namespace Text

theorem subset_replaceFrom (needle new : List Char) (skip : Nat) (cs : List Char) :
    replaceFrom needle new skip cs ⊆ new ++ cs := by
  fun_induction replaceFrom needle new skip cs with
  | case1 => exact List.nil_subset _
  | case2 skip c r ih =>
    intro d hd
    rcases List.mem_append.mp (ih hd) with here | later
    · exact List.mem_append_left _ here
    · exact List.mem_append_right _ (List.mem_cons_of_mem c later)
  | case3 c r _ ih =>
    intro d hd
    rcases List.mem_append.mp hd with here | later
    · exact List.mem_append_left _ here
    · rcases List.mem_append.mp (ih later) with here | later
      · exact List.mem_append_left _ here
      · exact List.mem_append_right _ (List.mem_cons_of_mem c later)
  | case4 c r _ ih =>
    intro d hd
    rcases List.mem_cons.mp hd with rfl | later
    · exact List.mem_append_right _ List.mem_cons_self
    · rcases List.mem_append.mp (ih later) with here | later
      · exact List.mem_append_left _ here
      · exact List.mem_append_right _ (List.mem_cons_of_mem c later)

theorem trim_subset (cs : List Char) : trim cs ⊆ cs :=
  fun _ hd => (List.dropWhile_suffix _).subset ((List.rdropWhile_prefix _ _).subset hd)

end Text

theorem Render.newline_notMem_docText (summary : String) : '\n' ∉ docText summary := by
  have each : ∀ line ∈ tidyLines summary.toList, '\n' ∉ line := by
    intro line hl
    obtain ⟨whole, hw, rfl⟩ := List.mem_map.mp (List.mem_filter.mp hl).1
    exact fun feed => newline_notMem_of_mem_lines hw (trim_subset whole feed)
  have tidy : OneLine (" ".intercalate ((tidyLines summary.toList).map String.ofList)) := by
    refine .intercalate (by decide) fun part hp => ?_
    obtain ⟨line, hl, rfl⟩ := List.mem_map.mp hp
    exact .ofList (each line hl)
  have spelled : (" ".intercalate ((tidyLines summary.toList).map String.ofList)).toList =
      joinWith [' '] (tidyLines summary.toList) := by
    rw [String.toList_intercalate, joinWith_eq_intercalate, List.map_map]
    simp [Function.comp_def]
  unfold OneLine at tidy
  rw [spelled] at tidy
  intro feed
  rcases List.mem_append.mp (subset_replaceFrom _ _ 0 _ feed) with new | old
  · exact absurd new (by decide)
  · exact tidy old

theorem Initializer.oneLine_clean {value : String} (h : OneLine value) : OneLine (clean value) := by
  have inside : '\n' ∉ trim value.toList := fun feed => h (trim_subset _ feed)
  have parts : '\n' ∉ (splitSign (trim value.toList)).1 ∧
      '\n' ∉ (splitSign (trim value.toList)).2 := by
    generalize trim value.toList = cs at inside
    unfold splitSign
    split
    · rename_i r
      rw [List.mem_cons, not_or] at inside
      have sign : '\n' ∉ ['-'] := by decide
      exact ⟨sign, fun feed => inside.2 ((List.dropWhile_suffix _).subset feed)⟩
    · exact ⟨List.not_mem_nil, inside⟩
  have digits : '\n' ∉ dropEndWhile isSuffix (splitSign (trim value.toList)).2 :=
    fun feed => parts.2 ((List.rdropWhile_prefix _ _).subset feed)
  refine .ofList ?_
  unfold cleanChars
  simp only
  split
  · exact inside
  split
  · rw [List.mem_append, not_or]
    exact ⟨parts.1, digits⟩
  split
  · decide
  · rw [List.mem_append, not_or]
    exact ⟨parts.1, fun feed => digits ((List.dropWhile_suffix _).subset feed)⟩

end Ambient
