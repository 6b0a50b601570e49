import Ambient.Text.Blank
import Mathlib.Data.List.Basic

/-!
# Trimming

What is dropped from the ends of a text ends where the first character stands that stays.
-/
namespace Ambient.Text
variable {α : Type} {p : α → Bool} {front back : List α} {cs cs' : List Char}

theorem dropWhile_append_left (drops : ∀ c ∈ front, p c = true)
    (stays : ∀ c ∈ back.head?, p c = false) :
    (front ++ back).dropWhile p = back := by
  rw [List.dropWhile_append_of_pos drops]
  cases back with
  | nil => rfl
  | cons c r => exact List.dropWhile_cons_of_neg (by simp [stays c rfl])

theorem dropEndWhile_append_right (stays : ∀ c ∈ front.getLast?, p c = false)
    (drops : ∀ c ∈ back, p c = true) : dropEndWhile p (front ++ back) = front := by
  rw [dropEndWhile, List.reverse_append, dropWhile_append_left, List.reverse_reverse]
  · intro c hc
    exact drops c (List.mem_reverse.mp hc)
  · rwa [List.head?_reverse]

/-- No white space stands at either end, and something between. -/
def IsTidy (cs : List Char) : Prop :=
  ∃ c d, cs.head? = some c ∧ cs.getLast? = some d ∧ isBlank c = false ∧ isBlank d = false

theorem isTidy_between {c d : Char} (first : isBlank c = false) (cs : List Char)
    (last : isBlank d = false) : IsTidy (c :: (cs ++ [d])) :=
  ⟨c, d, rfl, by rw [← List.cons_append, List.getLast?_concat], first, last⟩

theorem isTidy_cons {c : Char} {r : List Char} (head : isBlank c = false)
    (last : ∀ d ∈ (c :: r).getLast?, isBlank d = false) : IsTidy (c :: r) := by
  have some := List.getLast?_eq_some_getLast (List.cons_ne_nil c r)
  exact ⟨c, _, rfl, some, head, last _ some⟩

namespace IsTidy

theorem append (h : IsTidy cs) (h' : IsTidy cs') : IsTidy (cs ++ cs') := by
  obtain ⟨c, _, head, _, first, _⟩ := h
  obtain ⟨_, d, _, tail, _, last⟩ := h'
  refine ⟨c, d, ?_, ?_, first, last⟩
  · rw [List.head?_append, head]
    rfl
  · rw [List.getLast?_append, tail]
    rfl

/-- White space around a tidy text is removed up to the text. -/
theorem trim_between {before after : List Char} (h : IsTidy cs)
    (blank : ∀ c ∈ before ++ after, isBlank c = true) :
    trim (before ++ (cs ++ after)) = cs := by
  obtain ⟨c, d, head, tail, first, last⟩ := h
  have start : trimStart (before ++ (cs ++ after)) = cs ++ after := by
    refine dropWhile_append_left (fun e he => blank e (List.mem_append_left _ he)) fun e he => ?_
    rw [List.head?_append, head, Option.some_or] at he
    cases he
    exact first
  rw [trim, start]
  refine dropEndWhile_append_right (fun e he => ?_) fun e he => blank e (List.mem_append_right _ he)
  cases tail.symm.trans he
  exact last

theorem trim_eq (h : IsTidy cs) : trim cs = cs := by
  have alone := @trim_between cs [] [] h (List.forall_mem_nil _)
  rwa [List.nil_append, List.append_nil] at alone

end IsTidy

theorem trim_eq_trimEnd {c : Char} (q : List Char) (head : isBlank c = false) :
    trim (c :: q) = trimEnd (c :: q) := by
  rw [trim, trimStart, List.dropWhile_cons_of_neg (by simp [head])]

theorem head_trim {c : Char} (q : List Char) (head : isBlank c = false) :
    ∃ q', trim (c :: q) = c :: q' := by
  have here : (trimEnd (c :: q)).head? = some c := by
    rw [trimEnd, dropEndWhile, List.reverse_cons, List.dropWhile_append]
    split
    · rw [List.dropWhile_cons_of_neg (by simp [head])]
      rfl
    · rw [List.reverse_append]
      rfl
  rw [trim_eq_trimEnd q head]
  obtain ⟨q', chars⟩ := List.head?_eq_some_iff.mp here
  exact ⟨q', chars⟩

theorem isTidy_trim (some : trim cs ≠ []) : IsTidy (trim cs) := by
  have head := List.head?_dropWhile_not isBlank cs
  have last := List.head?_dropWhile_not isBlank (trimStart cs).reverse
  cases start : trimStart cs with
  | nil => exact absurd (by rw [trim, start]; rfl) some
  | cons c q =>
    rw [trimStart] at start
    rw [start] at head
    obtain ⟨q', shown⟩ := head_trim q head
    rw [trim_eq_trimEnd q head] at shown
    have whole : trim cs = c :: q' := by
      rw [trim, trimStart, start, shown]
    rw [whole]
    refine isTidy_cons head fun d hd => ?_
    rw [← whole, trim, trimEnd, dropEndWhile, List.getLast?_reverse] at hd
    rw [hd] at last
    exact last

theorem trim_trim (cs : List Char) : trim (trim cs) = trim cs := by
  by_cases some : trim cs = []
  · rw [some]
    rfl
  · exact (isTidy_trim some).trim_eq

/-- White space goes off the end of what comes last. -/
theorem trim_append {c : Char} {r u : List Char} (head : isBlank c = false) {d : Char}
    (there : d ∈ u) (solid : isBlank d = false) :
    ∃ v, v ≠ [] ∧ v <+: u ∧ trim (c :: r ++ u) = c :: r ++ v := by
  have some : u.reverse.dropWhile isBlank ≠ [] := by
    intro none
    have whole := List.takeWhile_append_dropWhile (p := isBlank) (l := u.reverse)
    have all := List.all_takeWhile (p := isBlank) (l := u.reverse)
    rw [none, List.append_nil] at whole
    rw [whole, List.all_reverse, List.all_eq_true] at all
    rw [all d there] at solid
    cases solid
  refine ⟨(u.reverse.dropWhile isBlank).reverse, ?_, ?_, ?_⟩
  · rwa [Ne, List.reverse_eq_nil_iff]
  · rw [← List.reverse_suffix, List.reverse_reverse]
    exact List.dropWhile_suffix isBlank
  · rw [List.cons_append, trim_eq_trimEnd _ head, ← List.cons_append, trimEnd, dropEndWhile,
      List.reverse_append, List.dropWhile_append, List.isEmpty_eq_false_iff.mpr some]
    simp

theorem blank_append (a b : String) : blank (a ++ b) = (blank a && blank b) := by
  simp only [blank, String.toList_append, List.all_append]

end Ambient.Text
