import Ambient.Proofs.Summary.Offsets
import Ambient.Proofs.Text.OneLine
import Ambient.Proofs.Text.Trimming
import Ambient.Render

/-!
# Comments of summaries

A summary that is read consists of lines with something on them and no white space around it. One
that is written is put on one line, and as each terminator in it is broken up, the comment ends
where it is closed and not before.
-/
namespace Ambient

namespace Text
variable {cs line : List Char}

theorem isTidy_of_mem_tidyLines (h : line ∈ tidyLines cs) : IsTidy line ∧ '\n' ∉ line := by
  obtain ⟨kept, some⟩ := List.mem_filter.mp h
  obtain ⟨whole, hw, rfl⟩ := List.mem_map.mp kept
  exact ⟨isTidy_trim (of_decide_eq_true some),
    fun feed => newline_notMem_of_mem_lines hw (trim_subset whole feed)⟩

theorem head?_replaceFrom (c : Char) (needle new cs : List Char) :
    (replaceFrom (c :: needle) (c :: new) 0 cs).head? = cs.head? := by
  cases cs with
  | nil => rfl
  | cons d r =>
    rw [replaceFrom]
    split
    · rename_i here
      have same : c = d := by simp_all [List.isPrefixOf_cons_cons]
      rw [same]
      rfl
    · rfl

/-- With its terminators broken up, a text has none: what comes of one has none, and what is kept
starts as it started. -/
theorem terminator_not_infix (skip : Nat) (cs : List Char) :
    ¬ ['*', '/'] <:+: replaceFrom ['*', '/'] ['*', '\\', '/'] skip cs := by
  fun_induction replaceFrom ['*', '/'] ['*', '\\', '/'] skip cs with
  | case1 => simp
  | case2 skip c r ih => exact ih
  | case3 c r _ ih => simpa [List.infix_cons_iff] using ih
  | case4 c r other ih =>
    intro found
    rcases List.infix_cons_iff.mp found with here | later
    · obtain ⟨rfl, next⟩ := List.cons_prefix_cons.mp here
      have slash : (replaceFrom ['*', '/'] ['*', '\\', '/'] 0 r).head? = some '/' := by
        obtain ⟨t, shown⟩ := next
        rw [← shown]
        rfl
      rw [head?_replaceFrom] at slash
      obtain ⟨t, rfl⟩ := List.head?_eq_some_iff.mp slash
      exact other rfl
    · exact ih later

theorem terminator_not_infix_concat {c : Char} (free : ¬ ['*', '/'] <:+: cs) (other : c ≠ '/') :
    ¬ ['*', '/'] <:+: cs ++ [c] := by
  intro found
  rcases List.infix_concat_iff.mp found with ⟨t, last⟩ | before
  · have same := congrArg List.getLast? last
    rw [List.getLast?_concat, List.getLast?_append] at same
    exact other (Option.some.inj same).symm
  · exact free before

/-- A comment around a text without a terminator has none but the one that closes it. -/
theorem eq_nil_of_terminator {a b : List Char} (free : ¬ ['*', '/'] <:+: cs)
    (whole : ['/', '*', '*', ' '] ++ cs ++ [' ', '*', '/'] = a ++ ['*', '/'] ++ b) : b = [] := by
  have opened : ¬ ['*', '/'] <:+: ['/', '*', '*', ' '] ++ cs := by
    simpa [List.infix_cons_iff] using free
  have inside : ¬ ['*', '/'] <:+: ['/', '*', '*', ' '] ++ cs ++ [' '] ++ ['*'] :=
    terminator_not_infix_concat (terminator_not_infix_concat opened (by decide)) (by decide)
  rcases List.eq_nil_or_concat b with none | ⟨b', last, rfl⟩
  · exact none
  · rw [List.concat_eq_append] at whole
    have same : (['/', '*', '*', ' '] ++ cs ++ [' '] ++ ['*']) ++ ['/'] =
        (a ++ ['*', '/'] ++ b') ++ [last] := by
      simpa using whole
    exact absurd ⟨a, b', (List.append_inj_left' same rfl).symm⟩ inside

end Text

namespace Summary
open Text

theorem exists_lines_of_ofDocs {docs : List String} {s : String} (h : ofDocs docs = some s) :
    ∃ lines, lines ≠ [] ∧ s.toList = joinWith ['\n'] lines ∧
      ∀ line ∈ lines, IsTidy line ∧ '\n' ∉ line := by
  unfold ofDocs at h
  split at h
  · cases h
  split at h
  · cases h
  simp only at h
  split at h
  · cases h
  · rename_i body _ some
    cases h
    refine ⟨_, ?_, String.toList_ofList, fun line hl => isTidy_of_mem_tidyLines hl⟩
    rwa [Bool.not_eq_true, List.isEmpty_eq_false_iff] at some

end Summary

namespace Render
open Text

theorem docText_eq_nil_iff {summary : String} :
    docText summary = [] ↔ tidyLines summary.toList = [] := by
  unfold docText
  constructor
  · intro none
    cases kept : tidyLines summary.toList with
    | nil => rfl
    | cons line more =>
      obtain ⟨⟨c, -, head, -⟩, -⟩ := isTidy_of_mem_tidyLines (kept ▸ List.mem_cons_self)
      have first : (joinWith [' '] (line :: more)).head? = some c := by
        cases more with
        | nil => exact head
        | cons next rest =>
          rw [joinWith, List.append_assoc, List.head?_append, head]
          rfl
      rw [kept, replaceAll] at none
      have same := head?_replaceFrom '*' ['/'] ['\\', '/'] (joinWith [' '] (line :: more))
      rw [first] at same
      exact absurd (same.symm.trans (congrArg List.head? none)) nofun
  · intro none
    rw [none]
    rfl

/-- A comment: its text between an opening and a closing. -/
def comment (text : String) : String := "/** " ++ text ++ " */"

theorem doc_cases (indent : String) (summary : Option String) :
    (∀ s ∈ summary, tidyLines s.toList = []) ∧ doc indent summary = "" ∨
      ∃ s ∈ summary, docText s ≠ [] ∧
        doc indent summary = indent ++ comment (String.ofList (docText s)) ++ "\n" := by
  cases summary with
  | none => exact .inl ⟨nofun, rfl⟩
  | some s =>
    by_cases none : docText s = []
    · refine .inl ⟨fun t ht => ?_, ?_⟩
      · cases ht
        exact docText_eq_nil_iff.mp none
      · rw [doc, Option.map_some, none]
    · refine .inr ⟨s, rfl, none, ?_⟩
      have ending : " */\n" = " */" ++ "\n" := rfl
      rw [doc, Option.map_some]
      split
      · rename_i nothing
        cases nothing
      · rename_i nothing
        cases none (Option.some.inj nothing)
      · rename_i text _ same
        cases same
        simp only [comment, ending, String.append_assoc]

theorem oneLine_comment (summary : String) : OneLine (comment (String.ofList (docText summary))) :=
  .append (.append (by decide) (.ofList (newline_notMem_docText summary))) (by decide)

theorem eq_empty_of_comment (summary a b : String)
    (whole : comment (String.ofList (docText summary)) = a ++ "*/" ++ b) : b = "" := by
  have chars := congrArg String.toList whole
  simp only [comment, String.toList_append, String.toList_ofList] at chars
  have free := terminator_not_infix 0 (joinWith [' '] (tidyLines summary.toList))
  exact String.toList_eq_nil_iff.mp (eq_nil_of_terminator free chars)

end Render

open Text

/-- A summary is read from any documentation lines without an offset that is none of theirs, and if
there is one, it consists of lines with something on them and no white space around it. Any summary
is written as nothing, if there is nothing on its lines, or as a comment on one line that ends
where it is closed. -/
theorem summaries_contained :
    (∀ docs, Summary.ofDocsSlice? docs = some (Summary.ofDocs docs) ∧
      ∀ s ∈ Summary.ofDocs docs, ∃ lines, lines ≠ [] ∧
        s.toList = joinWith ['\n'] lines ∧ ∀ line ∈ lines, IsTidy line ∧ '\n' ∉ line) ∧
      ∀ (indent : String) (summary : Option String),
        (∀ s ∈ summary, tidyLines s.toList = []) ∧ Render.doc indent summary = "" ∨
        ∃ text, text ≠ "" ∧ Render.doc indent summary =
          indent ++ Render.comment text ++ "\n" ∧ OneLine (Render.comment text) ∧
          ∀ a b, Render.comment text = a ++ "*/" ++ b → b = "" := by
  refine ⟨fun docs => ⟨Summary.ofDocsSlice?_eq docs, fun s read => ?_⟩,
    fun indent summary => ?_⟩
  · exact Summary.exists_lines_of_ofDocs read
  · rcases Render.doc_cases indent summary with nothing | ⟨s, -, some, written⟩
    · exact .inl nothing
    · refine .inr ⟨_, ?_, written, Render.oneLine_comment s, Render.eq_empty_of_comment s⟩
      intro none
      rw [← String.toList_eq_nil_iff, String.toList_ofList] at none
      exact some none

/-- Breaking up one terminator makes no other, and neither does a line that starts with a slash. -/
example : Render.doc "\t" (some "ends **//\n  / */") = "\t/** ends **\\// / *\\/ */\n" := by
  decide +kernel

end Ambient
