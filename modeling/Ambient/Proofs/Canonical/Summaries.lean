import Ambient.Proofs.Canonical.Printer
import Ambient.Proofs.Rendering.Directives

/-!
# Summaries read back

Markup has no other angle brackets than those of the summary element once those of the text are
entities. So the element is found, no tag is in it, and each entity is decoded to the character it
stands for. Its lines keep nothing but the text.
-/
namespace Ambient

namespace Text

/-- Replacement goes through a text unit by unit. -/
theorem replaceFrom_flatMap {needle new : List Char} {unit unit' : Char → List Char}
    (step : ∀ c r, replaceFrom needle new 0 (unit c ++ r) = unit' c ++ replaceFrom needle new 0 r)
    (cs : List Char) : replaceFrom needle new 0 (cs.flatMap unit) = cs.flatMap unit' := by
  induction cs with
  | nil => rfl
  | cons c r ih => rw [List.flatMap_cons, List.flatMap_cons, step, ih]

theorem cut?_append {first : Char} {a : List Char} (apart : first ∉ a) (needle b : List Char) :
    cut? (first :: needle) (a ++ (first :: needle) ++ b) = some (a, b) := by
  induction a with
  | nil =>
    have here : (first :: needle).isPrefixOf (first :: (needle ++ b)) = true := by simp
    rw [List.nil_append, List.cons_append, cut?, if_pos here]
    simp
  | cons c r ih =>
    have other : ¬ first = c := fun same => apart (same ▸ List.mem_cons_self)
    rw [List.cons_append, List.cons_append, cut?,
      if_neg (by simp [List.isPrefixOf_cons_cons, other]),
      ih fun later => apart (List.mem_cons_of_mem c later)]
    rfl

theorem cut?_eq_none {first : Char} {a : List Char} (apart : first ∉ a) (needle : List Char) :
    cut? (first :: needle) a = none := by
  induction a with
  | nil => rfl
  | cons c r ih =>
    have other : ¬ first = c := fun same => apart (same ▸ List.mem_cons_self)
    rw [cut?, if_neg (by simp [List.isPrefixOf_cons_cons, other]),
      ih fun later => apart (List.mem_cons_of_mem c later)]
    rfl

theorem trim_dropReturn (cs : List Char) : trim (dropReturn cs) = trim cs := by
  unfold dropReturn
  split
  · rename_i r spelled
    have whole : cs = r.reverse ++ ['\r'] := by
      have same := congrArg List.reverse spelled
      simpa using same
    have blank : isBlank '\r' = true := by decide
    rw [whole, trim, trim, trimStart, trimStart, List.dropWhile_append]
    split
    · rename_i none
      rw [List.isEmpty_iff.mp none]
      simp [trimEnd, dropEndWhile, blank]
    · simp [trimEnd, dropEndWhile, blank]
  · rfl

theorem joinWith_cons (sep x : List Char) (xs : List (List Char)) :
    joinWith sep (x :: xs) = x ++ xs.flatMap (sep ++ ·) := by
  induction xs generalizing x with
  | nil => simp [joinWith]
  | cons y more ih => rw [joinWith, ih, List.flatMap_cons, List.append_assoc, List.append_assoc]

/-- Carriage returns at the ends of lines and an empty last line make no difference to the
lines that are kept. -/
theorem tidyLines_eq (cs : List Char) :
    tidyLines cs = ((pieces (· == '\n') cs).map trim).filter (· ≠ []) := by
  unfold tidyLines lines
  generalize pieces (· == '\n') cs = ps
  induction ps with
  | nil => rfl
  | cons first others ih =>
    cases others with
    | nil =>
      by_cases empty : first = []
      · subst empty
        rfl
      · rw [linesOf, if_neg empty]
    | cons next more =>
      rw [linesOf, List.map_cons, List.map_cons, trim_dropReturn, List.filter_cons,
        List.filter_cons, ih]

end Text

namespace Summary

/-- Some characters escaped and the others as they are. -/
def escapeSome (some : List Char) (c : Char) : List Char := if c ∈ some then escapeChar c else [c]

theorem escape_eq (cs : List Char) : escape cs = cs.flatMap (escapeSome ['&', '<', '>']) := by
  have same : escapeChar = escapeSome ['&', '<', '>'] := by
    funext c
    unfold escapeSome
    split
    · rfl
    · rename_i other
      simp only [List.mem_cons, List.not_mem_nil, or_false, not_or] at other
      rw [escapeChar, if_neg other.1, if_neg other.2.1, if_neg other.2.2]
  rw [escape, same]

/-- An entity is looked for in what the characters of markup became, and nowhere else. -/
theorem replaceFrom_escapeSome (needle : List Char) {some some' new : List Char}
    (markup : some ⊆ ['&', '<', '>'] ∧ some' ⊆ ['&', '<', '>'])
    (special : ∀ c ∈ ['&', '<', '>'], ∀ r,
      Text.replaceFrom ('&' :: needle) new 0 (escapeSome some c ++ r) =
        escapeSome some' c ++ Text.replaceFrom ('&' :: needle) new 0 r) (cs : List Char) :
    Text.replaceFrom ('&' :: needle) new 0 (cs.flatMap (escapeSome some)) =
      cs.flatMap (escapeSome some') := by
  refine Text.replaceFrom_flatMap (fun c r => ?_) cs
  by_cases marked : c ∈ ['&', '<', '>']
  · exact special c marked r
  · have plain : escapeSome some c = [c] := if_neg fun h => marked (markup.1 h)
    have plain' : escapeSome some' c = [c] := if_neg fun h => marked (markup.2 h)
    have other : ¬ '&' = c := by
      rintro rfl
      exact marked List.mem_cons_self
    rw [plain, plain', List.singleton_append, Text.replaceFrom,
      if_neg (by simp [List.isPrefixOf_cons_cons, other])]
    rfl

theorem decodeEntities_escape (cs : List Char) : decodeEntities (escape cs) = cs := by
  have lt : Text.replaceAll "&lt;" "<" (cs.flatMap (escapeSome ['&', '<', '>'])) =
      cs.flatMap (escapeSome ['&', '>']) :=
    replaceFrom_escapeSome ['l', 't', ';'] (by simp)
      (by simp [escapeSome, escapeChar, Text.replaceFrom]) cs
  have gt : Text.replaceAll "&gt;" ">" (cs.flatMap (escapeSome ['&', '>'])) =
      cs.flatMap (escapeSome ['&']) :=
    replaceFrom_escapeSome ['g', 't', ';'] (by simp)
      (by simp [escapeSome, escapeChar, Text.replaceFrom]) cs
  have quot : Text.replaceAll "&quot;" "\"" (cs.flatMap (escapeSome ['&'])) =
      cs.flatMap (escapeSome ['&']) :=
    replaceFrom_escapeSome ['q', 'u', 'o', 't', ';'] (by simp)
      (by simp [escapeSome, escapeChar, Text.replaceFrom]) cs
  have apos : Text.replaceAll "&apos;" "'" (cs.flatMap (escapeSome ['&'])) =
      cs.flatMap (escapeSome ['&']) :=
    replaceFrom_escapeSome ['a', 'p', 'o', 's', ';'] (by simp)
      (by simp [escapeSome, escapeChar, Text.replaceFrom]) cs
  have amp : Text.replaceAll "&amp;" "&" (cs.flatMap (escapeSome ['&'])) =
      cs.flatMap (escapeSome []) :=
    replaceFrom_escapeSome ['a', 'm', 'p', ';'] (by simp)
      (by simp [escapeSome, escapeChar, Text.replaceFrom]) cs
  have plain : cs.flatMap (escapeSome []) = cs := by
    have same : escapeSome [] = fun c => [c] := funext fun _ => if_neg List.not_mem_nil
    rw [same, List.flatMap_singleton']
  rw [escape_eq, decodeEntities]
  simp only [List.foldl_cons, List.foldl_nil, lt, gt, quot, apos, amp, plain]

def entities : List (List Char) := ["&amp;".toList, "&lt;".toList, "&gt;".toList]

theorem escapeChar_cases (c : Char) :
    escapeChar c = [c] ∧ c ≠ '<' ∨ escapeChar c ∈ entities := by
  unfold escapeChar
  split
  · exact .inr (by decide)
  · split
    · exact .inr (by decide)
    · split
      · exact .inr (by decide)
      · exact .inl ⟨rfl, ‹_›⟩

theorem angle_not_mem_escape (cs : List Char) : '<' ∉ escape cs := by
  intro h
  obtain ⟨c, -, found⟩ := List.mem_flatMap.mp h
  rcases escapeChar_cases c with ⟨plain, other⟩ | entity
  · rw [plain] at found
    exact other (List.mem_singleton.mp found).symm
  · have none : ∀ e ∈ entities, '<' ∉ e := by decide
    exact none _ entity found

theorem stripTags_eq {cs : List Char} (plain : '<' ∉ cs) : stripTags cs = cs := by
  induction cs with
  | nil => rw [stripTags]
  | cons c r ih =>
    have other : ¬ c = '<' := fun same => plain (same ▸ List.mem_cons_self)
    rw [stripTags, if_neg other, ih fun later => plain (List.mem_cons_of_mem c later)]

/-- The lines of a summary between its tags, each behind a space. -/
def between (lines : List (List Char)) : List Char :=
  Text.joinWith ['\n'] ([] :: lines.map (' ' :: ·) ++ [[' ']])

theorem between_eq (lines : List (List Char)) :
    between lines = (lines.flatMap fun line => '\n' :: ' ' :: line) ++ ['\n', ' '] := by
  rw [between, List.cons_append, Text.joinWith_cons]
  simp [List.flatMap_map]

theorem escape_between (lines : List (List Char)) :
    escape (between lines) = between (lines.map escape) := by
  have feed : escapeChar '\n' = ['\n'] := by decide
  have space : escapeChar ' ' = [' '] := by decide
  rw [between_eq, between_eq]
  induction lines with
  | nil => decide
  | cons line more ih =>
    simp only [escape, List.flatMap_append, List.flatMap_cons, List.map_cons, List.cons_append,
      List.append_assoc, feed, space, List.nil_append] at ih ⊢
    rw [ih]

theorem pieces_between {lines : List (List Char)} (one : ∀ line ∈ lines, '\n' ∉ line) :
    Text.pieces (· == '\n') (between lines) = [] :: lines.map (' ' :: ·) ++ [[' ']] := by
  rw [between, Text.joinWith_eq_intercalate]
  refine Text.pieces_intercalate rfl (by simp) ?_
  intro piece hp d hd
  rw [beq_eq_false_iff_ne]
  rintro rfl
  rcases List.mem_append.mp hp with hp | hp
  · rcases List.mem_cons.mp hp with rfl | hp
    · cases hd
    · obtain ⟨line, there, rfl⟩ := List.mem_map.mp hp
      rcases List.mem_cons.mp hd with space | inside
      · exact absurd space (by decide)
      · exact one line there inside
  · rw [List.mem_singleton.mp hp] at hd
    exact absurd hd (by decide)

theorem joinWith_docs (lines : List (List Char)) :
    Text.joinWith ['\n'] (" <summary>".toList :: lines.map (' ' :: ·) ++ [" </summary>".toList]) =
      [' '] ++ "<summary>".toList ++ (between lines ++ "</summary>".toList) := by
  rw [between_eq, List.cons_append, Text.joinWith_cons]
  simp [List.flatMap_map]

theorem tidyLines_between {lines : List (List Char)} (one : ∀ line ∈ lines, '\n' ∉ line)
    (tidy : ∀ line ∈ lines, Text.IsTidy line) : Text.tidyLines (between lines) = lines := by
  have each : (lines.map (' ' :: ·)).map Text.trim = lines := by
    rw [List.map_map]
    refine List.map_congr_left (fun line there => ?_) |>.trans (List.map_id lines)
    have space : Text.trim (' ' :: line) = Text.trim line := rfl
    exact space.trans (tidy line there).trim_eq
  have kept : lines.filter (· ≠ []) = lines := by
    refine List.filter_eq_self.mpr fun line there => ?_
    obtain ⟨c, _, head, -⟩ := tidy line there
    rw [decide_eq_true_eq]
    rintro rfl
    cases head
  rw [Text.tidyLines_eq, pieces_between one, List.map_append, List.map_cons, each]
  have first : Text.trim [] = [] := rfl
  have last : [[' ']].map Text.trim = [[]] := by decide
  rw [first, last, List.cons_append, List.filter_cons, if_neg (by simp), List.filter_append, kept]
  simp

theorem body?_docs (lines : List (List Char)) :
    body? (Text.joinWith ['\n']
      (" <summary>".toList :: (lines.map escape).map (' ' :: ·) ++ [" </summary>".toList])) =
        some (between (lines.map escape)) := by
  have opening : Text.cut? "<summary>".toList
      ([' '] ++ "<summary>".toList ++ (between (lines.map escape) ++ "</summary>".toList)) =
        some ([' '], between (lines.map escape) ++ "</summary>".toList) :=
    Text.cut?_append (by decide) _ _
  have early : Text.cut? "</summary>".toList [' '] = none := Text.cut?_eq_none (by decide) _
  have plain : '<' ∉ between (lines.map escape) :=
    escape_between lines ▸ angle_not_mem_escape _
  have closing : Text.cut? "</summary>".toList (between (lines.map escape) ++ "</summary>".toList) =
      some (between (lines.map escape), []) := by
    have cut := Text.cut?_append plain "/summary>".toList []
    rwa [List.append_nil] at cut
  rw [joinWith_docs, body?, opening]
  simp only [early, closing]
  rfl

/-- The lines of a summary are read back from its documentation lines. -/
theorem ofDocs_docs {summary : Option String} (tidy : ∀ s ∈ summary, IsTidy s) :
    ofDocs ((docs summary).map String.ofList) = summary := by
  cases summary with
  | none => rfl
  | some s =>
    have tidy := tidy s rfl
    rw [IsTidy] at tidy
    have whole : Text.joinWith ['\n'] (Text.pieces (· == '\n') s.toList) = s.toList := by
      rw [Text.joinWith_eq_intercalate, Text.pieces_eq_splitOnP]
      exact List.intercalate_splitOn '\n'
    have kept : (Text.pieces (· == '\n') s.toList).isEmpty = false :=
      List.isEmpty_eq_false_iff.mpr (Text.pieces_ne_nil s.toList)
    have one : ∀ line ∈ Text.pieces (· == '\n') s.toList, '\n' ∉ line := fun line hl feed =>
      absurd (Text.not_of_mem_pieces line hl '\n' feed) (by decide)
    have lines : ((docs (some s)).map String.ofList).map (·.toList) =
        " <summary>".toList :: ((Text.pieces (· == '\n') s.toList).map escape).map (' ' :: ·) ++
          [" </summary>".toList] := by
      simp [docs]
    generalize Text.pieces (· == '\n') s.toList = ls at *
    have some : ((docs (some s)).map String.ofList).isEmpty = false := rfl
    have plain : '<' ∉ between (ls.map escape) := escape_between ls ▸ angle_not_mem_escape _
    rw [ofDocs, some, lines, body?_docs]
    simp only [Bool.false_eq_true, if_false, stripTags_eq plain]
    rw [← escape_between, decodeEntities_escape, tidyLines_between one tidy, whole, kept]
    simp

end Summary
end Ambient
