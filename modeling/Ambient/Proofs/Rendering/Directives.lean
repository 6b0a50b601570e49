import Ambient.Proofs.Text.Pieces
import Ambient.Render
import Mathlib.Data.List.DropRight
import Mathlib.Data.String.Basic

/-!
# Directives read back

A directive whose path lies on one line is read back with this path. Of what follows the directives
no line is taken for one if none starts with two slashes; whether a text has such a line is found by
going through it once.
-/
namespace Ambient

namespace Text
variable {a : List Char}

theorem lines_cons (line : '\n' ∉ a) (b : List Char) :
    lines (a ++ '\n' :: b) = dropReturn a :: lines b := by
  have alone : pieces (· == '\n') a = [a] := pieces_of_forall fun d hd => by
    rw [beq_eq_false_iff_ne]
    rintro rfl
    exact line hd
  unfold lines
  rw [pieces_append_cons rfl, alone, List.singleton_append]
  cases rest : pieces (· == '\n') b with
  | nil => exact absurd rest (pieces_ne_nil b)
  | cons next more => rw [linesOf]

theorem dropReturn_prefix (a : List Char) : dropReturn a <+: a := by
  unfold dropReturn
  split
  · rename_i r spelled
    have whole : a = r.reverse ++ ['\r'] := by
      have same := congrArg List.reverse spelled
      simpa using same
    rw [whole]
    exact List.prefix_append _ _
  · exact List.prefix_rfl

/-- A line is a piece between line feeds, carriage returns at its end aside. -/
theorem exists_prefix_of_mem_linesOf {ps : List (List Char)} {line : List Char}
    (h : line ∈ linesOf ps) : ∃ p ∈ ps, line <+: p := by
  fun_induction linesOf ps with
  | case1 => simp at h
  | case2 => simp at h
  | case3 last some =>
    rw [List.mem_singleton] at h
    exact ⟨last, List.mem_cons_self, h ▸ List.prefix_rfl⟩
  | case4 first next more ih =>
    rcases List.mem_cons.mp h with rfl | later
    · exact ⟨first, List.mem_cons_self, dropReturn_prefix first⟩
    · obtain ⟨p, hp, found⟩ := ih later
      exact ⟨p, List.mem_cons_of_mem _ hp, found⟩

theorem newline_notMem_of_mem_lines {cs line : List Char} (h : line ∈ lines cs) :
    '\n' ∉ line := by
  obtain ⟨p, hp, starts⟩ := exists_prefix_of_mem_linesOf h
  intro feed
  exact absurd (not_of_mem_pieces p hp '\n' (starts.subset feed)) (by decide)

end Text

/-- Where a text stands that is gone through: at the start of a line, behind a slash there, or
elsewhere. -/
inductive Spot where
  | start
  | slash
  | inside
  deriving DecidableEq

namespace Spot

/-- The spot after a character, unless the second slash of a line stands there. -/
def step : Spot → Char → Option Spot
  | slash, '/' => none
  | start, '/' => some slash
  | _, c => if c = '\n' then some start else some inside

def follow (s : Spot) (cs : List Char) : Option Spot := cs.foldlM step s

/-- The text leads from one spot to another. -/
def Leads (s : Spot) (text : String) (t : Spot) : Prop := s.follow text.toList = some t

instance (s t : Spot) (text : String) : Decidable (Leads s text t) :=
  inferInstanceAs (Decidable (s.follow text.toList = some t))

variable {s t u : Spot} {a b text : String}

theorem Leads.append (first : Leads s a t) (second : Leads t b u) : Leads s (a ++ b) u := by
  unfold Leads follow at *
  rw [String.toList_append, List.foldlM_append, first]
  exact second

theorem Leads.append_two {c : String} (first : Leads s a t) (second : Leads t (b ++ c) u) :
    Leads s (a ++ b ++ c) u := by
  rw [String.append_assoc]
  exact first.append second

theorem leads_empty : Leads s "" s := rfl

/-- Inside a line nothing but its end matters. -/
theorem leads_inside (line : '\n' ∉ text.toList) : Leads inside text inside := by
  unfold Leads
  generalize text.toList = cs at line ⊢
  induction cs with
  | nil => rfl
  | cons c r ih =>
    have other : c ≠ '\n' := fun same => line (same ▸ List.mem_cons_self)
    have here : step inside c = some inside := by simp [step, other]
    rw [follow, List.foldlM_cons, here]
    exact ih fun h => line (List.mem_cons_of_mem c h)

theorem leads_join {texts : List String} (each : ∀ x ∈ texts, Leads s x s) :
    Leads s (String.join texts) s := by
  induction texts with
  | nil => exact leads_empty
  | cons x more ih =>
    rw [String.join_cons]
    exact (each x List.mem_cons_self).append (ih fun y hy => each y (List.mem_cons_of_mem x hy))

theorem not_prefix_of_follow {cs : List Char} (h : s.follow cs = some t) :
    ∃ first others, Text.pieces (· == '\n') cs = first :: others ∧
      (s = start → ¬ ['/', '/'] <+: first) ∧ (s = slash → ¬ ['/'] <+: first) ∧
      ∀ line ∈ others, ¬ ['/', '/'] <+: line := by
  induction cs generalizing s with
  | nil => exact ⟨[], [], rfl, by simp, by simp, by simp⟩
  | cons c r ih =>
    rw [follow, List.foldlM_cons] at h
    cases stepped : s.step c with
    | none => rw [stepped] at h; cases h
    | some u =>
      rw [stepped] at h
      obtain ⟨first, others, split, atStart, atSlash, rest⟩ := ih h
      rw [Text.pieces]
      by_cases feed : c = '\n'
      · subst feed
        have here : u = start := by cases s <;> simpa [step] using stepped.symm
        refine ⟨[], first :: others, by simp [split], by simp, by simp, ?_⟩
        intro line hl
        rcases List.mem_cons.mp hl with rfl | hl
        · exact atStart here
        · exact rest line hl
      · refine ⟨c :: first, others, by simp [split, feed], ?_, ?_, rest⟩
        · rintro rfl slashes
          obtain ⟨rfl, more⟩ := List.cons_prefix_cons.mp slashes
          exact atSlash (Option.some.inj stepped).symm more
        · rintro rfl slash
          obtain ⟨rfl, -⟩ := List.cons_prefix_cons.mp slash
          cases stepped

end Spot

namespace Directive

theorem parseLine?_of_not_prefix {line : List Char} (h : ¬ ['/', '/'] <+: line) :
    parseLine? line = none := by
  have short : ¬ opening.toList.isPrefixOf (Text.dropEndWhile (· == '\r') line) = true := by
    intro starts
    have whole : opening.toList <+: line :=
      (List.isPrefixOf_iff_prefix.mp starts).trans (line.rdropWhile_prefix _)
    have two : ['/', '/'] <+: opening.toList := by decide
    exact h (two.trans whole)
  unfold parseLine?
  simp only [short, Bool.false_eq_true, if_false]

/-- A text without a line that starts with two slashes has no directives. -/
theorem parse_of_leads {text : String} {t : Spot} (h : Spot.start.Leads text t) :
    parse text = [] := by
  obtain ⟨first, others, split, atStart, -, rest⟩ := Spot.not_prefix_of_follow h
  unfold parse
  rw [List.filterMap_eq_nil_iff]
  intro line hl
  refine parseLine?_of_not_prefix fun starts => ?_
  obtain ⟨p, hp, whole⟩ := Text.exists_prefix_of_mem_linesOf hl
  rw [split] at hp
  rcases List.mem_cons.mp hp with rfl | hp
  · exact atStart rfl (starts.trans whole)
  · exact rest p hp (starts.trans whole)

theorem parse_line {line : String} (one : '\n' ∉ line.toList) (rest : String) :
    parse (line ++ "\n" ++ rest) =
      (parseLine? (Text.dropReturn line.toList)).toList ++ parse rest := by
  unfold parse
  have feed : "\n".toList = ['\n'] := rfl
  rw [String.toList_append, String.toList_append, feed, List.append_assoc, List.singleton_append,
    Text.lines_cons one, List.filterMap_cons]
  cases parseLine? (Text.dropReturn line.toList) <;> rfl

theorem toList_render (path : String) :
    (render path).toList = (opening.toList ++ path.toList ++ ['"', ' ', '/']) ++ ['>'] := by
  simp [render, closing, String.toList_append]

theorem parseLine?_render (path : String) :
    parseLine? (Text.dropReturn (render path).toList) = some path := by
  have whole : Text.dropReturn (render path).toList = (render path).toList := by
    unfold Text.dropReturn
    rw [toList_render, List.reverse_concat]
    rfl
  have kept : Text.dropEndWhile (· == '\r') (render path).toList = (render path).toList := by
    rw [toList_render]
    exact List.rdropWhile_concat_neg _ _ _ (by decide)
  have spelled : (render path).toList = opening.toList ++ (path.toList ++ closing.toList) := by
    simp [render, String.toList_append]
  have rest : (render path).toList.drop opening.toList.length = path.toList ++ closing.toList := by
    rw [spelled, List.drop_left]
  unfold parseLine?
  rw [whole, kept]
  have starts : opening.toList.isPrefixOf (render path).toList = true :=
    List.isPrefixOf_iff_prefix.mpr ⟨_, spelled.symm⟩
  have ends : closing.toList.isSuffixOf (path.toList ++ closing.toList) = true :=
    List.isSuffixOf_iff_suffix.mpr ⟨path.toList, rfl⟩
  simp only [starts, if_true, rest, ends]
  simp

theorem newline_notMem_render {path : String} (one : '\n' ∉ path.toList) :
    '\n' ∉ (render path).toList := by
  have fixed : '\n' ∉ opening.toList ∧ '\n' ∉ closing.toList := by decide
  simp only [render, String.toList_append, List.mem_append, not_or]
  exact ⟨⟨fixed.1, one⟩, fixed.2⟩

/-- The directives of a header are read back before those of what follows. -/
theorem parse_header_append {references : List String}
    (lines : ∀ path ∈ references, '\n' ∉ path.toList) (rest : String) :
    parse (Render.header references ++ rest) = references ++ parse rest := by
  have each : ∀ paths : List String, (∀ path ∈ paths, '\n' ∉ path.toList) → ∀ rest,
      parse (String.join (paths.map fun path => render path ++ "\n") ++ rest) =
        paths ++ parse rest := by
    intro paths
    induction paths with
    | nil => simp
    | cons path more ih =>
      intro one rest
      rw [List.map_cons, String.join_cons, String.append_assoc,
        parse_line (newline_notMem_render (one path List.mem_cons_self)), parseLine?_render,
        ih fun p hp => one p (List.mem_cons_of_mem path hp)]
      rfl
  unfold Render.header
  cases references with
  | nil => simp
  | cons path more =>
    have blank : parse ("" ++ "\n" ++ rest) = parse rest := by
      rw [parse_line (by simp)]
      rfl
    rw [String.empty_append] at blank
    rw [if_neg (by simp), String.append_assoc, each _ lines, blank]

theorem sorted_of_pairwise {paths : List String} (h : paths.Pairwise (· ≤ ·)) :
    sorted paths = paths :=
  List.mergeSort_of_pairwise (h.imp fun before => by simpa using before)

theorem pairwise_sorted (paths : List String) : (sorted paths).Pairwise (· ≤ ·) := by
  have ordered := @List.pairwise_mergeSort _ (fun a b : String => decide (a ≤ b))
    (by simpa using fun a b c : String => le_trans) (by simpa using fun a b => le_total _ _) paths
  exact ordered.imp fun h => by simpa using h

theorem eraseDups_sublist (paths : List String) : paths.eraseDups.Sublist paths := by
  match paths with
  | [] => exact List.Sublist.slnil
  | path :: more =>
    rw [List.eraseDups_cons]
    have fewer := List.length_filter_le (fun b => !b == path) more
    exact ((eraseDups_sublist _).trans List.filter_sublist).cons_cons path
termination_by paths.length
decreasing_by simp; omega

/-- Computed directives stand in order, so ordering them again changes nothing. -/
theorem sorted_computed (naming : OutputNaming) (sidecarOf : Path → Option Sidecar)
    (declarations : List Declaration) (source : Path) :
    sorted (computed naming sidecarOf declarations source) =
      computed naming sidecarOf declarations source := by
  refine sorted_of_pairwise ?_
  unfold computed
  exact (pairwise_sorted _).sublist (eraseDups_sublist _)

theorem sorted_sorted (paths : List String) : sorted (sorted paths) = sorted paths :=
  sorted_of_pairwise (pairwise_sorted paths)

/-- A directive that was read lies on one line. -/
theorem newline_notMem_of_mem_parse {text path : String} (h : path ∈ parse text) :
    '\n' ∉ path.toList := by
  obtain ⟨line, hl, read⟩ := List.mem_filterMap.mp h
  have one := Text.newline_notMem_of_mem_lines hl
  simp only [parseLine?] at read
  split at read
  · split at read
    · rw [← Option.some.inj read, String.toList_ofList]
      intro feed
      exact one
        ((line.rdropWhile_prefix _).subset (List.mem_of_mem_drop (List.mem_of_mem_take feed)))
    · cases read
  · cases read

end Directive

end Ambient
