import Ambient.Proofs.Source.Scans
import Ambient.Proofs.Text.Pieces

/-!
# Lexemes tile their text

The lexemes of a text span some of its characters each, one behind the other. What stands between
them is white space, byte order marks, comments and `#` lines, and nothing else.
-/
namespace Ambient

open Text

/-- On the last line there is nothing yet but white space and byte order marks. -/
def OpensLine (before : List Char) : Prop :=
  ∀ c ∈ lastPiece (· == '\n') before, isBlank c = true ∨ c = '\ufeff'

/-- The line ends here, with a line feed or with the text. -/
def EndsLine (after : List Char) : Prop := ∀ c ∈ after.head?, c = '\n'

/-- What stands behind the two slashes of a documentation line: a third one and no fourth. -/
def IsDocumentation (comment : List Char) : Prop :=
  comment.head? = some '/' ∧ comment.tail.head? ≠ some '/'

/-- The text `s` behind `before` and in front of `after` is a character of white space, a byte order
mark, a comment that is no documentation, or a `#` line. -/
inductive Aside (before : List Char) : (s after : List Char) → Prop
  | space {c : Char} {after : List Char} : isBlank c = true ∨ c = '\ufeff' →
    Aside before [c] after
  | line {comment after : List Char} : '\n' ∉ comment → ¬ IsDocumentation comment →
    EndsLine after → Aside before ('/' :: '/' :: comment) after
  | block {comment after : List Char} : ¬ ['*', '/'] <:+: comment →
    Aside before ('/' :: '*' :: comment ++ ['*', '/']) after
  | unclosed {comment : List Char} : ¬ ['*', '/'] <:+: comment →
    Aside before ('/' :: '*' :: comment) []
  | directive {line after : List Char} : OpensLine before → '\n' ∉ line → EndsLine after →
    Aside before ('#' :: line) after

/-- A text without lexemes, behind `before` and in front of `after`. -/
inductive Filler : (before gap after : List Char) → Prop
  | nil {before after : List Char} : Filler before [] after
  | cons {before s gap after : List Char} : Aside before s (gap ++ after) →
    Filler (before ++ s) gap after → Filler before (s ++ gap) after

/-- Between two places of the text there are no lexemes. -/
def FillerAt (text : String) (start stop : Nat) : Prop :=
  ∃ before gap after, text.toList = before ++ gap ++ after ∧ start = byteLength before ∧
    stop = byteLength (before ++ gap) ∧ Filler before gap after

theorem opensLine_newline (before : List Char) : OpensLine (before ++ ['\n']) := by
  intro c hc
  rw [lastPiece_append_cons (by decide)] at hc
  cases hc

theorem OpensLine.append_space {before : List Char} {c : Char} (opens : OpensLine before)
    (newline : c ≠ '\n') (space : isBlank c = true ∨ c = '\ufeff') :
    OpensLine (before ++ [c]) := by
  have more : lastPiece (· == '\n') (before ++ [c]) = lastPiece (· == '\n') before ++ [c] := by
    simp [lastPiece, newline]
  intro d hd
  rw [more, List.mem_append, List.mem_singleton] at hd
  rcases hd with hd | rfl
  · exact opens d hd
  · exact space

namespace Lexeme
variable {v rest : List Char}

/-- What is passed over of a line. -/
theorem line_of_skipLine (left : skipLine (v ++ rest) = rest) : '\n' ∉ v ∧ EndsLine rest := by
  have whole := List.takeWhile_append_dropWhile (p := (· != '\n')) (l := v ++ rest)
  have taken : (v ++ rest).takeWhile (· != '\n') = v := by
    rw [skipLine] at left
    rw [left] at whole
    exact List.append_cancel_right whole
  constructor
  · intro mem
    rw [← taken] at mem
    have other := List.all_eq_true.mp List.all_takeWhile '\n' mem
    cases other
  · intro c first
    have stops := List.head?_dropWhile_not (· != '\n') (v ++ rest)
    rw [← skipLine, left, first] at stops
    simpa using stops

/-- A block comment ends with the first asterisk before a slash, or with the text. -/
theorem exists_of_skipBlock (cs : List Char) :
    (∃ comment, ¬ ['*', '/'] <:+: comment ∧ cs = comment ++ ['*', '/'] ++ skipBlock cs) ∨
      (¬ ['*', '/'] <:+: cs ∧ skipBlock cs = []) := by
  fun_induction skipBlock cs with
  | case1 => exact .inr ⟨by simp, rfl⟩
  | case2 r => exact .inl ⟨[], by simp, rfl⟩
  | case3 c r goesOn ih =>
    have apart : ∀ {comment more : List Char}, r = comment ++ more →
        ¬ ['*', '/'] <+: c :: comment := by
      rintro comment more rfl ⟨w, same⟩
      obtain ⟨rfl, rfl⟩ := List.cons.inj same
      exact goesOn _ rfl rfl
    rcases ih with ⟨comment, closed, whole⟩ | ⟨closed, rest⟩
    · refine .inl ⟨c :: comment, ?_, congrArg (c :: ·) whole⟩
      rw [List.infix_cons_iff, not_or]
      exact ⟨apart (by rw [List.append_assoc] at whole; exact whole), closed⟩
    · refine .inr ⟨?_, rest⟩
      rw [List.infix_cons_iff, not_or]
      exact ⟨apart (List.append_nil r).symm, closed⟩

/-- A slash after which no piece is read opens a comment. -/
theorem aside_of_readSlash {before : List Char} (reads : readSlash (v ++ rest) = (none, rest)) :
    Aside before ('/' :: v) rest := by
  -- what stands behind the slashes that are looked at goes up to `rest`
  have behind : ∀ {u q : List Char}, v ++ rest = u ++ q → rest <:+ q →
      ∃ w, v = u ++ w ∧ q = w ++ rest := by
    rintro u q whole ⟨w, rfl⟩
    rw [← List.append_assoc] at whole
    exact ⟨w, List.append_cancel_right whole, rfl⟩
  unfold readSlash at reads
  split at reads
  · rename_i q whole
    have left : skipLine q = rest := (Prod.mk.inj reads).2
    obtain ⟨w, rfl, rfl⟩ := behind (u := ['/', '/', '/']) whole (left ▸ skipLine_suffix q)
    obtain ⟨one, ends⟩ := line_of_skipLine left
    exact @Aside.line before ('/' :: '/' :: w) rest (by simp [one]) (fun doc => doc.2 rfl) ends
  · cases (Prod.mk.inj reads).1
  · rename_i q _ other whole
    have left : skipLine q = rest := (Prod.mk.inj reads).2
    obtain ⟨w, rfl, rfl⟩ := behind (u := ['/']) whole (left ▸ skipLine_suffix q)
    obtain ⟨one, ends⟩ := line_of_skipLine left
    refine .line one (fun doc => ?_) ends
    obtain ⟨third, rfl⟩ := List.head?_eq_some_iff.mp doc.1
    exact other (third ++ rest) rfl
  · rename_i q whole
    have left : skipBlock q = rest := (Prod.mk.inj reads).2
    obtain ⟨w, rfl, rfl⟩ := behind (u := ['*']) whole (left ▸ skipBlock_suffix q)
    rcases exists_of_skipBlock (w ++ rest) with ⟨comment, closed, same⟩ | ⟨closed, none⟩
    · rw [left] at same
      rw [List.append_cancel_right same]
      exact .block closed
    · obtain rfl : [] = rest := none.symm.trans left
      rw [List.append_nil] at closed
      exact .unclosed closed
  · cases (Prod.mk.inj reads).1

/-- What is passed over without a piece is a comment or a `#` line. -/
theorem aside_of_read {fresh : Bool} {c : Char} {before : List Char}
    (reads : read fresh c (v ++ rest) = (none, rest)) (opens : fresh = true → OpensLine before) :
    Aside before (c :: v) rest := by
  by_cases slash : c = '/'
  · subst slash
    exact aside_of_readSlash reads
  by_cases hash : c = '#'
  · subst hash
    have reads : (if fresh then (none, skipLine (v ++ rest)) else opPiece '#' (v ++ rest)) =
        (none, rest) := reads
    split at reads
    · rename_i first
      obtain ⟨one, ends⟩ := line_of_skipLine (Prod.mk.inj reads).2
      exact .directive (opens first) one ends
    · cases (Prod.mk.inj reads).1
  obtain ⟨t, left, token⟩ := exists_token fresh (v ++ rest) slash hash
  rw [token] at reads
  cases (Prod.mk.inj reads).1

end Lexeme

open Lexeme

/-- The lexemes and what stands between them are the text `cs`, which comes behind `before`. -/
inductive Tiles : (before cs : List Char) → List Lexeme → Prop
  | nil {before gap : List Char} : Filler before gap [] → Tiles before gap []
  | cons {before gap w rest : List Char} {l : Lexeme} {ls : List Lexeme} :
    Filler before gap (w ++ rest) → l.start = byteLength (before ++ gap) →
      l.stop = byteLength (before ++ gap ++ w) → Tiles (before ++ gap ++ w) rest ls →
        Tiles before (gap ++ w ++ rest) (l :: ls)

theorem Tiles.behind {before s cs : List Char} {ls : List Lexeme} (aside : Aside before s cs)
    (tiles : Tiles (before ++ s) cs ls) : Tiles before (s ++ cs) ls := by
  cases tiles with
  | nil filler =>
    refine .nil (.cons ?_ filler)
    rwa [List.append_nil]
  | @cons _ gap w rest _ _ filler begins ends more =>
    rw [← List.append_assoc, ← List.append_assoc]
    rw [List.append_assoc gap] at aside
    rw [List.append_assoc before] at begins ends more
    exact .cons (.cons aside filler) begins ends more

theorem tiles_of_scans {fresh : Bool} {start : Nat} {cs : List Char} {ls : List Lexeme}
    (h : Scans fresh start cs ls) : ∀ {before : List Char}, start = byteLength before →
      (fresh = true → OpensLine before) → Tiles before cs ls := by
  induction h with
  | nil => exact fun _ _ => .nil .nil
  | newline _ ih =>
    intro before place _
    refine .behind (s := ['\n']) (.space (.inl (by decide)))
      (ih ?_ fun _ => opensLine_newline before)
    rw [place, byteLength_append]
    rfl
  | @gap _ _ c _ _ newline space _ ih =>
    intro before place opens
    refine .behind (s := [c]) (.space space)
      (ih ?_ fun first => (opens first).append_space newline space)
    rw [place, byteLength_append]
    rfl
  | @pass _ _ c v _ _ _ reads _ ih =>
    intro before place opens
    refine .behind (s := c :: v) (aside_of_read reads opens) (ih ?_ nofun)
    rw [place, byteLength_append]
  | @piece _ start c v rest _ _ _ _ _ ih =>
    intro before place _
    have ends : start + byteLength (c :: v) = byteLength (before ++ c :: v) := by
      rw [byteLength_append, place]
    have more := ih ends nofun
    rw [← List.append_nil before] at place ends more
    exact @Tiles.cons before [] (c :: v) rest _ _ .nil place ends more

/-- The places between which there is no lexeme, from `start` to the end of the text at `stop`. -/
def gaps (start stop : Nat) : List Lexeme → List (Nat × Nat)
  | [] => [(start, stop)]
  | l :: ls => (start, l.start) :: gaps l.stop stop ls

namespace Tiles
variable {text : String} {before cs : List Char} {ls : List Lexeme}

theorem isBoundary (tiles : Tiles before cs ls) (whole : text.toList = before ++ cs) :
    ∀ l ∈ ls, Host.IsBoundary text l.start ∧ Host.IsBoundary text l.stop := by
  induction tiles with
  | nil => exact List.forall_mem_nil _
  | @cons before gap w rest l ls _ begins ends _ ih =>
    have begun : text.toList = before ++ gap ++ (w ++ rest) := by simp [whole]
    have ended : text.toList = before ++ gap ++ w ++ rest := by simp [whole]
    refine List.forall_mem_cons.mpr ⟨⟨?_, ?_⟩, ih ended⟩
    · exact begins ▸ Host.isBoundary_of_append begun
    · exact ends ▸ Host.isBoundary_of_append ended

theorem fillerAt (tiles : Tiles before cs ls) (whole : text.toList = before ++ cs) :
    ∀ gap ∈ gaps (byteLength before) text.utf8ByteSize ls, FillerAt text gap.1 gap.2 := by
  induction tiles with
  | @nil before gap filler =>
    intro place hp
    rw [List.mem_singleton.mp hp]
    refine ⟨before, gap, [], by rw [whole, List.append_nil], rfl, ?_, filler⟩
    rw [← whole, Host.byteLength_toList]
  | @cons before gap w rest l ls filler begins ends _ ih =>
    intro place hp
    rcases List.mem_cons.mp hp with rfl | hp
    · exact ⟨before, gap, w ++ rest, by simp [whole], rfl, begins, filler⟩
    · exact ih (by simp [whole]) place (ends ▸ hp)

end Tiles

/-- The lexemes of a text are pieces of it, one behind the other, with nothing but filler before
them, between them and behind them. The end of the text is given once, behind all of it. -/
theorem tokenize_tiles (text : String) : ∃ ls,
    tokenize text = ls.map .lexeme ++ [.endOfText text.utf8ByteSize] ∧
      (∀ l ∈ ls, l.start < l.stop ∧ Host.IsBoundary text l.start ∧
        Host.IsBoundary text l.stop) ∧ ls.Pairwise (fun l m => l.stop ≤ m.start) ∧
      ∀ gap ∈ gaps 0 text.utf8ByteSize ls, FillerAt text gap.1 gap.2 := by
  have scanned := scans true 0 text.toList
  have tiles : Tiles [] text.toList (Lexeme.ofText text) := by
    refine tiles_of_scans scanned rfl fun _ c hc => ?_
    cases hc
  have spans := scanned.ordered
  refine ⟨_, tokenize_eq text, fun l hl => ⟨(spans.1 l hl).2, ?_⟩, spans.2,
    tiles.fillerAt rfl⟩
  exact tiles.isBoundary rfl l hl

end Ambient
