import Ambient.Proofs.Source.Laid
import Ambient.Proofs.Source.Locality

/-!
# How a text is scanned

A scan goes through a text from the left. Line feeds, white space and byte order marks are passed
over one by one, comments and `#` lines as a whole, and everything else is a piece. What is said of
a scan is proved along these steps, with the text that each of them takes at hand.

A lexer is asked for one token after another, until it says that the text is at its end. What it
gives before that are the lexemes of the text, and the end lies behind all bytes of it.
-/
namespace Ambient

open Text

namespace Lexeme

theorem suffix_of_read {fresh : Bool} {c : Char} {r rest : List Char} {piece? : Option Piece}
    (reads : read fresh c r = (piece?, rest)) : rest <:+ r := by
  have left := read_suffix fresh c r
  rwa [reads] at left

/-- Only a number sign is read according to what stands before it on its line. -/
theorem read_fresh {c : Char} (fresh fresh' : Bool) (r : List Char) (other : c ≠ '#') :
    read fresh c r = read fresh' c r := by
  unfold read
  split <;> first | rfl | exact absurd rfl other

theorem isSolid_of_not {c : Char} (newline : ¬ c = '\n')
    (gap : ¬ (isBlank c || c == '\ufeff') = true) : IsSolid c := by
  simpa [IsSolid, newline] using gap

theorem length_taken {c : Char} {v y : List Char} :
    byteLength (c :: (v ++ y)) - byteLength y = byteLength (c :: v) := by
  rw [← List.cons_append, byteLength_append]
  omega

theorem scan_gap (fresh : Bool) (start : Nat) {c : Char} (r : List Char) (newline : c ≠ '\n')
    (gap : isBlank c = true ∨ c = '\ufeff') :
    scan fresh start (c :: r) = scan fresh (start + c.utf8Size) r := by
  rw [scan, if_neg newline, if_pos (by simpa using gap)]

theorem scan_some {fresh : Bool} {c : Char} {v y : List Char} {piece : Piece} (solid : IsSolid c)
    (reads : read fresh c (v ++ y) = (some piece, y)) (start : Nat) :
    scan fresh start (c :: v ++ y) = ⟨piece, start, start + byteLength (c :: v)⟩ ::
      scan false (start + byteLength (c :: v)) y := by
  rw [List.cons_append, scan_solid solid reads]
  simp only [length_taken]

theorem scan_none {fresh : Bool} {c : Char} {v y : List Char} (solid : IsSolid c)
    (reads : read fresh c (v ++ y) = (none, y)) (start : Nat) :
    scan fresh start (c :: v ++ y) = scan false (start + byteLength (c :: v)) y := by
  rw [List.cons_append, scan_solid solid reads]
  simp only [length_taken]

/-- The lexemes of the text `cs`, which begins at byte `start`, are `ls`. At each step it is known
what is taken off the text. -/
inductive Scans : (fresh : Bool) → (start : Nat) → (cs : List Char) →
    (ls : List Lexeme) → Prop
  | nil {fresh : Bool} {start : Nat} : Scans fresh start [] []
  | newline {fresh : Bool} {start : Nat} {r : List Char} {ls : List Lexeme} :
    Scans true (start + 1) r ls → Scans fresh start ('\n' :: r) ls
  | gap {fresh : Bool} {start : Nat} {c : Char} {r : List Char} {ls : List Lexeme} :
    c ≠ '\n' → isBlank c = true ∨ c = '\ufeff' → Scans fresh (start + c.utf8Size) r ls →
      Scans fresh start (c :: r) ls
  | pass {fresh : Bool} {start : Nat} {c : Char} {v rest : List Char} {ls : List Lexeme} :
    IsSolid c → read fresh c (v ++ rest) = (none, rest) →
      Scans false (start + byteLength (c :: v)) rest ls → Scans fresh start (c :: v ++ rest) ls
  | piece {fresh : Bool} {start : Nat} {c : Char} {v rest : List Char} {piece : Piece}
    {ls : List Lexeme} : IsSolid c → read fresh c (v ++ rest) = (some piece, rest) →
      Scans false (start + byteLength (c :: v)) rest ls →
        Scans fresh start (c :: v ++ rest) (⟨piece, start, start + byteLength (c :: v)⟩ :: ls)

theorem scans (fresh : Bool) (start : Nat) (cs : List Char) :
    Scans fresh start cs (scan fresh start cs) := by
  fun_induction scan fresh start cs with
  | case1 => exact .nil
  | case2 fresh start r ih => exact .newline ih
  | case3 fresh start c r newline blank ih => exact .gap newline (by simpa using blank) ih
  | case4 fresh start c r newline blank rest stop piece reads =>
    rename_i ih
    obtain ⟨v, rfl⟩ := suffix_of_read reads
    have ends : stop = start + byteLength (c :: v) := congrArg (start + ·) length_taken
    rw [ends] at ih ⊢
    exact .piece (isSolid_of_not newline blank) reads ih
  | case5 fresh start c r newline blank rest stop reads =>
    rename_i ih
    obtain ⟨v, rfl⟩ := suffix_of_read reads
    have ends : stop = start + byteLength (c :: v) := congrArg (start + ·) length_taken
    rw [ends] at ih ⊢
    exact .pass (isSolid_of_not newline blank) reads ih

theorem Scans.scan_eq {fresh : Bool} {start : Nat} {cs : List Char} {ls : List Lexeme}
    (h : Scans fresh start cs ls) : scan fresh start cs = ls := by
  induction h with
  | nil => rw [scan]
  | newline _ ih => rw [scan_newline, ih]
  | gap newline gap _ ih => rw [scan_gap _ _ _ newline gap, ih]
  | pass solid reads _ ih => rw [scan_none solid reads, ih]
  | piece solid reads _ ih => rw [scan_some solid reads, ih]

/-- The lexeme `n` bytes further on. -/
def shift (n : Nat) (l : Lexeme) : Lexeme := ⟨l.piece, n + l.start, n + l.stop⟩

/-- The scan of a text that is moved as a whole. -/
theorem Scans.shift {fresh : Bool} {start : Nat} {cs : List Char} {ls : List Lexeme} (n : Nat)
    (h : Scans fresh start cs ls) : Scans fresh (n + start) cs (ls.map (shift n)) := by
  induction h with
  | nil => exact .nil
  | newline _ ih => exact .newline ih
  | gap newline gap _ ih => exact .gap newline gap (by rwa [Nat.add_assoc])
  | pass solid reads _ ih => exact .pass solid reads (by rwa [Nat.add_assoc])
  | @piece fresh start c v rest piece ls solid reads _ ih =>
    rw [← Nat.add_assoc] at ih
    rw [List.map_cons, Lexeme.shift, ← Nat.add_assoc]
    exact .piece solid reads ih

/-- Lexemes have characters and stand one behind the other, from `start` on. -/
theorem Scans.ordered {fresh : Bool} {start : Nat} {cs : List Char} {ls : List Lexeme}
    (h : Scans fresh start cs ls) :
    (∀ l ∈ ls, start ≤ l.start ∧ l.start < l.stop) ∧
    ls.Pairwise fun l m => l.stop ≤ m.start := by
  have later : ∀ {a b : Nat} {ls : List Lexeme},
      (∀ l ∈ ls, a + b ≤ l.start ∧ l.start < l.stop) →
      ∀ l ∈ ls, a ≤ l.start ∧ l.start < l.stop :=
    fun late l hl => ⟨Nat.le_trans (Nat.le_add_right _ _) (late l hl).1, (late l hl).2⟩
  induction h with
  | nil => exact ⟨List.forall_mem_nil _, .nil⟩
  | newline _ ih | gap _ _ _ ih | pass _ _ _ ih => exact ⟨later ih.1, ih.2⟩
  | @piece _ _ c v _ _ _ _ _ _ ih =>
    have positive := byteLength_pos c v
    refine ⟨List.forall_mem_cons.mpr ⟨⟨Nat.le_refl _, ?_⟩, later ih.1⟩,
      .cons (fun m hm => ?_) ih.2⟩
    · exact Nat.lt_add_of_pos_right positive
    · exact (ih.1 m hm).1

/-- A lexeme is read from the characters that it spans, and the lexemes behind it from
those that follow. -/
theorem Scans.exists_at {fresh : Bool} {start : Nat} {cs : List Char} {ls more : List Lexeme}
    {l : Lexeme} (h : Scans fresh start cs ls) :
    ∀ {front : List Lexeme}, ls = front ++ l :: more →
    ∃ u c v rest fresh', cs = u ++ (c :: v ++ rest) ∧ l.start = start + byteLength u ∧
      l.stop = l.start + byteLength (c :: v) ∧ IsSolid c ∧
      read fresh' c (v ++ rest) = (some l.piece, rest) ∧ Scans false l.stop rest more := by
  induction h with
  | nil =>
    intro front split
    exact absurd (List.append_eq_nil_iff.mp split.symm).2 (List.cons_ne_nil l more)
  | newline _ ih =>
    intro front split
    obtain ⟨u, c, v, rest, fresh', rfl, begins, found⟩ := ih split
    exact ⟨'\n' :: u, c, v, rest, fresh', rfl, begins.trans (Nat.add_assoc _ _ _), found⟩
  | @gap _ _ d _ _ _ _ _ ih =>
    intro front split
    obtain ⟨u, c, v, rest, fresh', rfl, begins, found⟩ := ih split
    exact ⟨d :: u, c, v, rest, fresh', rfl, begins.trans (Nat.add_assoc _ _ _), found⟩
  | @pass _ _ d w _ _ _ _ _ ih =>
    intro front split
    obtain ⟨u, c, v, rest, fresh', rfl, begins, found⟩ := ih split
    refine ⟨d :: w ++ u, c, v, rest, fresh', by simp only [List.append_assoc], ?_, found⟩
    rw [begins, byteLength_append (d :: w), Nat.add_assoc]
  | @piece fresh start d w rest' _ _ solid reads onward ih =>
    intro front split
    cases front with
    | nil =>
      obtain ⟨rfl, rfl⟩ := List.cons.inj split
      exact ⟨[], d, w, rest', fresh, rfl, rfl, rfl, solid, reads, onward⟩
    | cons m front =>
      obtain ⟨u, c, v, rest, fresh', rfl, begins, found⟩ := ih (List.cons.inj split).2
      refine ⟨d :: w ++ u, c, v, rest, fresh', by simp only [List.append_assoc], ?_, found⟩
      rw [begins, byteLength_append (d :: w), Nat.add_assoc]

end Lexeme

/-- What a lexer gives when it is asked for a token: a lexeme, or the end of the text
and where that is. -/
inductive Yield where
  | lexeme (l : Lexeme)
  | endOfText (place : Nat)
  deriving DecidableEq, Repr

def Yield.lexeme? : Yield → Option Lexeme
  | lexeme l => some l
  | endOfText _ => none

namespace Lexeme

/-- The first token of a text that begins at byte `start`, and the text behind it. -/
def next (fresh : Bool) (start : Nat) : List Char → Yield × List Char
  | [] => (.endOfText start, [])
  | c :: r =>
    if c = '\n' then next true (start + 1) r
    else if isBlank c || c == '\ufeff' then next fresh (start + c.utf8Size) r
    else
      match _h : read fresh c r with
      | (piece?, rest) =>
        let stop := start + (byteLength (c :: r) - byteLength rest)
        match piece? with
        | some piece => (.lexeme ⟨piece, start, stop⟩, rest)
        | none => next false stop rest
termination_by cs => cs.length
decreasing_by
  · simp
  · simp
  · have shorter := read_length_le fresh c r
    rw [_h] at shorter
    exact Nat.lt_succ_of_le shorter

theorem next_length_lt {fresh : Bool} {start : Nat} {cs rest : List Char} {l : Lexeme}
    (h : next fresh start cs = (.lexeme l, rest)) : rest.length < cs.length := by
  fun_induction next fresh start cs with
  | case1 => cases h
  | case2 fresh start r ih => exact Nat.lt_succ_of_lt (ih h)
  | case3 fresh start c r _ _ ih => exact Nat.lt_succ_of_lt (ih h)
  | case4 fresh start c r _ _ left stop piece reads =>
    have shorter := read_length_le fresh c r
    cases h
    rw [reads] at shorter
    exact Nat.lt_succ_of_le shorter
  | case5 fresh start c r _ _ left stop reads _ ih =>
    have shorter := read_length_le fresh c r
    rw [reads] at shorter
    exact Nat.lt_trans (ih h) (Nat.lt_succ_of_le shorter)

/-- Every token of the text that begins at byte `start`, and its end. -/
def yields (fresh : Bool) (start : Nat) (cs : List Char) : List Yield :=
  match _h : next fresh start cs with
  | (.lexeme l, rest) => .lexeme l :: yields false l.stop rest
  | (.endOfText place, _) => [.endOfText place]
termination_by cs.length
decreasing_by exact next_length_lt _h

/-- The tokens of a text in the order in which a lexer gives them. -/
def tokenize (text : String) : List Yield := yields true 0 text.toList

/-- The first token is the first lexeme, and the others are those of the text behind it. -/
theorem scan_of_next {fresh : Bool} {start : Nat} {cs rest : List Char} {l : Lexeme}
    (h : next fresh start cs = (.lexeme l, rest)) :
    scan fresh start cs = l :: scan false l.stop rest ∧
      l.stop + byteLength rest = start + byteLength cs := by
  fun_induction next fresh start cs with
  | case1 => cases h
  | case2 fresh start r ih =>
    obtain ⟨whole, ends⟩ := ih h
    rw [scan_newline, byteLength, ← Nat.add_assoc]
    exact ⟨whole, ends⟩
  | case3 fresh start c r newline blank ih =>
    obtain ⟨whole, ends⟩ := ih h
    rw [scan, if_neg newline, if_pos blank, byteLength, ← Nat.add_assoc]
    exact ⟨whole, ends⟩
  | case4 fresh start c r newline blank left stop piece reads =>
    cases h
    obtain ⟨v, rfl⟩ := suffix_of_read reads
    have size : stop = start + byteLength (c :: v) := congrArg (start + ·) length_taken
    rw [← List.cons_append, scan_some (isSolid_of_not newline blank) reads, byteLength_append,
      ← Nat.add_assoc, size]
    exact ⟨rfl, rfl⟩
  | case5 fresh start c r newline blank left stop reads _ ih =>
    obtain ⟨whole, ends⟩ := ih h
    obtain ⟨v, rfl⟩ := suffix_of_read reads
    have size : stop = start + byteLength (c :: v) := congrArg (start + ·) length_taken
    rw [← List.cons_append, scan_none (isSolid_of_not newline blank) reads, byteLength_append,
      ← Nat.add_assoc, ← size]
    exact ⟨whole, ends⟩

/-- The end is given where no lexeme comes any more, and it lies behind all bytes. -/
theorem scan_of_end {fresh : Bool} {start place : Nat} {cs rest : List Char}
    (h : next fresh start cs = (.endOfText place, rest)) :
    scan fresh start cs = [] ∧ place = start + byteLength cs := by
  fun_induction next fresh start cs with
  | case1 fresh start =>
    cases h
    exact ⟨by rw [scan], rfl⟩
  | case2 fresh start r ih =>
    rw [scan_newline, byteLength, ← Nat.add_assoc]
    exact ih h
  | case3 fresh start c r newline blank ih =>
    rw [scan, if_neg newline, if_pos blank, byteLength, ← Nat.add_assoc]
    exact ih h
  | case4 => cases h
  | case5 fresh start c r newline blank left stop reads _ ih =>
    obtain ⟨v, rfl⟩ := suffix_of_read reads
    have size : stop = start + byteLength (c :: v) := congrArg (start + ·) length_taken
    rw [← List.cons_append, scan_none (isSolid_of_not newline blank) reads, byteLength_append,
      ← Nat.add_assoc, ← size]
    exact ih h

/-- The lexemes come first, and the end last. -/
theorem yields_eq (fresh : Bool) (start : Nat) (cs : List Char) : yields fresh start cs =
    (scan fresh start cs).map .lexeme ++ [.endOfText (start + byteLength cs)] := by
  fun_induction yields fresh start cs with
  | case1 fresh start cs l rest given ih =>
    obtain ⟨whole, ends⟩ := scan_of_next given
    rw [whole, ih, ends]
    rfl
  | case2 fresh start cs place rest given =>
    obtain ⟨whole, rfl⟩ := scan_of_end given
    rw [whole]
    rfl

end Lexeme

theorem tokenize_eq (text : String) : Lexeme.tokenize text =
    (Lexeme.ofText text).map .lexeme ++ [.endOfText text.utf8ByteSize] := by
  rw [Lexeme.tokenize, Lexeme.yields_eq, Nat.zero_add, Host.byteLength_toList]
  rfl

example : Lexeme.tokenize "#a\n//b\n///c" = [.lexeme ⟨.doc "c", 7, 11⟩, .endOfText 11] := by
  decide +kernel

end Ambient
