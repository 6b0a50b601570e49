import Ambient.Proofs.Source.Scans
import Ambient.Proofs.Source.Seams
import Ambient.Proofs.Summary.Offsets

/-!
# Lexemes of a part of a text

A part of a text that begins where a lexeme begins and ends where a lexeme ends has the lexemes that
the text has there. A number sign is the exception: where a line begins with one, the rest of the
line is passed over, so it must not be the first lexeme.
-/
namespace Ambient

open Text

namespace Lexeme
variable {fresh : Bool} {start : Nat} {cs : List Char} {ls front more : List Lexeme} {l : Lexeme}

/-- The text can be cut off behind a lexeme. -/
theorem Scans.exists_cut (h : Scans fresh start cs ls) :
    ∀ {front : List Lexeme}, ls = front ++ l :: more →
    ∃ v x, cs = v ++ x ∧ l.stop = start + byteLength v ∧
      Scans fresh start v (front ++ [l]) := by
  induction h with
  | nil =>
    intro front split
    exact absurd (List.append_eq_nil_iff.mp split.symm).2 (List.cons_ne_nil l more)
  | newline _ ih =>
    intro front split
    obtain ⟨v, x, rfl, ends, cut⟩ := ih split
    exact ⟨'\n' :: v, x, rfl, ends.trans (Nat.add_assoc _ _ _), .newline cut⟩
  | @gap _ _ d _ _ newline gap _ ih =>
    intro front split
    obtain ⟨v, x, rfl, ends, cut⟩ := ih split
    exact ⟨d :: v, x, rfl, ends.trans (Nat.add_assoc _ _ _), .gap newline gap cut⟩
  | @pass _ _ d w _ _ solid reads _ ih =>
    intro front split
    obtain ⟨v, x, rfl, ends, cut⟩ := ih split
    rw [← List.append_assoc] at reads
    refine ⟨d :: w ++ v, x, by simp only [List.append_assoc], ?_,
      .pass solid (read_cut reads) cut⟩
    rw [ends, byteLength_append (d :: w), Nat.add_assoc]
  | @piece fresh start d w rest piece _ solid reads _ ih =>
    intro front split
    cases front with
    | nil =>
      obtain ⟨rfl, rfl⟩ := List.cons.inj split
      have alone : read fresh d w = (some piece, []) := read_cut (x := rest) reads
      rw [← List.append_nil w] at alone
      have last : Scans fresh start (d :: w ++ [])
          [⟨piece, start, start + byteLength (d :: w)⟩] :=
        .piece solid alone .nil
      rw [List.append_nil] at last
      exact ⟨d :: w, rest, rfl, rfl, last⟩
    | cons m front =>
      obtain ⟨rfl, behind⟩ := List.cons.inj split
      obtain ⟨v, x, rfl, ends, cut⟩ := ih behind
      rw [← List.append_assoc] at reads
      refine ⟨d :: w ++ v, x, by simp only [List.append_assoc], ?_,
        .piece solid (read_cut reads) cut⟩
      rw [ends, byteLength_append (d :: w), Nat.add_assoc]

theorem ne_hash_of_read_piece {c : Char} {r rest : List Char} {piece : Piece}
    (reads : read fresh c r = (some piece, rest)) (other : piece ≠ .token (.op '#')) :
    c ≠ '#' := by
  rintro rfl
  cases fresh with
  | true => cases reads
  | false => exact other (Option.some.inj (congrArg Prod.fst reads)).symm

/-- From a lexeme that is no number sign on, the text is scanned as if it began there. -/
theorem Scans.exists_from (h : Scans fresh start cs (front ++ l :: more))
    (other : l.piece ≠ .token (.op '#')) :
    ∃ u x, cs = u ++ x ∧ l.start = start + byteLength u ∧
      Scans true l.start x (l :: more) := by
  obtain ⟨u, c, v, rest, fresh', whole, begins, ends, solid, reads, onward⟩ := h.exists_at rfl
  rw [read_fresh fresh' true _ (ne_hash_of_read_piece reads other)] at reads
  rw [ends] at onward
  have here : l = ⟨l.piece, l.start, l.start + byteLength (c :: v)⟩ := by rw [← ends]
  refine ⟨u, c :: v ++ rest, whole, begins, ?_⟩
  rw [here]
  exact .piece solid reads onward

end Lexeme

/-- The token `n` bytes further on. -/
def Yield.shift (n : Nat) : Yield → Yield
  | lexeme l => .lexeme (l.shift n)
  | endOfText place => .endOfText (n + place)

open Lexeme

theorem lexemes_of_tokenize {text : String} {before after : List Yield} {run : List Lexeme}
    (whole : tokenize text = before ++ run.map .lexeme ++ after) : Lexeme.ofText text =
      before.filterMap Yield.lexeme? ++ run ++ after.filterMap Yield.lexeme? := by
  have inverse : ∀ ls : List Lexeme, (ls.map Yield.lexeme).filterMap Yield.lexeme? = ls := by
    intro ls
    rw [List.filterMap_map]
    exact List.filterMap_some
  have same := congrArg (List.filterMap Yield.lexeme?) whole
  rw [tokenize_eq, List.filterMap_append, inverse, List.filterMap_append,
    List.filterMap_append, inverse] at same
  rw [← same]
  exact (List.append_nil _).symm

/-- The part of a text from one lexeme to another has the lexemes between them, where they stand in
it, and nothing behind them. -/
theorem tokenize_slice {text : String} {before after : List Yield} {run : List Lexeme}
    {first last : Lexeme} (whole : tokenize text = before ++ run.map .lexeme ++ after)
    (head : run.head? = some first) (tail : run.getLast? = some last)
    (other : first.piece ≠ .token (.op '#')) :
    ∃ part, slice? text.toList first.start last.stop = some part ∧
      (tokenize (String.ofList part)).map (Yield.shift first.start) =
        run.map .lexeme ++ [.endOfText last.stop] := by
  obtain ⟨more, rfl⟩ := List.head?_eq_some_iff.mp head
  obtain ⟨front, split⟩ := List.getLast?_eq_some_iff.mp tail
  have scanned := scans true 0 text.toList
  have lexemes : scan true 0 text.toList = _ := lexemes_of_tokenize whole
  rw [lexemes, List.append_assoc, List.cons_append] at scanned
  obtain ⟨u, x, chars, begins, here⟩ := scanned.exists_from other
  rw [← List.cons_append, split, List.append_assoc, List.singleton_append] at here
  obtain ⟨part, y, rfl, ends, cut⟩ := here.exists_cut rfl
  rw [Nat.zero_add] at begins
  refine ⟨part, ?_, ?_⟩
  · have size : last.stop = byteLength (u ++ part) := by rw [ends, begins, byteLength_append]
    rw [chars, ← List.append_assoc, begins, size]
    exact slice?_append u part y
  · have moved : (Lexeme.ofText (String.ofList part)).map (shift first.start) =
        front ++ [last] := by
      have alone := (scans true 0 part).shift first.start
      rw [Lexeme.ofText, String.toList_ofList, ← alone.scan_eq, ← cut.scan_eq]
      rfl
    rw [tokenize_eq, split, ← moved, List.map_append, List.map_map, List.map_map, ends,
      Host.utf8ByteSize_ofList]
    rfl

/-- Neither the parenthesis in front nor the one behind changes the name between them. -/
theorem tokenize_slice_qualifiedName :
    tokenize "#a\n(b::c); //d" =
        [.lexeme ⟨.token (.mark .openParen), 3, 4⟩] ++
          [⟨.token (.ident "b"), 4, 5⟩, ⟨.token (.mark .doubleColon), 5, 7⟩,
            ⟨.token (.ident "c"), 7, 8⟩].map .lexeme ++
          [.lexeme ⟨.token (.mark .closeParen), 8, 9⟩,
            .lexeme ⟨.token (.mark .semicolon), 9, 10⟩, .endOfText 14] ∧
      ∃ part, slice? "#a\n(b::c); //d".toList 4 8 = some part ∧
        (tokenize (String.ofList part)).map (Yield.shift 4) =
          [⟨.token (.ident "b"), 4, 5⟩, ⟨.token (.mark .doubleColon), 5, 7⟩,
            ⟨.token (.ident "c"), 7, 8⟩].map .lexeme ++ [.endOfText 8] := by
  refine ⟨by decide +kernel, ?_⟩
  refine @tokenize_slice "#a\n(b::c); //d" [.lexeme ⟨.token (.mark .openParen), 3, 4⟩]
    [.lexeme ⟨.token (.mark .closeParen), 8, 9⟩, .lexeme ⟨.token (.mark .semicolon), 9, 10⟩,
      .endOfText 14] _ ⟨.token (.ident "b"), 4, 5⟩
        ⟨.token (.ident "c"), 7, 8⟩ ?_ rfl rfl nofun
  decide +kernel

end Ambient
