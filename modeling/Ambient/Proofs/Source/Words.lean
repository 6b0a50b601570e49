import Ambient.Host.AttributeReader

/-!
# Names in source are words

An identifier token is a word: a letter or underscore, then letters, digits and underscores. So the
names that a reader takes are words, and qualified ones are words between dots. In particular no
name holds a line feed, and a single name holds no dot.
-/
namespace Ambient

/-- A letter or underscore, then letters, digits and underscores. -/
def IsWord (name : String) : Prop :=
  ∃ c r, name.toList = c :: r ∧ Lexeme.isWordStart c = true ∧
    ∀ d ∈ r, Lexeme.isWordPart d = true

theorem isWord_iff {name : String} : IsWord name ↔
    (match name.toList with
      | [] => false
      | c :: r => Lexeme.isWordStart c && r.all Lexeme.isWordPart) = true := by
  cases spelled : name.toList with
  | nil =>
    refine ⟨fun ⟨c, r, same, _⟩ => ?_, fun h => nomatch h⟩
    rw [spelled] at same
    cases same
  | cons c r =>
    rw [Bool.and_eq_true, List.all_eq_true]
    refine ⟨fun ⟨_, _, same, parts⟩ => ?_, fun parts => ⟨c, r, spelled, parts⟩⟩
    rw [spelled] at same
    cases same
    exact parts

instance (name : String) : Decidable (IsWord name) := decidable_of_iff _ isWord_iff.symm

/-- Words with a dot between each and the next. -/
inductive IsDotted : String → Prop
  | word {name : String} : IsWord name → IsDotted name
  | snoc {name segment : String} : IsDotted name → IsWord segment →
    IsDotted (name ++ "." ++ segment)

namespace IsWord
variable {name : String}

theorem isWordPart_of_start {c : Char} (h : Lexeme.isWordStart c = true) :
    Lexeme.isWordPart c = true := by
  simp only [Lexeme.isWordStart, Lexeme.isWordPart, Text.isAlphanumeric, Bool.or_eq_true] at h ⊢
  rcases h with h | h
  · exact Or.inl (Or.inl h)
  · exact Or.inr h

theorem isWordPart (h : IsWord name) : ∀ c ∈ name.toList, Lexeme.isWordPart c = true := by
  obtain ⟨c, r, spelled, start, rest⟩ := h
  rw [spelled]
  intro d hd
  rcases List.mem_cons.mp hd with rfl | hd
  · exact isWordPart_of_start start
  · exact rest d hd

theorem not_mem {c : Char} (h : IsWord name) (no : Lexeme.isWordPart c = false) :
    c ∉ name.toList := by
  intro hc
  rw [h.isWordPart c hc] at no
  cases no

end IsWord

theorem IsDotted.not_mem {c : Char} {name : String} (h : IsDotted name)
    (no : Lexeme.isWordPart c = false) (dot : c ≠ '.') : c ∉ name.toList := by
  induction h with
  | word h => exact h.not_mem no
  | snoc _ h ih =>
    rw [String.toList_append, String.toList_append]
    have dotted : ".".toList = ['.'] := rfl
    rw [dotted, List.mem_append, List.mem_append, not_or, not_or, List.mem_singleton]
    exact ⟨⟨ih, dot⟩, h.not_mem no⟩

theorem IsDotted.append {a b : String} (ha : IsDotted a) (hb : IsDotted b) :
    IsDotted (a ++ "." ++ b) := by
  induction hb with
  | word hb => exact .snoc ha hb
  | @snoc name segment _ h ih =>
    have regroup : a ++ "." ++ (name ++ "." ++ segment) = a ++ "." ++ name ++ "." ++ segment := by
      simp only [String.append_assoc]
    exact regroup ▸ .snoc ih h

namespace Token

/-- An identifier is a word. -/
def Wordy : Token → Prop
  | ident name => IsWord name
  | _ => True

end Token

def Piece.Wordy : Piece → Prop
  | .token t => t.Wordy
  | .doc _ => True

namespace Lexeme

theorem isWord_takeWhile {c : Char} {r : List Char} (start : isWordStart c = true) :
    IsWord (String.ofList (c :: r.takeWhile isWordPart)) :=
  ⟨c, r.takeWhile isWordPart, by simp, start, List.all_eq_true.mp List.all_takeWhile⟩

theorem wordy_wordToken {word : List Char} (h : IsWord (String.ofList word)) :
    (wordToken word).Wordy := by
  unfold wordToken
  split
  · trivial
  · exact h

/-- Whatever a reader gives, if anything, is a wordy piece. -/
def Gives (read : Option Piece × List Char) : Prop := ∀ piece ∈ read.1, piece.Wordy

theorem gives_none (r : List Char) : Gives (none, r) := by
  intro piece given
  cases given

theorem gives_some {piece : Piece} {r : List Char} (h : piece.Wordy) : Gives (some piece, r) := by
  intro given same
  cases same
  exact h

theorem gives_markPiece (m : Mark) (r : List Char) : Gives (markPiece m r) := gives_some trivial

theorem gives_opPiece (c : Char) (r : List Char) : Gives (opPiece c r) := gives_some trivial

theorem gives_textPiece (read : List Char × List Char) : Gives (textPiece read) :=
  gives_some trivial

theorem gives_readSlash (r : List Char) : Gives (readSlash r) := by
  unfold readSlash
  split
  · exact gives_none _
  · exact gives_some trivial
  · exact gives_none _
  · exact gives_none _
  · exact gives_opPiece _ _

theorem gives_readAt (r : List Char) : Gives (readAt r) := by
  unfold readAt
  split
  · exact gives_opPiece _ _
  · split
    · exact gives_textPiece _
    · split
      · rename_i start
        exact gives_some (isWord_takeWhile start)
      · exact gives_opPiece _ _

theorem gives_readWord (c : Char) (r : List Char) : Gives (readWord c r) := by
  unfold readWord
  split
  · exact gives_some trivial
  · split
    · rename_i start
      exact gives_some (wordy_wordToken (isWord_takeWhile start))
    · exact gives_opPiece _ _

theorem gives_read (fresh : Bool) (c : Char) (r : List Char) : Gives (read fresh c r) := by
  have colon : Gives (readColon r) := by
    unfold readColon
    split <;> exact gives_markPiece _ _
  have equals : Gives (readEquals r) := by
    unfold readEquals
    split
    · exact gives_markPiece _ _
    · exact gives_opPiece _ _
    · exact gives_markPiece _ _
  have quote : Gives (readQuote r) := by
    unfold readQuote
    split <;> exact gives_textPiece _
  have dollar : Gives (readDollar r) := by
    unfold readDollar
    split
    · exact gives_textPiece _
    · exact gives_textPiece _
    · exact gives_opPiece _ _
  unfold read
  split <;> first
    | exact gives_markPiece _ _
    | assumption
    | exact gives_readSlash r
    | exact gives_readAt r
    | exact gives_readWord c r
    | skip
  · split
    · exact gives_none _
    · exact gives_opPiece _ _
  · exact gives_some trivial

theorem scan_wordy (fresh : Bool) (start : Nat) (cs : List Char) :
    ∀ l ∈ scan fresh start cs, l.piece.Wordy := by
  fun_induction scan fresh start cs with
  | case1 => simp
  | case2 _ _ _ ih => exact ih
  | case3 _ _ _ _ _ _ ih => exact ih
  | case4 fresh start c r _ _ rest stop piece given _ ih =>
    intro l hl
    rcases List.mem_cons.mp hl with rfl | hl
    · have gives := gives_read fresh c r
      rw [given] at gives
      exact gives piece rfl
    · exact ih l hl
  | case5 _ _ _ _ _ _ _ _ _ _ ih => exact ih

end Lexeme

/-- Items whose identifiers are words. -/
def Wordy (ts : List Item) : Prop := ∀ i ∈ ts, i.token.Wordy

theorem Wordy.suffix {rest ts : List Item} (h : Wordy ts) (suffix : rest <:+ ts) : Wordy rest :=
  fun i hi => h i (suffix.subset hi)

theorem Item.ofLexemes_wordy (docs : List String) (ls : List Lexeme)
    (h : ∀ l ∈ ls, l.piece.Wordy) : Wordy (Item.ofLexemes docs ls) := by
  fun_induction Item.ofLexemes docs ls with
  | case1 => exact fun i hi => by cases hi
  | case2 docs line start stop r ih => exact ih fun l hl => h l (List.mem_cons_of_mem _ hl)
  | case3 docs t start stop r ih =>
    intro i hi
    rcases List.mem_cons.mp hi with rfl | hi
    · exact h _ List.mem_cons_self
    · exact ih (fun l hl => h l (List.mem_cons_of_mem _ hl)) i hi

theorem Item.ofText_wordy (text : String) : Wordy (Item.ofText text) :=
  Item.ofLexemes_wordy [] _ (Lexeme.scan_wordy true 0 text.toList)

end Ambient
