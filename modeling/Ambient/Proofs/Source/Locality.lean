import Ambient.Lexeme

/-!
# What a lexer leaves

A reader of the lexer looks at the characters that come next and goes on past those that it knows.
What it leaves is the end of the text that it was given.
-/
namespace Ambient

/-- Names and marks, which a type is made of. -/
def Token.IsPlain : Token → Prop
  | ident _ | keyword _ | mark _ => True
  | _ => False

def Piece.IsPlain : Piece → Prop
  | .token t => t.IsPlain
  | .doc _ => True

namespace Lexeme

variable {x rest : List Char}

theorem not_append {cs : List Char} (short : cs.length < x.length) : cs ≠ rest ++ x := by
  intro h
  have lengths := congrArg List.length h
  rw [List.length_append] at lengths
  omega

/-- Nothing was dropped if all of the text is left. -/
theorem stays_of_dropWhile {p : Char → Bool} (h : x.dropWhile p = rest ++ x) :
    rest = [] ∧ x.takeWhile p = [] := by
  have short := dropWhile_length_le p x
  have whole := List.takeWhile_append_dropWhile (p := p) (l := x)
  have none : rest = [] := by
    rw [h, List.length_append] at short
    exact List.eq_nil_of_length_eq_zero (by omega)
  subst none
  rw [h] at whole
  exact ⟨rfl, List.append_left_eq_self.mp whole⟩

/-- A block comment goes on unless an asterisk and a slash come next. -/
theorem skipBlock_cons {c : Char} {q : List Char} (goesOn : c = '*' → q.head? ≠ some '/') :
    skipBlock (c :: q) = skipBlock q := by
  rw [skipBlock]
  rintro q rfl rfl
  exact goesOn rfl rfl

/-- Past `d` if it comes next one reader goes on, otherwise another. -/
def ahead {α : Type} (d : Char) (g g' : List Char → α) (r : List Char) : α :=
  if r.head? = some d then g r.tail else g' r

theorem ahead_length_le {d : Char} {g g' : List Char → Option Piece × List Char}
    (first : ∀ q, (g q).2.length ≤ q.length) (second : ∀ q, (g' q).2.length ≤ q.length)
    (q : List Char) : (ahead d g g' q).2.length ≤ q.length := by
  unfold ahead
  split
  · have short := first q.tail
    rw [List.length_tail] at short
    omega
  · exact second q

theorem not_textPiece {read : List Char × List Char} {piece? : Option Piece}
    (h : textPiece read = (piece?, rest))
    (plain : ∀ piece ∈ piece?, piece.IsPlain) : False := by
  obtain ⟨rfl, -⟩ := Prod.mk.inj h
  exact plain _ rfl

theorem readColon_eq : readColon = ahead ':' (markPiece .doubleColon) (markPiece .colon) := by
  funext r
  unfold readColon ahead
  split <;> simp_all [List.head?_eq_some_iff]

theorem readEquals_eq :
    readEquals = ahead '>' (markPiece .arrow) (ahead '=' (opPiece '=') (markPiece .equals)) := by
  funext r
  unfold readEquals ahead
  split <;> simp_all [List.head?_eq_some_iff]

/-- The comments behind a slash. -/
def lineComment (r : List Char) : Option Piece × List Char := (none, skipLine r)

def docComment (r : List Char) : Option Piece × List Char :=
  (some (.doc (docLine r)), skipLine r)

def blockComment (r : List Char) : Option Piece × List Char := (none, skipBlock r)

theorem readSlash_eq : readSlash =
    ahead '/' (ahead '/' (ahead '/' lineComment docComment) lineComment)
      (ahead '*' blockComment (opPiece '/')) := by
  funext r
  unfold readSlash ahead lineComment docComment blockComment
  split <;> simp_all [List.head?_eq_some_iff]

theorem readQuoted_suffix (cs : List Char) : (readQuoted cs).2 <:+ cs := by
  fun_induction readQuoted cs with
  | case1 => exact List.suffix_rfl
  | case2 => exact List.nil_suffix
  | case3 c r text rest read ih =>
    rw [read] at ih
    exact ih.trans ((List.suffix_cons _ _).trans (List.suffix_cons _ _))
  | case4 r => exact List.suffix_cons _ _
  | case5 c r _ _ _ text rest read ih =>
    rw [read] at ih
    exact ih.trans (List.suffix_cons _ _)

theorem readVerbatim_suffix (cs : List Char) : (readVerbatim cs).2 <:+ cs := by
  fun_induction readVerbatim cs with
  | case1 => exact List.suffix_rfl
  | case2 r text rest read ih =>
    rw [read] at ih
    exact ih.trans ((List.suffix_cons _ _).trans (List.suffix_cons _ _))
  | case3 r => exact List.suffix_cons _ _
  | case4 c r _ _ text rest read ih =>
    rw [read] at ih
    exact ih.trans (List.suffix_cons _ _)

theorem readRaw_suffix (cs : List Char) : (readRaw cs).2 <:+ cs := by
  fun_induction readRaw cs with
  | case1 => exact List.suffix_rfl
  | case2 r =>
    exact (List.dropWhile_suffix _).trans ((List.suffix_cons _ _).trans
      ((List.suffix_cons _ _).trans (List.suffix_cons _ _)))
  | case3 c r _ text rest read ih =>
    rw [read] at ih
    exact ih.trans (List.suffix_cons _ _)

theorem skipCharacter_suffix (cs : List Char) : skipCharacter cs <:+ cs := by
  fun_induction skipCharacter cs with
  | case1 => exact List.suffix_rfl
  | case2 => exact List.nil_suffix
  | case3 c r ih => exact ih.trans ((List.suffix_cons _ _).trans (List.suffix_cons _ _))
  | case4 r => exact List.suffix_cons _ _
  | case5 c r _ _ _ ih => exact ih.trans (List.suffix_cons _ _)

theorem skipBlock_suffix (cs : List Char) : skipBlock cs <:+ cs := by
  fun_induction skipBlock cs with
  | case1 => exact List.suffix_rfl
  | case2 r => exact (List.suffix_cons _ _).trans (List.suffix_cons _ _)
  | case3 c r _ ih => exact ih.trans (List.suffix_cons c r)

/-- A number is what is taken. -/
theorem readNumber_append (hexadecimal : Bool) (cs : List Char) :
    (readNumber hexadecimal cs).1 ++ (readNumber hexadecimal cs).2 = cs := by
  fun_induction readNumber hexadecimal cs <;> simp_all

theorem readNumber_suffix (hexadecimal : Bool) (cs : List Char) :
    (readNumber hexadecimal cs).2 <:+ cs :=
  ⟨(readNumber hexadecimal cs).1, readNumber_append hexadecimal cs⟩

theorem skipLine_suffix (cs : List Char) : skipLine cs <:+ cs := List.dropWhile_suffix _

theorem ahead_suffix {d : Char} {g g' : List Char → Option Piece × List Char}
    (first : ∀ q, (g q).2 <:+ q) (second : ∀ q, (g' q).2 <:+ q) (q : List Char) :
    (ahead d g g' q).2 <:+ q := by
  unfold ahead
  split
  · exact (first q.tail).trans (List.tail_suffix q)
  · exact second q

theorem readSlash_suffix (r : List Char) : (readSlash r).2 <:+ r := by
  rw [readSlash_eq]
  exact ahead_suffix (ahead_suffix (ahead_suffix skipLine_suffix skipLine_suffix) skipLine_suffix)
    (ahead_suffix skipBlock_suffix fun q => List.suffix_rfl) r

theorem readColon_suffix (r : List Char) : (readColon r).2 <:+ r := by
  rw [readColon_eq]
  exact ahead_suffix (fun q => List.suffix_rfl) (fun q => List.suffix_rfl) r

theorem readEquals_suffix (r : List Char) : (readEquals r).2 <:+ r := by
  rw [readEquals_eq]
  exact ahead_suffix (fun q => List.suffix_rfl)
    (ahead_suffix (fun q => List.suffix_rfl) fun q => List.suffix_rfl) r

theorem readQuote_suffix (r : List Char) : (readQuote r).2 <:+ r := by
  unfold readQuote
  split
  · exact (readRaw_suffix _).trans ((List.suffix_cons _ _).trans (List.suffix_cons _ _))
  · exact readQuoted_suffix _

theorem readAt_suffix (r : List Char) : (readAt r).2 <:+ r := by
  unfold readAt
  split
  · exact List.suffix_rfl
  · split
    · exact (readVerbatim_suffix _).trans (List.suffix_cons _ _)
    · split
      · exact (List.dropWhile_suffix _).trans (List.suffix_cons _ _)
      · exact List.suffix_rfl

theorem readDollar_suffix (r : List Char) : (readDollar r).2 <:+ r := by
  unfold readDollar
  split
  · exact (readQuoted_suffix _).trans (List.suffix_cons _ _)
  · exact (readVerbatim_suffix _).trans ((List.tail_suffix _).trans (List.suffix_cons _ _))
  · exact List.suffix_rfl

theorem readWord_suffix (c : Char) (r : List Char) : (readWord c r).2 <:+ r := by
  unfold readWord
  split
  · exact readNumber_suffix _ r
  · split
    · exact List.dropWhile_suffix _
    · exact List.suffix_rfl

theorem read_suffix (fresh : Bool) (c : Char) (r : List Char) : (read fresh c r).2 <:+ r := by
  have hash : (if fresh then (none, skipLine r) else opPiece '#' r).2 <:+ r := by
    split
    · exact skipLine_suffix r
    · exact List.suffix_rfl
  unfold read
  split
  all_goals first
    | exact List.suffix_rfl
    | exact readColon_suffix r
    | exact readEquals_suffix r
    | exact readSlash_suffix r
    | exact readQuote_suffix r
    | exact readAt_suffix r
    | exact readDollar_suffix r
    | exact hash
    | exact skipCharacter_suffix r
    | exact readWord_suffix c r

/-- Only slashes and number signs do not begin a token. -/
theorem exists_token (fresh : Bool) {c : Char} (r : List Char) (slash : c ≠ '/')
    (hash : c ≠ '#') : ∃ t rest, read fresh c r = (some (.token t), rest) := by
  unfold read
  split
  all_goals first
    | exact ⟨_, _, rfl⟩
    | exact absurd rfl slash
    | exact absurd rfl hash
    | skip
  · unfold readColon
    split <;> exact ⟨_, _, rfl⟩
  · unfold readEquals
    split <;> exact ⟨_, _, rfl⟩
  · unfold readQuote
    split <;> exact ⟨_, _, rfl⟩
  · unfold readAt
    repeat' split
    all_goals exact ⟨_, _, rfl⟩
  · unfold readDollar
    split <;> exact ⟨_, _, rfl⟩
  · unfold readWord
    repeat' split
    all_goals exact ⟨_, _, rfl⟩

end Lexeme
end Ambient
